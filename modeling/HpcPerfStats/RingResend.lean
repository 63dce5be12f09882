/-
# Sending from the ring buffer (`ring_buffer_resend_limited`)

The loop takes payloads from the front of the ring: a schema payload by itself, other payloads
up to ten at a time as long as their bytes stay within a soft limit.  What was sent is taken out
of the ring; a send that fails ends the call.

What happens outside is given round by round (`Round`): whether the merged buffer can be
allocated, what the send returns, and whether the time budget is used up after it.  The result
of a call is the ring it leaves, the messages it passed to the send, each with its outcome,
and the number of payloads sent.

Main result: `resend_prefix`, for every well linked ring and every behaviour of the outside.
-/
import Mathlib.Algebra.Group.Nat.Defs
import HpcPerfStats.RingBuffer

namespace RingBuffer

open LinkedRing

/-! ## The call -/

/-- `SIZE_MAX`. -/
def sizeMax : Nat := 2 ^ 64 - 1

/-- `stats_buffer_rmq_soft_max_bytes`: 0 stands for the built-in limit. -/
def softMaxBytes (softMaxOverride : Nat) : Nat :=
  if softMaxOverride ≠ 0 then softMaxOverride else 32 <<< 20

/-- `stats_buffer_rmq_batch_can_add`. -/
def batchCanAdd (batchLen batchCount nextLen softMax : Nat) : Bool :=
  if batchCount = 0 then true
  else if softMax = 0 then true
  else if nextLen > sizeMax - batchLen then false
  else batchLen + nextLen ≤ softMax

/-- What happens outside in one round of the loop. -/
structure Round where
  mem : Bool
  sendStatus : Int
  timeUp : Bool

/-- A message passed to the send, and whether the send succeeded. -/
structure Message where
  bytes : Text
  sent : Bool
  deriving DecidableEq, Repr

/-- `max_batch_entries`. -/
def maxBatchEntries : Nat := 10

/-- The number of payloads of one batch, with the entries still allowed. -/
def batchLoop (w : Ring) (softMax : Nat) : Nat → Nat → Nat → Nat → Nat
  | 0, _, _, batchCount => batchCount
  | n + 1, node, batchLen, batchCount =>
      if batchCount < w.qCount then
        match (w.sf node).sfData with
        | none => batchCount
        | some t =>
            if isSchemaPayload (w.sf node) then batchCount
            else if batchCanAdd batchLen batchCount t.length softMax = false then batchCount
            else if w.links.forward node = w.qFirst then batchCount + 1
            else batchLoop w softMax n (w.links.forward node) (batchLen + t.length) (batchCount + 1)
      else batchCount

/-- The merged buffer: the bytes of the first payloads. -/
def mergedBytes (w : Ring) (batchCount : Nat) : Text :=
  (trace w.links.forward batchCount w.qFirst).flatMap fun node => (w.sf node).bytes

/-- What is passed to the send: the payload itself, or the merged buffer. -/
def messageBytes (w : Ring) (batchCount : Nat) : Text :=
  if batchCount = 1 then (w.sf w.qFirst).bytes else mergedBytes w batchCount

/-- The first payloads after a successful send: counted and taken out. -/
def Ring.sentOff (w : Ring) (n : Nat) : Ring :=
  dropFirst^[n] { w with status := 0, rCount := w.rCount + n }

/-- One round of the loop: the ring, the messages, the number of payloads sent, and whether
the loop may go on. -/
def resendRound (softMax : Nat) (r : Round) (w : Ring) : Ring × List Message × Nat × Bool :=
  if isSchemaPayload (w.sf w.qFirst) then
    let bytes := (w.sf w.qFirst).bytes
    if r.sendStatus ≠ 0 then ({ w with status := r.sendStatus }, [⟨bytes, false⟩], 0, false)
    else (w.sentOff 1, [⟨bytes, true⟩], 1, true)
  else
    let batchCount := batchLoop w softMax maxBatchEntries w.qFirst 1 0
    if batchCount = 0 then (w, [], 0, false)
    else if 1 < batchCount ∧ r.mem = false then ({ w with status := -1 }, [], 0, false)
    else
      let bytes := messageBytes w batchCount
      if r.sendStatus ≠ 0 then ({ w with status := r.sendStatus }, [⟨bytes, false⟩], 0, false)
      else (w.sentOff batchCount, [⟨bytes, true⟩], batchCount, true)

/-- The loop, with as many rounds as the ring has payloads: a round that goes on has sent one. -/
def resendLoop (softMax : Nat) (maxBatches : Int) (outside : Nat → Round) :
    Nat → Nat → Ring → Ring × List Message × Nat
  | 0, _, w => (w, [], 0)
  | n + 1, batches, w =>
      if w.qCount = 0 then (w, [], 0)
      else
        let round := resendRound softMax (outside batches) w
        if round.2.2.2 = false ∨ (maxBatches > 0 ∧ (batches : Int) + 1 ≥ maxBatches) ∨
            (outside batches).timeUp then
          (round.1, round.2.1, round.2.2.1)
        else
          let rest := resendLoop softMax maxBatches outside n (batches + 1) round.1
          (rest.1, round.2.1 ++ rest.2.1, round.2.2.1 + rest.2.2)

/-- `ring_buffer_resend_limited`: the ring it leaves, the messages it passed to the send, and
`processed_entries`. -/
def ringBufferResendLimited (w : Ring) (softMaxOverride : Nat) (maxBatches : Int)
    (outside : Nat → Round) : Ring × List Message × Nat :=
  resendLoop (softMaxBytes softMaxOverride) maxBatches outside w.qCount 0 w

/-! ## One message -/

/-- The bytes of several payloads, one after the other. -/
def bytesOf (group : List StatsBuffer) : Text := group.flatMap StatsBuffer.bytes

/-- What may go into one message: at least one payload, a schema payload only by itself, and
more bytes than the soft limit only for a single payload. -/
structure Fair (softMax : Nat) (group : List StatsBuffer) : Prop where
  nonempty : group ≠ []
  schema_alone : ∀ sf ∈ group, isSchemaPayload sf = true → group = [sf]
  over_alone : softMax < (bytesOf group).length → ∃ sf, group = [sf]

theorem fair_singleton (softMax : Nat) (sf : StatsBuffer) : Fair softMax [sf] :=
  ⟨by simp, by simp, fun _ => ⟨sf, rfl⟩⟩

/-- The batch is a front part of the ring without schema payloads, and from two payloads on
within the soft limit. -/
theorem batchLoop_spec {w : Ring} {ids : List Nat} (h : Rep w ids) {softMax : Nat}
    (hsoft : softMax ≠ 0) (n : Nat) (a : List Nat) (i : Nat) (b : List Nat)
    (hids : ids = a ++ i :: b) (ha : ∀ j ∈ a, isSchemaPayload (w.sf j) = false)
    (hlen : 2 ≤ a.length → 1 + (bytesOf (a.map w.sf)).length ≤ softMax) :
    ∃ a' b', ids = a' ++ b' ∧
      batchLoop w softMax n i (1 + (bytesOf (a.map w.sf)).length) a.length = a'.length ∧
      (∀ j ∈ a', isSchemaPayload (w.sf j) = false) ∧
      (2 ≤ a'.length → 1 + (bytesOf (a'.map w.sf)).length ≤ softMax) := by
  induction n generalizing a i b with
  | zero => exact ⟨a, i :: b, hids, rfl, ha, hlen⟩
  | succ n ih =>
      have hstop : ∃ a' b', ids = a' ++ b' ∧ a.length = a'.length ∧
          (∀ j ∈ a', isSchemaPayload (w.sf j) = false) ∧
          (2 ≤ a'.length → 1 + (bytesOf (a'.map w.sf)).length ≤ softMax) :=
        ⟨a, i :: b, hids, rfl, ha, hlen⟩
      rw [batchLoop]
      by_cases hcount : a.length < w.qCount
      swap
      · rw [if_neg hcount]
        exact hstop
      rw [if_pos hcount]
      cases hdata : (w.sf i).sfData with
      | none => exact hstop
      | some t =>
          simp only
          split_ifs with hschema hadd hlast
          · exact hstop
          · exact hstop
          all_goals
            have hbytes : (bytesOf ((a ++ [i]).map w.sf)).length =
                (bytesOf (a.map w.sf)).length + t.length := by
              simp [bytesOf, StatsBuffer.bytes, hdata]
            have ha' : ∀ j ∈ a ++ [i], isSchemaPayload (w.sf j) = false := by
              intro j hj
              rcases List.mem_append.mp hj with hj | hj
              · exact ha j hj
              · obtain rfl : j = i := by simpa using hj
                simpa using hschema
            have hlen' : 2 ≤ (a ++ [i]).length →
                1 + (bytesOf ((a ++ [i]).map w.sf)).length ≤ softMax := by
              intro htwo
              have hpos : a.length ≠ 0 := by simp at htwo; omega
              rw [Bool.not_eq_false, batchCanAdd, if_neg hpos, if_neg hsoft] at hadd
              split_ifs at hadd with hmax
              have := of_decide_eq_true hadd
              omega
          · exact ⟨a ++ [i], b, by rw [hids]; simp, by simp, ha', hlen'⟩
          · -- the node is not the last one of the ring
            obtain ⟨i', b', rfl⟩ : ∃ i' b', b = i' :: b' := by
              cases b with
              | nil =>
                  exfalso
                  apply hlast
                  have hl := h.linked
                  rw [hids] at hl
                  obtain ⟨f, hf⟩ : ∃ f, (a ++ [i]).head? = some f := by
                    cases a with
                    | nil => exact ⟨i, rfl⟩
                    | cons f a => exact ⟨f, rfl⟩
                  rw [hl.forward_last hf, h.first f (by rw [hids]; exact hf)]
              | cons i' b' => exact ⟨i', b', rfl⟩
            have hnext : w.links.forward i = i' := by
              have hl := h.linked
              rw [hids] at hl
              exact hl.forward_next
            have hrest := ih (a ++ [i]) i' b' (by rw [hids]; simp) ha' hlen'
            rw [hbytes, ← Nat.add_assoc] at hrest
            rw [hnext]
            simpa using hrest

theorem Rep.congr {w w' : Ring} {ids : List Nat} (h : Rep w ids) (hlinks : w'.links = w.links)
    (hfresh : w'.fresh = w.fresh) (hcount : w'.qCount = w.qCount) (hfirst : w'.qFirst = w.qFirst)
    (hq : w'.q = w.q) : Rep w' ids := by
  refine ⟨hlinks ▸ h.linked, ?_, hcount ▸ h.count, hfirst ▸ h.first, hq ▸ h.last, hfresh ▸ h.fresh_pos⟩
  intro i hi
  rw [hfresh]
  exact h.old i hi

/-- What is sent off leaves the front of the queue. -/
theorem sentOff_spec {w : Ring} {ids : List Nat} (h : Rep w ids) {n : Nat} (hn : n ≤ ids.length) :
    Rep (w.sentOff n) (ids.drop n) ∧ (w.sentOff n).queue = w.queue.drop n ∧
      (w.sentOff n).dCount = w.dCount := by
  have h' : Rep { w with status := 0, rCount := w.rCount + n } ids := h.congr rfl rfl rfl rfl rfl
  obtain ⟨hrep, -, hd⟩ := rep_dropFirst_iterate h' n hn
  exact ⟨hrep, queue_dropFirst_iterate h' n hn, hd⟩

theorem trace_take (forward : Nat → Nat) (m n x : Nat) (hmn : m ≤ n) :
    trace forward m x = (trace forward n x).take m := by
  induction m generalizing n x with
  | zero => rfl
  | succ m ih =>
      obtain ⟨n, rfl⟩ : ∃ k, n = k + 1 := ⟨n - 1, by omega⟩
      rw [trace, trace, List.take_succ_cons, ih n _ (by omega)]

/-- The message holds the bytes of the first payloads of the queue. -/
theorem messageBytes_eq {w : Ring} {ids : List Nat} (h : Rep w ids) {n : Nat} (hn : n ≤ ids.length) :
    messageBytes w n = bytesOf (w.queue.take n) := by
  have hmerged : mergedBytes w n = bytesOf (w.queue.take n) := by
    rw [mergedBytes, trace_take _ n w.qCount w.qFirst (h.count ▸ hn), bytesOf, Ring.queue,
      ← List.map_take, List.flatMap_map]
  rw [messageBytes]
  split_ifs with hone
  · rw [← hmerged, hone, mergedBytes]
    simp [trace]
  · exact hmerged

/-- The payloads of a batch are fair in one message. -/
theorem batch_fair {w : Ring} {i : Nat} {b : List Nat} (h : Rep w (i :: b)) {softMax n : Nat}
    (hsoft : softMax ≠ 0) (hn : batchLoop w softMax maxBatchEntries w.qFirst 1 0 = n)
    (hzero : n ≠ 0) : n ≤ (i :: b).length ∧ Fair softMax (w.queue.take n) := by
  obtain rfl : i = w.qFirst := (h.first i rfl).symm
  obtain ⟨a, rest, hids, hcount, hplain, hlimit⟩ :=
    batchLoop_spec h hsoft maxBatchEntries [] w.qFirst b rfl (by simp) (by simp)
  obtain rfl : n = a.length := hn.symm.trans hcount
  have htake : w.queue.take a.length = a.map w.sf := by
    rw [h.queue_eq, hids, ← List.map_take, List.take_left]
  refine ⟨by rw [hids]; simp, ?_⟩
  rw [htake]
  refine ⟨?_, ?_, ?_⟩
  · intro hnil
    exact hzero (by simpa using congrArg List.length hnil)
  · intro sf hsf hschema
    obtain ⟨j, hj, rfl⟩ := List.mem_map.mp hsf
    rw [hplain j hj] at hschema
    simp at hschema
  · intro hover
    by_cases htwo : 2 ≤ a.length
    · have := hlimit htwo
      omega
    · obtain ⟨j, hj⟩ := List.length_eq_one_iff.mp (show a.length = 1 by omega)
      exact ⟨w.sf j, by rw [hj]; rfl⟩

/-- How one round of the loop can end. -/
inductive RoundEnd (softMax : Nat) (w : Ring) : Ring × List Message × Nat × Bool → Prop
  | stopped {w' : Ring} (hqueue : w'.queue = w.queue) : RoundEnd softMax w (w', [], 0, false)
  | failed {w' : Ring} (group rest : List StatsBuffer) (hfair : Fair softMax group)
      (hsplit : w.queue = group ++ rest) (hqueue : w'.queue = w.queue) :
      RoundEnd softMax w (w', [⟨bytesOf group, false⟩], 0, false)
  | sent {w' : Ring} (group : List StatsBuffer) (hfair : Fair softMax group)
      (hqueue : w.queue = group ++ w'.queue) :
      RoundEnd softMax w (w', [⟨bytesOf group, true⟩], group.length, true)

/-- **One round** keeps the ring linked, and sends a front part of the queue or nothing. -/
theorem resendRound_spec {w : Ring} {ids : List Nat} (h : Rep w ids) (hne : w.qCount ≠ 0)
    {softMax : Nat} (hsoft : softMax ≠ 0) (r : Round) :
    RoundEnd softMax w (resendRound softMax r w) ∧
      (∃ ids', Rep (resendRound softMax r w).1 ids') ∧
      (resendRound softMax r w).1.dCount = w.dCount := by
  obtain ⟨i, b, rfl⟩ : ∃ i b, ids = i :: b := by
    cases ids with
    | nil => exact absurd h.count hne
    | cons i b => exact ⟨i, b, rfl⟩
  have hstatus : ∀ s : Int, Rep { w with status := s } (i :: b) :=
    fun s => h.congr rfl rfl rfl rfl rfl
  -- the end of a round that has passed the first `n` payloads to the send
  have hend : ∀ n ≤ (i :: b).length, Fair softMax (w.queue.take n) →
      ∀ result, result = (if r.sendStatus ≠ 0 then
          ({ w with status := r.sendStatus }, [⟨bytesOf (w.queue.take n), false⟩], 0, false)
        else (w.sentOff n, [⟨bytesOf (w.queue.take n), true⟩], n, true)) →
      RoundEnd softMax w result ∧ (∃ ids', Rep result.1 ids') ∧ result.1.dCount = w.dCount := by
    intro n hn hfair result hresult
    obtain ⟨hrep, hqueue, hd⟩ := sentOff_spec h hn
    have hlen : (w.queue.take n).length = n := by
      rw [List.length_take, h.length_queue, h.count]
      omega
    split_ifs at hresult with hstat
    · subst hresult
      exact ⟨RoundEnd.failed _ _ hfair (List.take_append_drop n w.queue).symm rfl, ⟨_, hstatus _⟩, rfl⟩
    · subst hresult
      refine ⟨?_, ⟨_, hrep⟩, hd⟩
      have hround : RoundEnd softMax w
          (w.sentOff n, [⟨bytesOf (w.queue.take n), true⟩], (w.queue.take n).length, true) :=
        RoundEnd.sent _ hfair (by rw [hqueue, List.take_append_drop])
      rw [hlen] at hround
      exact hround
  have hone : w.queue.take 1 = [w.sf w.qFirst] := by
    rw [h.queue_eq, h.first i rfl]
    rfl
  simp only [resendRound]
  by_cases hschema : isSchemaPayload (w.sf w.qFirst) = true
  · rw [if_pos hschema]
    apply hend 1 (by simp) (hone ▸ fair_singleton _ _)
    rw [hone]
    simp [bytesOf]
  rw [if_neg hschema]
  by_cases hzero : batchLoop w softMax maxBatchEntries w.qFirst 1 0 = 0
  · rw [if_pos hzero]
    exact ⟨RoundEnd.stopped rfl, ⟨_, h⟩, rfl⟩
  rw [if_neg hzero]
  by_cases hmem : 1 < batchLoop w softMax maxBatchEntries w.qFirst 1 0 ∧ r.mem = false
  · rw [if_pos hmem]
    exact ⟨RoundEnd.stopped rfl, ⟨_, hstatus _⟩, rfl⟩
  rw [if_neg hmem]
  obtain ⟨hle, hfair⟩ := batch_fair h hsoft rfl hzero
  apply hend _ hle hfair
  rw [messageBytes_eq h hle]

/-! ## The whole call -/

/-- What a whole call does to the queue: the messages sent are fair groups that together are the
front of the queue, at most one more message, the last one, was tried and failed, and the queue
that is left is the rest. -/
structure Sends (softMax : Nat) (queue queue' : List StatsBuffer) (messages : List Message)
    (processed : Nat) (groups : List (List StatsBuffer)) (tried : Option (List StatsBuffer)) :
    Prop where
  messages_eq : messages = groups.map (⟨bytesOf ·, true⟩) ++ tried.toList.map (⟨bytesOf ·, false⟩)
  queue_eq : queue = groups.flatten ++ queue'
  tried_front : ∀ group ∈ tried, ∃ rest, queue' = group ++ rest
  fair : ∀ group ∈ groups ++ tried.toList, Fair softMax group
  processed_eq : processed = groups.flatten.length

theorem resendLoop_spec {softMax : Nat} (hsoft : softMax ≠ 0) (maxBatches : Int)
    (outside : Nat → Round) (n batches : Nat) {w : Ring} {ids : List Nat} (h : Rep w ids) :
    (∃ groups tried, Sends softMax w.queue
        (resendLoop softMax maxBatches outside n batches w).1.queue
        (resendLoop softMax maxBatches outside n batches w).2.1
        (resendLoop softMax maxBatches outside n batches w).2.2 groups tried) ∧
      (∃ ids', Rep (resendLoop softMax maxBatches outside n batches w).1 ids') ∧
      (resendLoop softMax maxBatches outside n batches w).1.dCount = w.dCount := by
  -- induction on the fuel, with the ring generalised: a round that goes on hands its ring to the next one
  induction n generalizing batches w ids with
  | zero => exact ⟨⟨[], none, ⟨rfl, rfl, by simp, by simp, rfl⟩⟩, ⟨_, h⟩, rfl⟩
  | succ n ih =>
      rw [resendLoop]
      by_cases hempty : w.qCount = 0
      · rw [if_pos hempty]
        exact ⟨⟨[], none, ⟨rfl, rfl, by simp, by simp, rfl⟩⟩, ⟨_, h⟩, rfl⟩
      rw [if_neg hempty]
      obtain ⟨hround, ⟨ids', hrep⟩, hd⟩ := resendRound_spec h hempty hsoft (outside batches)
      generalize hres : resendRound softMax (outside batches) w = res at hround hrep hd
      dsimp only
      -- the three ways a round ends: nothing to send, a failed send, a message sent
      cases hround with
      | stopped hqueue =>
          rw [if_pos (Or.inl rfl)]
          exact ⟨⟨[], none, ⟨rfl, hqueue.symm, by simp, by simp, rfl⟩⟩, ⟨_, hrep⟩, hd⟩
      | failed group rest hfair hsplit hqueue =>
          rw [if_pos (Or.inl rfl)]
          refine ⟨⟨[], some group, ⟨rfl, hqueue.symm, ?_, ?_, rfl⟩⟩, ⟨_, hrep⟩, hd⟩
          · intro g hg
            obtain rfl : group = g := by simpa using hg
            exact ⟨rest, hqueue.trans hsplit⟩
          · intro g hg
            obtain rfl : g = group := by simpa using hg
            exact hfair
      | sent group hfair hqueue =>
          by_cases hstop : (maxBatches > 0 ∧ (batches : Int) + 1 ≥ maxBatches) ∨
              (outside batches).timeUp = true
          · rw [if_pos (Or.inr hstop)]
            refine ⟨⟨[group], none, ⟨rfl, by simpa using hqueue, by simp, ?_, by simp⟩⟩,
              ⟨_, hrep⟩, hd⟩
            intro g hg
            obtain rfl : g = group := by simpa using hg
            exact hfair
          · rw [if_neg (by rintro (hmore | hmore); · simp at hmore
                           · exact hstop hmore)]
            -- another round: its groups follow the one just sent
            obtain ⟨⟨groups, tried, hsends⟩, hrep', hd'⟩ := ih (batches + 1) hrep
            refine ⟨⟨group :: groups, tried, ⟨?_, ?_, hsends.tried_front, ?_, ?_⟩⟩, hrep',
              hd'.trans hd⟩
            · show _ :: _ = _
              rw [hsends.messages_eq]
              rfl
            · rw [hqueue, hsends.queue_eq]
              simp
            · intro g hg
              rcases List.mem_cons.mp hg with rfl | hg
              · exact hfair
              · exact hsends.fair g hg
            · show group.length + _ = _
              rw [hsends.processed_eq]
              simp

/-- The number of rounds is never the reason to stop: a round that goes on has taken a payload
out of the ring. -/
theorem resendLoop_fuel {softMax : Nat} (hsoft : softMax ≠ 0) (maxBatches : Int)
    (outside : Nat → Round) (n batches : Nat) {w : Ring} {ids : List Nat} (h : Rep w ids)
    (hn : w.qCount ≤ n) :
    resendLoop softMax maxBatches outside (n + 1) batches w =
      resendLoop softMax maxBatches outside n batches w := by
  induction n generalizing batches w ids with
  | zero =>
      have hempty : w.qCount = 0 := by omega
      simp [resendLoop, hempty]
  | succ n ih =>
      rw [resendLoop]
      conv_rhs => rw [resendLoop]
      by_cases hempty : w.qCount = 0
      · rw [if_pos hempty, if_pos hempty]
      rw [if_neg hempty, if_neg hempty]
      obtain ⟨hround, ⟨ids', hrep⟩, -⟩ := resendRound_spec h hempty hsoft (outside batches)
      generalize hres : resendRound softMax (outside batches) w = res at hround hrep
      dsimp only
      split_ifs with hstop
      · rfl
      · have hlt : res.1.qCount ≤ n := by
          cases hround with
          | stopped hqueue => simp at hstop
          | failed group rest hfair hsplit hqueue => simp at hstop
          | sent group hfair hqueue =>
              have hlen := congrArg List.length hqueue
              rw [List.length_append, h.length_queue, hrep.length_queue] at hlen
              have hpos := List.length_pos_iff.mpr hfair.nonempty
              simp only at hlen ⊢
              omega
        rw [ih (batches + 1) hrep hlt]

theorem softMaxBytes_ne_zero (softMaxOverride : Nat) : softMaxBytes softMaxOverride ≠ 0 := by
  rw [softMaxBytes]
  split_ifs with h
  · exact h
  · decide

/-- **Sending from the ring.**  For every well linked ring, every soft limit and every behaviour
of the outside: the bytes of the successful messages are those of the first payloads of the
queue, in order, and the queue that is left is the rest of it; every message holds
payloads that stand together in the queue and may go into one message; and the ring is well
linked, with as many nodes as its count says. -/
theorem resend_prefix {w : Ring} {ids : List Nat} (h : Rep w ids) (softMaxOverride : Nat)
    (maxBatches : Int) (outside : Nat → Round) :
    ∃ w' messages processed ids',
      ringBufferResendLimited w softMaxOverride maxBatches outside = (w', messages, processed) ∧
      (messages.filter (·.sent)).flatMap (·.bytes) = bytesOf (w.queue.take processed) ∧
      w'.queue = w.queue.drop processed ∧
      (∀ message ∈ messages, ∃ before group after, w.queue = before ++ group ++ after ∧
        message.bytes = bytesOf group ∧ Fair (softMaxBytes softMaxOverride) group) ∧
      Linked w'.links ids' ∧ w'.qCount = ids'.length ∧ w'.queue = ids'.map w'.sf := by
  obtain ⟨⟨groups, tried, hsends⟩, ⟨ids', hrep⟩, -⟩ :=
    resendLoop_spec (softMaxBytes_ne_zero softMaxOverride) maxBatches outside w.qCount 0 h
  refine ⟨_, _, _, ids', rfl, ?_, ?_, ?_, hrep.linked, hrep.count, hrep.queue_eq⟩
  · have htake : w.queue.take groups.flatten.length = groups.flatten := by
      rw [hsends.queue_eq, List.take_left]
    have hgroups : ∀ groups : List (List StatsBuffer),
        (groups.map fun g => (⟨bytesOf g, true⟩ : Message)).flatMap (·.bytes) =
          bytesOf groups.flatten := by
      intro groups
      induction groups with
      | nil => rfl
      | cons g groups ih =>
          rw [List.map_cons, List.flatMap_cons, ih, List.flatten_cons]
          simp [bytesOf]
    have hsent : ∀ groups : List (List StatsBuffer),
        (groups.map fun g => (⟨bytesOf g, true⟩ : Message)).filter (·.sent) =
          groups.map fun g => ⟨bytesOf g, true⟩ := by
      intro groups
      apply List.filter_eq_self.mpr
      intro m hm
      obtain ⟨g, -, rfl⟩ := List.mem_map.mp hm
      rfl
    have htried : (tried.toList.map fun g => (⟨bytesOf g, false⟩ : Message)).filter (·.sent) = [] := by
      apply List.filter_eq_nil_iff.mpr
      intro m hm
      obtain ⟨g, -, rfl⟩ := List.mem_map.mp hm
      simp
    show ((resendLoop _ _ _ _ _ _).2.1.filter (·.sent)).flatMap (·.bytes) = _
    rw [hsends.messages_eq, hsends.processed_eq, htake, List.filter_append, hsent, htried,
      List.append_nil, hgroups]
  · show (resendLoop _ _ _ _ _ _).1.queue = _
    rw [hsends.processed_eq]
    conv_rhs => rw [hsends.queue_eq, List.drop_left]
  · intro message hm
    change message ∈ (resendLoop _ _ _ _ _ _).2.1 at hm
    rw [hsends.messages_eq] at hm
    rcases List.mem_append.mp hm with hm | hm
    · obtain ⟨group, hgroup, rfl⟩ := List.mem_map.mp hm
      obtain ⟨gs, gs', rfl⟩ := List.append_of_mem hgroup
      have hqueue := hsends.queue_eq
      rw [List.flatten_append, List.flatten_cons, List.append_assoc, List.append_assoc,
        ← List.append_assoc] at hqueue
      exact ⟨gs.flatten, group, _, hqueue, rfl, hsends.fair group (List.mem_append_left _ hgroup)⟩
    · obtain ⟨group, hgroup, rfl⟩ := List.mem_map.mp hm
      obtain ⟨rest, hrest⟩ := hsends.tried_front group (by simpa using hgroup)
      refine ⟨groups.flatten, group, rest, ?_, rfl,
        hsends.fair group (List.mem_append_right _ hgroup)⟩
      rw [List.append_assoc, ← hrest]
      exact hsends.queue_eq

/-- A payload with the given text. -/
def payload (text : String) : StatsBuffer := ⟨some text.toList⟩

/-- The ring after a sequence of insertions without a bound. -/
def Ring.ofPayloads (payloads : List StatsBuffer) : Ring :=
  payloads.foldl (fun w sf => (ringBufferInsert w sf (-1) false true).2) Ring.init

theorem rep_ofPayloads (payloads : List StatsBuffer) : ∃ ids, Rep (Ring.ofPayloads payloads) ids := by
  have hfold : ∀ (w : Ring) (ids : List Nat), Rep w ids →
      ∃ ids', Rep (payloads.foldl (fun w sf => (ringBufferInsert w sf (-1) false true).2) w) ids' := by
    induction payloads with
    | nil => exact fun w ids h => ⟨ids, h⟩
    | cons sf payloads ih =>
        intro w ids h
        obtain ⟨ids', h', -⟩ := ringBufferInsert_spec h sf (-1) false true
        exact ih _ ids' h'
  exact hfold _ _ rep_init

/-- A header, two small samples, a large one and one more. -/
def mixedRing : Ring :=
  Ring.ofPayloads [payload "$h\n", payload "\n1\n", payload "\n2\n", payload "\n3456789\n",
    payload "\n4\n"]

/-- The third send fails. -/
def thirdFails (n : Nat) : Round := ⟨true, if n = 2 then -1 else 0, false⟩

theorem resend_prefix_mixedRing :
    ∃ w' messages processed ids',
      ringBufferResendLimited mixedRing 8 (-1) thirdFails = (w', messages, processed) ∧
      messages = [⟨"$h\n".toList, true⟩, ⟨"\n1\n\n2\n".toList, true⟩, ⟨"\n3456789\n".toList, false⟩] ∧
      (messages.filter (·.sent)).flatMap (·.bytes) = bytesOf (mixedRing.queue.take processed) ∧
      w'.queue = mixedRing.queue.drop processed ∧
      (∀ message ∈ messages, ∃ before group after, mixedRing.queue = before ++ group ++ after ∧
        message.bytes = bytesOf group ∧ Fair (softMaxBytes 8) group) ∧
      Linked w'.links ids' ∧ w'.qCount = ids'.length ∧ w'.queue = ids'.map w'.sf := by
  obtain ⟨ids, h⟩ := rep_ofPayloads [payload "$h\n", payload "\n1\n", payload "\n2\n",
    payload "\n3456789\n", payload "\n4\n"]
  obtain ⟨w', messages, processed, ids', hcall, hrest⟩ :=
    resend_prefix (w := mixedRing) h 8 (-1) thirdFails
  refine ⟨w', messages, processed, ids', hcall, ?_, hrest⟩
  have hmessages : (ringBufferResendLimited mixedRing 8 (-1) thirdFails).2.1 =
      [⟨"$h\n".toList, true⟩, ⟨"\n1\n\n2\n".toList, true⟩, ⟨"\n3456789\n".toList, false⟩] := by
    decide +kernel
  rw [hcall] at hmessages
  exact hmessages

end RingBuffer
