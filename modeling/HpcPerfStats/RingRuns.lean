/-
# Runs of the ring buffer

Insertions and sends in any order, on a ring that starts empty.  Beside the ring, a run keeps a
`Log` of what the queue is for: every payload accepted, in the order of insertion, and which of
them were sent and which overwritten.  `Log.live` is what the queue should hold, and `Log.insert`
says what an insertion should do: on a full ring the oldest payload that is no schema payload
gives way, and the new one goes last.

Main results: `queue_of_run` (in every run in which no overwrite finds a schema payload in front
of its victim and payloads behind it, the queue is that of the log, and the loss counter
the number of overwritten payloads) and `not_queue_of_run_schemaFirst` (a full ring with the
schema payload in front: the next overwrite moves it behind the newer samples).
-/
import HpcPerfStats.Transition
import HpcPerfStats.RingResend

namespace RingRuns

open RingBuffer

/-! ## What the queue should hold -/

/-- The payloads accepted so far, and the numbers of those sent and of those overwritten. -/
structure Log where
  inserted : List StatsBuffer
  sent : List Nat
  overwritten : List Nat

/-- The payloads, with their numbers, that are neither sent nor overwritten. -/
def Log.live (log : Log) : List (StatsBuffer × Nat) :=
  log.inserted.zipIdx.filter fun p => p.2 ∉ log.sent ∧ p.2 ∉ log.overwritten

/-- A payload accepted as the last one. -/
def Log.push (log : Log) (sf : StatsBuffer) : Log :=
  { log with inserted := log.inserted ++ [sf] }

/-- What an insertion should do. -/
def Log.insert (log : Log) (sf : StatsBuffer) (maxBufferSize : Int) (allowOverwrite mem : Bool) :
    Log :=
  if log.live = [] then
    if mem then log.push sf else log
  else if (log.live.length : Int) ≥ maxBufferSize ∧ maxBufferSize ≠ -1 then
    if allowOverwrite = false then log
    else
      match log.live.find? fun p => isSchemaPayload p.1 = false with
      | none => log
      | some oldest => { log with overwritten := log.overwritten ++ [oldest.2] }.push sf
  else if mem then log.push sf
  else log

/-- The first payloads of the queue are sent. -/
def Log.send (log : Log) (n : Nat) : Log :=
  { log with sent := log.sent ++ (log.live.take n).map (·.2) }

/-! ## Runs -/

/-- A call on the ring. -/
inductive Op where
  | insert (sf : StatsBuffer) (maxBufferSize : Int) (allowOverwrite mem : Bool)
  | resend (softMaxOverride : Nat) (maxBatches : Int) (outside : Nat → Round)

/-- The ring and its log. -/
structure State where
  ring : Ring
  log : Log

def init : State := ⟨Ring.init, ⟨[], [], []⟩⟩

/-- One call.  The log learns from a send how many payloads went out. -/
def step (s : State) : Op → Option State
  | .insert sf maxBufferSize allowOverwrite mem =>
      some ⟨(ringBufferInsert s.ring sf maxBufferSize allowOverwrite mem).2,
        s.log.insert sf maxBufferSize allowOverwrite mem⟩
  | .resend softMaxOverride maxBatches outside =>
      let r := ringBufferResendLimited s.ring softMaxOverride maxBatches outside
      some ⟨r.1, s.log.send r.2.2⟩

/-- The condition on an insertion: if it overwrites, no schema payload stands in front of the
victim, or nothing stands behind it. -/
def OverwriteOk (s : State) : Op → Prop
  | .insert _ maxBufferSize allowOverwrite _ =>
      allowOverwrite = true → (s.ring.qCount : Int) ≥ maxBufferSize → maxBufferSize ≠ -1 →
        s.ring.queue.takeWhile isSchemaPayload = [] ∨
          (s.ring.queue.dropWhile isSchemaPayload).tail = []
  | .resend _ _ _ => True

/-- The queue is that of the log, and so is the loss counter; a schema payload is never
overwritten. -/
structure Kept (s : State) : Prop where
  queue : s.ring.queue = s.log.live.map (·.1)
  losses : s.ring.dCount = s.log.overwritten.length
  no_schema : ∀ n ∈ s.log.overwritten, ∃ sf, s.log.inserted[n]? = some sf ∧
    isSchemaPayload sf = false

/-! ## The log -/

theorem mem_live {log : Log} {p : StatsBuffer × Nat} :
    p ∈ log.live ↔ log.inserted[p.2]? = some p.1 ∧ p.2 ∉ log.sent ∧ p.2 ∉ log.overwritten := by
  rw [Log.live, List.mem_filter, List.mem_zipIdx_iff_getElem?]
  simp

/-- Numbers that were given out. -/
def Log.Numbered (log : Log) : Prop :=
  (∀ n ∈ log.sent, n < log.inserted.length) ∧ ∀ n ∈ log.overwritten, n < log.inserted.length

theorem live_push {log : Log} (h : log.Numbered) (sf : StatsBuffer) :
    (log.push sf).live = log.live ++ [(sf, log.inserted.length)] := by
  have hnew : log.inserted.length ∉ log.sent ∧ log.inserted.length ∉ log.overwritten :=
    ⟨fun hmem => absurd (h.1 _ hmem) (by omega), fun hmem => absurd (h.2 _ hmem) (by omega)⟩
  simp only [Log.live, Log.push, List.zipIdx_append, List.filter_append]
  congr 1
  simp [hnew]

theorem nodup_live (log : Log) : (log.live.map (·.2)).Nodup := by
  have hsub : (log.live.map (·.2)).Sublist (log.inserted.zipIdx.map (·.2)) :=
    List.filter_sublist.map _
  apply hsub.nodup
  rw [List.zipIdx_map_snd]
  exact List.nodup_range'

/-- Taking numbers out of the log takes their payloads out of the queue. -/
theorem live_filter (log : Log) (sent overwritten : List Nat) :
    Log.live { log with sent := log.sent ++ sent, overwritten := log.overwritten ++ overwritten } =
      log.live.filter fun p => p.2 ∉ sent ∧ p.2 ∉ overwritten := by
  simp only [Log.live, List.filter_filter]
  apply List.filter_congr
  intro p _
  simp only [List.mem_append, not_or, Bool.decide_and]
  grind

theorem live_send (log : Log) (n : Nat) : (log.send n).live = log.live.drop n := by
  have hlive : (log.send n).live = log.live.filter fun p =>
      p.2 ∉ (log.live.take n).map (·.2) ∧ p.2 ∉ ([] : List Nat) := by
    rw [← live_filter]
    simp [Log.send]
  have hnodup := nodup_live log
  rw [← List.take_append_drop n log.live, List.map_append, List.nodup_append] at hnodup
  rw [hlive]
  conv_lhs => rw [← List.take_append_drop n log.live]
  rw [List.filter_append]
  have htake : (log.live.take n).filter (fun p =>
      p.2 ∉ ((log.live.take n ++ log.live.drop n).take n).map (·.2) ∧ p.2 ∉ ([] : List Nat)) = [] := by
    rw [List.take_append_drop, List.filter_eq_nil_iff]
    intro p hp
    simp only [List.not_mem_nil, not_false_eq_true, and_true, decide_not, Bool.not_eq_true',
      decide_eq_false_iff_not, not_not]
    exact List.mem_map_of_mem hp
  have hdrop : (log.live.drop n).filter (fun p =>
      p.2 ∉ ((log.live.take n ++ log.live.drop n).take n).map (·.2) ∧ p.2 ∉ ([] : List Nat)) =
      log.live.drop n := by
    rw [List.take_append_drop, List.filter_eq_self]
    intro p hp
    simp only [List.not_mem_nil, not_false_eq_true, and_true, decide_not, Bool.not_eq_true',
      decide_eq_false_iff_not]
    intro hmem
    exact hnodup.2.2 _ hmem _ (List.mem_map_of_mem hp) rfl
  rw [htake, hdrop, List.nil_append]

theorem live_overwrite {log : Log} {pre post : List (StatsBuffer × Nat)} {v : StatsBuffer × Nat}
    (hlive : log.live = pre ++ v :: post) :
    Log.live { log with overwritten := log.overwritten ++ [v.2] } = pre ++ post := by
  have hfilter : Log.live { log with overwritten := log.overwritten ++ [v.2] } =
      log.live.filter fun p => p.2 ∉ ([] : List Nat) ∧ p.2 ∉ [v.2] := by
    rw [← live_filter]
    simp
  have hnodup := nodup_live log
  rw [hlive, List.map_append, List.map_cons, List.nodup_append, List.nodup_cons] at hnodup
  have hkeep : ∀ l : List (StatsBuffer × Nat), (∀ p ∈ l, p.2 ≠ v.2) →
      l.filter (fun p => p.2 ∉ ([] : List Nat) ∧ p.2 ∉ [v.2]) = l := by
    intro l hl
    rw [List.filter_eq_self]
    intro p hp
    simpa using hl p hp
  rw [hfilter, hlive, List.filter_append, List.filter_cons_of_neg (by simp),
    hkeep pre ?_, hkeep post ?_]
  · intro p hp hpv
    exact hnodup.2.1.1 (hpv ▸ List.mem_map_of_mem hp)
  · intro p hp hpv
    exact hnodup.2.2 p.2 (List.mem_map_of_mem hp) v.2 List.mem_cons_self hpv

/-- The oldest payload of the log that is no schema payload is the one the queue holds first
after its leading schema payloads. -/
theorem find?_live {log : Log} {v : StatsBuffer} {newer : List StatsBuffer}
    (hdrop : (log.live.map (·.1)).dropWhile isSchemaPayload = v :: newer) :
    ∃ pre n post, log.live = pre ++ (v, n) :: post ∧
      pre.map (·.1) = (log.live.map (·.1)).takeWhile isSchemaPayload ∧ post.map (·.1) = newer ∧
      log.live.find? (fun p => isSchemaPayload p.1 = false) = some (v, n) ∧
      isSchemaPayload v = false := by
  have hsplit : log.live.map (·.1) =
      (log.live.map (·.1)).takeWhile isSchemaPayload ++ v :: newer := by
    rw [← hdrop, List.takeWhile_append_dropWhile]
  have hv : isSchemaPayload v = false := by
    have := List.head?_dropWhile_not isSchemaPayload (log.live.map (·.1))
    rw [hdrop] at this
    simpa using this
  obtain ⟨pre, rest, hlive, hpre, hrest⟩ := List.map_eq_append_iff.mp hsplit
  obtain ⟨⟨v', n⟩, post, rfl, rfl, hpost⟩ := List.map_eq_cons_iff.mp hrest
  refine ⟨pre, n, post, hlive, hpre, hpost, ?_, hv⟩
  rw [hlive, List.find?_append, List.find?_cons_of_pos (by simpa using hv)]
  have hnone : pre.find? (fun p => isSchemaPayload p.1 = false) = none := by
    rw [List.find?_eq_none]
    intro p hp
    have hmem : p.1 ∈ (log.live.map (·.1)).takeWhile isSchemaPayload := by
      rw [← hpre]
      exact List.mem_map_of_mem hp
    simpa using List.mem_takeWhile_imp hmem
  rw [hnone]
  rfl

/-! ## One call -/

/-- What every call keeps. -/
structure Inv (s : State) : Prop extends Kept s where
  rep : ∃ ids, Rep s.ring ids
  numbered : s.log.Numbered

theorem Kept.live_nil {s : State} (h : Kept s) : s.log.live = [] ↔ s.ring.queue = [] := by
  rw [h.queue, List.map_eq_nil_iff]

theorem numbered_push {log : Log} (h : log.Numbered) (sf : StatsBuffer) :
    (log.push sf).Numbered := by
  have hlen : (log.push sf).inserted.length = log.inserted.length + 1 := by simp [Log.push]
  refine ⟨fun n hn => ?_, fun n hn => ?_⟩
  · have := h.1 n hn
    omega
  · have := h.2 n hn
    omega

/-- A payload that goes last without an overwrite. -/
theorem kept_push {s : State} (h : Inv s) {w : Ring} {sf : StatsBuffer}
    (hqueue : w.queue = s.ring.queue ++ [sf]) (hd : w.dCount = s.ring.dCount) :
    Kept ⟨w, s.log.push sf⟩ := by
  refine ⟨?_, ?_, ?_⟩
  · show w.queue = (s.log.push sf).live.map (·.1)
    rw [hqueue, live_push h.numbered, h.queue]
    simp
  · show w.dCount = s.log.overwritten.length
    rw [hd, h.losses]
  · intro n hn
    obtain ⟨sf', hsf', hplain⟩ := h.no_schema n hn
    refine ⟨sf', ?_, hplain⟩
    have hlt := h.numbered.2 n hn
    show (s.log.inserted ++ [sf])[n]? = some sf'
    rw [List.getElem?_append_left hlt]
    exact hsf'

/-- **An insertion that meets the condition** does to the queue what it should. -/
theorem inv_insert {s : State} (h : Inv s) (sf : StatsBuffer) (maxBufferSize : Int)
    (allowOverwrite mem : Bool)
    (hok : OverwriteOk s (.insert sf maxBufferSize allowOverwrite mem)) :
    Inv ⟨(ringBufferInsert s.ring sf maxBufferSize allowOverwrite mem).2,
      s.log.insert sf maxBufferSize allowOverwrite mem⟩ := by
  obtain ⟨ids, hrep⟩ := h.rep
  obtain ⟨ids', hrep', hspec⟩ := ringBufferInsert_spec hrep sf maxBufferSize allowOverwrite mem
  generalize (ringBufferInsert s.ring sf maxBufferSize allowOverwrite mem).2 = w at hrep' hspec
  generalize (ringBufferInsert s.ring sf maxBufferSize allowOverwrite mem).1 = rc at hspec
  have hlen : s.log.live.length = s.ring.queue.length := by rw [h.queue, List.length_map]
  have hcount : s.ring.queue.length = s.ring.qCount := hrep.length_queue
  -- nothing happens
  have hsame : ∀ {w : Ring}, (∃ ids, Rep w ids) → w.queue = s.ring.queue →
      w.dCount = s.ring.dCount → Inv ⟨w, s.log⟩ := by
    intro w hw hq hd
    exact ⟨⟨hq.trans h.queue, hd.trans h.losses, h.no_schema⟩, hw, h.numbered⟩
  rw [queueInsert] at hspec
  rw [Log.insert]
  by_cases hempty : s.ring.queue = []
  · rw [if_pos hempty] at hspec
    rw [if_pos (h.live_nil.mpr hempty)]
    cases mem with
    | false =>
        simp only [Bool.false_eq_true, if_false, Prod.mk.injEq] at hspec ⊢
        exact hsame ⟨ids', hrep'⟩ hspec.2.1 hspec.2.2
    | true =>
        simp only [if_true, Prod.mk.injEq] at hspec ⊢
        exact ⟨kept_push h (by rw [hspec.2.1, hempty]; rfl) hspec.2.2, ⟨ids', hrep'⟩,
          numbered_push h.numbered sf⟩
  rw [if_neg hempty] at hspec
  rw [if_neg (fun hnil => hempty (h.live_nil.mp hnil)), hlen]
  by_cases hfull : (s.ring.queue.length : Int) ≥ maxBufferSize ∧ maxBufferSize ≠ -1
  · rw [if_pos hfull] at hspec ⊢
    cases allowOverwrite with
    | false =>
        simp only [if_true, Prod.mk.injEq] at hspec ⊢
        exact hsame ⟨ids', hrep'⟩ hspec.2.1 hspec.2.2
    | true =>
        simp only [Bool.true_eq_false, if_false] at hspec ⊢
        have horder := hok rfl (hcount ▸ hfull.1) hfull.2
        cases hdrop : s.ring.queue.dropWhile isSchemaPayload with
        | nil =>
            rw [hdrop] at hspec
            have hnone : s.log.live.find? (fun p => isSchemaPayload p.1 = false) = none := by
              rw [List.find?_eq_none]
              intro p hp
              rw [List.dropWhile_eq_nil_iff, h.queue] at hdrop
              simpa using hdrop p.1 (List.mem_map_of_mem hp)
            rw [hnone]
            simp only [Prod.mk.injEq] at hspec
            exact hsame ⟨ids', hrep'⟩ hspec.2.1 hspec.2.2
        | cons v newer =>
            rw [hdrop] at hspec horder
            rw [h.queue] at hdrop
            obtain ⟨pre, n, post, hlive, hpre, hpost, hfind, hv⟩ := find?_live hdrop
            rw [hfind]
            simp only [Prod.mk.injEq] at hspec
            have hmem := mem_live.mp (hlive ▸ List.mem_append_right pre List.mem_cons_self :
              (v, n) ∈ s.log.live)
            have hnlt : n < s.log.inserted.length := (List.getElem?_eq_some_iff.mp hmem.1).1
            -- the log after the overwrite, before the new payload
            have hnum : Log.Numbered { s.log with overwritten := s.log.overwritten ++ [n] } := by
              refine ⟨h.numbered.1, ?_⟩
              intro m hm
              rcases List.mem_append.mp hm with hm | hm
              · exact h.numbered.2 m hm
              · obtain rfl : m = n := by simpa using hm
                exact hnlt
            -- moving the schema payloads in front of the victim behind the newer ones is no
            -- change when one of the two is missing
            have hmoved : newer ++ s.ring.queue.takeWhile isSchemaPayload =
                s.ring.queue.takeWhile isSchemaPayload ++ newer := by
              rcases horder with hnil | hnil
              · rw [hnil, List.append_nil, List.nil_append]
              · obtain rfl : newer = [] := hnil
                rw [List.append_nil, List.nil_append]
            refine ⟨⟨?_, ?_, ?_⟩, ⟨ids', hrep'⟩, numbered_push hnum sf⟩
            · show w.queue = (Log.push _ sf).live.map (·.1)
              rw [live_push hnum, live_overwrite hlive, hspec.2.1, hmoved, List.map_append,
                List.map_append, hpre, hpost, h.queue]
              rfl
            · show w.dCount = (s.log.overwritten ++ [n]).length
              rw [hspec.2.2, h.losses]
              simp
            · intro m hm
              show ∃ sf', (s.log.inserted ++ [sf])[m]? = some sf' ∧ _
              change m ∈ s.log.overwritten ++ [n] at hm
              rcases List.mem_append.mp hm with hm | hm
              · obtain ⟨sf', hsf', hplain⟩ := h.no_schema m hm
                exact ⟨sf', by rw [List.getElem?_append_left (h.numbered.2 m hm)]; exact hsf', hplain⟩
              · obtain rfl : m = n := by simpa using hm
                exact ⟨v, by rw [List.getElem?_append_left hnlt]; exact hmem.1, hv⟩
  · rw [if_neg hfull] at hspec ⊢
    cases mem with
    | false =>
        simp only [Bool.false_eq_true, if_false, Prod.mk.injEq] at hspec ⊢
        exact hsame ⟨ids', hrep'⟩ hspec.2.1 hspec.2.2
    | true =>
        simp only [if_true, Prod.mk.injEq] at hspec ⊢
        exact ⟨kept_push h hspec.2.1 hspec.2.2, ⟨ids', hrep'⟩, numbered_push h.numbered sf⟩

/-- **A send** takes out of the queue what it takes out of the log. -/
theorem inv_resend {s : State} (h : Inv s) (softMaxOverride : Nat) (maxBatches : Int)
    (outside : Nat → Round) :
    Inv ⟨(ringBufferResendLimited s.ring softMaxOverride maxBatches outside).1,
      s.log.send (ringBufferResendLimited s.ring softMaxOverride maxBatches outside).2.2⟩ := by
  obtain ⟨ids, hrep⟩ := h.rep
  obtain ⟨⟨groups, tried, hsends⟩, hrep', hd⟩ :=
    resendLoop_spec (softMaxBytes_ne_zero softMaxOverride) maxBatches outside s.ring.qCount 0 hrep
  refine ⟨⟨?_, ?_, h.no_schema⟩, hrep', ?_⟩
  · show (resendLoop _ _ _ _ _ _).1.queue = (s.log.send (resendLoop _ _ _ _ _ _).2.2).live.map (·.1)
    rw [live_send, List.map_drop, ← h.queue, hsends.processed_eq]
    conv_rhs => rw [hsends.queue_eq, List.drop_left]
  · exact hd.trans h.losses
  · refine ⟨?_, h.numbered.2⟩
    intro n hn
    rcases List.mem_append.mp hn with hn | hn
    · exact h.numbered.1 n hn
    · obtain ⟨p, hp, rfl⟩ := List.mem_map.mp hn
      have hmem := mem_live.mp (List.mem_of_mem_take hp)
      exact (List.getElem?_eq_some_iff.mp hmem.1).1

theorem inv_init : Inv init :=
  ⟨⟨rfl, rfl, by simp [init]⟩, ⟨[], rep_init⟩, by simp [init, Log.Numbered]⟩

theorem inv_step {s s' : State} {op : Op} (h : Inv s) (hok : OverwriteOk s op)
    (hstep : step s op = some s') : Inv s' := by
  cases op with
  | insert sf maxBufferSize allowOverwrite mem =>
      obtain rfl := Option.some.inj hstep
      exact inv_insert h sf maxBufferSize allowOverwrite mem hok
  | resend softMaxOverride maxBatches outside =>
      obtain rfl := Option.some.inj hstep
      exact inv_resend h softMaxOverride maxBatches outside

/-- **The queue along every run.**  In every sequence of insertions and sends whose overwrites
meet the condition, the queue read from `q_first` holds the accepted payloads in the order of
their insertion, without those sent and those overwritten, the loss counter is the number of
overwritten payloads, and no schema payload is among them. -/
theorem queue_of_run (ops : List Op) (s : State)
    (hok : Transition.Respects step OverwriteOk init ops)
    (hrun : Transition.exec step init ops = some s) : Kept s :=
  (Transition.exec_invariant (fun _ _ _ h hok hstep => inv_step h hok hstep) ops init s inv_init
    hok hrun).toKept

instance (s : State) : (op : Op) → Decidable (OverwriteOk s op)
  | .insert _ maxBufferSize allowOverwrite _ =>
      inferInstanceAs (Decidable (allowOverwrite = true →
        (s.ring.qCount : Int) ≥ maxBufferSize → maxBufferSize ≠ -1 →
          s.ring.queue.takeWhile isSchemaPayload = [] ∨
            (s.ring.queue.dropWhile isSchemaPayload).tail = []))
  | .resend _ _ _ => inferInstanceAs (Decidable True)

/-- An insertion into a ring of two or three payloads that may be overwritten. -/
def put (maxBufferSize : Int) (text : String) : Op := .insert (payload text) maxBufferSize true true

/-- Overwrites with no schema payload in front of the victim, a send, and an overwrite with
nothing behind the victim. -/
def steadyOps : List Op :=
  [put 2 "\n1\n", put 2 "\n2\n", put 2 "\n3\n", put 2 "$h\n\n4\n",
    .resend 0 1 fun _ => ⟨true, 0, false⟩, put 2 "\n5\n", put 2 "\n6\n"]

/-- The state that a run ends in. -/
def endState (ops : List Op) : State := (Transition.exec step init ops).getD init

theorem exec_eq_endState (ops : List Op) : Transition.exec step init ops = some (endState ops) := by
  have hsome : ∀ s, (Transition.exec step s ops).isSome := by
    induction ops with
    | nil => intro s; rfl
    | cons op ops ih =>
        intro s
        rw [Transition.exec_cons]
        cases op <;> exact ih _
  obtain ⟨s, hs⟩ := Option.isSome_iff_exists.mp (hsome init)
  rw [endState, hs]
  rfl

theorem queue_of_run_steadyOps :
    Kept (endState steadyOps) ∧
      (endState steadyOps).ring.queue = [payload "$h\n\n4\n", payload "\n6\n"] ∧
      (endState steadyOps).log.overwritten = [0, 1, 4] := by
  refine ⟨queue_of_run steadyOps _ ?_ (exec_eq_endState steadyOps), ?_, ?_⟩ <;> decide +kernel

/-- A full ring with the schema payload in front, and one more sample. -/
def schemaFirst : List Op := [put 3 "$h\n\n1\n", put 3 "\n2\n", put 3 "\n3\n", put 3 "\n4\n"]

/-- The overwrite makes the node behind the victim the first one: the schema payload, inserted
first, is now read after the sample 3. -/
theorem not_queue_of_run_schemaFirst :
    (endState schemaFirst).ring.queue = [payload "\n3\n", payload "$h\n\n1\n", payload "\n4\n"] ∧
      (endState schemaFirst).log.live.map (·.1) =
        [payload "$h\n\n1\n", payload "\n3\n", payload "\n4\n"] ∧
      ¬ Kept (endState schemaFirst) := by
  have hqueue : (endState schemaFirst).ring.queue =
      [payload "\n3\n", payload "$h\n\n1\n", payload "\n4\n"] := by decide +kernel
  have hlive : (endState schemaFirst).log.live.map (·.1) =
      [payload "$h\n\n1\n", payload "\n3\n", payload "\n4\n"] := by decide +kernel
  refine ⟨hqueue, hlive, ?_⟩
  intro h
  have := h.queue
  rw [hqueue, hlive] at this
  exact absurd this (by decide +kernel)

end RingRuns
