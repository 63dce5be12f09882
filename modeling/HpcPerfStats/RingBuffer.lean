/-
# The monitor's ring buffer (`monitor/src/stats_buffer.c`)

The monitor keeps payloads that could not be sent yet in a circular doubly linked list of
`struct sf_queue` nodes.  `ring_buffer_insert` adds a payload, on a full ring in the place of an
older one, `ring_buffer_resend_limited` sends payloads from the front, several small ones in one
message, and takes out what was sent.

The model keeps the nodes and their links (`LinkedRing`): a node is a number, `NULL` is 0, and
`fresh` is the next node `calloc` gives.  A payload is the text of `sf_data`; it holds no NUL, so
that `sf_data_len` is its length and the message of `amqp_cstring_bytes` is all of it, and it was
allocated with its terminator, so that one payload and the terminator never exceed `SIZE_MAX`.
The connection fields of a `struct stats_buffer` and the counters of the daemon that these
functions do not touch are left out.

`Rep w ids` says that the ring `w` is well linked and that its nodes are `ids`, first to last;
`Rep.queue_eq` says that the queue read from `q_first` is then what these nodes hold.  The two
results of this module, `ringBufferInsert_spec` and `queue_dropFirst_iterate`, say what an insertion and the
removal of the first payload do to that queue.
-/
import Mathlib.Data.List.TakeWhile
import Mathlib.Logic.Function.Iterate
import HpcPerfStats.LinkedRing

namespace RingBuffer

open LinkedRing

/-! ## Payloads -/

/-- The bytes of a text. -/
abbrev Text := List Char

/-- `struct stats_buffer`: `sf_data`, or `none` for `NULL`. -/
structure StatsBuffer where
  sfData : Option Text
  deriving DecidableEq, Repr

/-- The bytes of a payload. -/
def StatsBuffer.bytes (sf : StatsBuffer) : Text := sf.sfData.getD []

/-- `isspace` of the C locale. -/
def isspace (c : Char) : Bool :=
  c == ' ' || c == '\t' || c == '\n' || c == '\x0b' || c == '\x0c' || c == '\r'

/-- `stats_buffer_is_schema_payload`. -/
def isSchemaPayload (sf : StatsBuffer) : Bool :=
  sf.sfData.any fun t => (t.dropWhile isspace).head? == some '$'

/-! ## The ring -/

/-- `struct sf_ring_buffer` with its nodes. -/
structure Ring where
  links : Links
  sf : Nat → StatsBuffer
  fresh : Nat
  q : Nat
  qFirst : Nat
  status : Int
  qCount : Nat
  dCount : Nat
  rCount : Nat

/-- A ring as the daemon starts with it. -/
def Ring.init : Ring := ⟨⟨fun _ => 0, fun _ => 0⟩, fun _ => ⟨none⟩, 1, 0, 0, 0, 0, 0, 0⟩

/-- The queue read from `q_first`. -/
def Ring.queue (w : Ring) : List StatsBuffer :=
  (trace w.links.forward w.qCount w.qFirst).map w.sf

/-- A node from `calloc`, with its payload. -/
def Ring.newNode (w : Ring) (sf : StatsBuffer) : Ring :=
  { w with sf := Function.update w.sf w.fresh sf, fresh := w.fresh + 1 }

/-- The scan for a payload to overwrite: the first node that holds no schema payload. -/
def victimLoop (w : Ring) : Nat → Nat → Option Nat
  | 0, _ => none
  | n + 1, node =>
      if isSchemaPayload (w.sf node) = false then some node
      else if w.links.forward node = w.qFirst then none
      else victimLoop w n (w.links.forward node)

/-- `ring_buffer_insert`: the return code and the ring.  `mem` says whether `calloc` succeeds. -/
def ringBufferInsert (w : Ring) (sf : StatsBuffer) (maxBufferSize : Int) (allowOverwrite mem : Bool) :
    Int × Ring :=
  if w.qCount = 0 then
    if mem then
      let qNew := w.fresh
      let w := w.newNode sf
      (0, { w with links := insque (selfLink w.links qNew) qNew qNew, q := qNew, qFirst := qNew,
                   qCount := w.qCount + 1 })
    else (-1, w)
  else if (w.qCount : Int) ≥ maxBufferSize ∧ maxBufferSize ≠ -1 then
    if allowOverwrite = false then (-1, w)
    else
      let victim := (victimLoop w w.qCount w.qFirst).getD (w.links.forward w.q)
      if isSchemaPayload (w.sf victim) then (-1, w)
      else
        (0, { w with sf := Function.update w.sf victim sf, q := victim,
                     qFirst := w.links.forward victim, dCount := w.dCount + 1 })
  else if mem then
    let qNew := w.fresh
    let w := w.newNode sf
    (0, { w with links := insque w.links qNew w.q, q := qNew, qCount := w.qCount + 1 })
  else (-1, w)

/-- `ring_buffer_drop_first`. -/
def dropFirst (w : Ring) : Ring :=
  if w.qFirst = 0 ∨ w.qCount = 0 then w
  else if w.qCount = 1 then
    { w with links := remque w.links w.qFirst, q := 0, qFirst := 0, qCount := 0 }
  else
    { w with links := remque w.links w.qFirst, qFirst := w.links.forward w.qFirst,
             q := if w.q = w.qFirst then w.links.backward w.qFirst else w.q,
             qCount := w.qCount - 1 }

/-! ## Well linked rings -/

/-- The nodes of the ring are `ids`, first to last. -/
structure Rep (w : Ring) (ids : List Nat) : Prop where
  linked : Linked w.links ids
  old : ∀ i ∈ ids, 0 < i ∧ i < w.fresh
  count : w.qCount = ids.length
  first : ∀ f ∈ ids.head?, w.qFirst = f
  last : ∀ x ∈ ids.getLast?, w.q = x
  fresh_pos : 0 < w.fresh

theorem rep_init : Rep Ring.init [] := by
  refine ⟨linked_nil _, ?_, rfl, ?_, ?_, ?_⟩ <;> simp [Ring.init]

/-- **The queue read from `q_first`** is what the nodes of the ring hold. -/
theorem Rep.queue_eq {w : Ring} {ids : List Nat} (h : Rep w ids) : w.queue = ids.map w.sf := by
  rw [Ring.queue, h.count]
  cases ids with
  | nil => rfl
  | cons f ids =>
      rw [h.first f rfl]
      congr 1
      exact h.linked.trace_eq rfl

theorem Rep.length_queue {w : Ring} {ids : List Nat} (h : Rep w ids) :
    w.queue.length = w.qCount := by
  rw [h.queue_eq, List.length_map, h.count]

/-- The queue splits where its nodes split. -/
theorem Rep.split {w : Ring} {ids : List Nat} (h : Rep w ids) {a b : List StatsBuffer}
    {sf : StatsBuffer} (hq : w.queue = a ++ sf :: b) :
    ∃ a' i b', ids = a' ++ i :: b' ∧ a'.map w.sf = a ∧ w.sf i = sf ∧ b'.map w.sf = b := by
  rw [h.queue_eq, List.map_eq_append_iff] at hq
  obtain ⟨a', rest, rfl, ha, hrest⟩ := hq
  obtain ⟨i, b', rfl, hi, hb⟩ := List.map_eq_cons_iff.mp hrest
  exact ⟨a', i, b', rfl, ha, hi, hb⟩

/-- The node after `j`, which is not the first one of the ring. -/
theorem Rep.forward_next {w : Ring} {c rest : List Nat} {j k : Nat}
    (h : Rep w (c ++ j :: k :: rest)) : w.links.forward j = k ∧ k ≠ w.qFirst := by
  refine ⟨h.linked.forward_next, ?_⟩
  intro hkf
  have hnodup := h.linked.nodup
  cases c with
  | nil =>
      have hf := h.first j rfl
      rw [List.nil_append, hkf, hf] at hnodup
      simp at hnodup
  | cons f c =>
      have hf := h.first f rfl
      rw [hkf, hf] at hnodup
      simp at hnodup

/-- The scan stops at the first payload of the queue that is no schema payload. -/
theorem victimLoop_eq {w : Ring} {ids : List Nat} (h : Rep w ids) {a b : List Nat} {i : Nat}
    (hids : ids = a ++ i :: b) (ha : ∀ j ∈ a, isSchemaPayload (w.sf j) = true)
    (hi : isSchemaPayload (w.sf i) = false) : victimLoop w w.qCount w.qFirst = some i := by
  have hloop : ∀ (c d : List Nat) (n : Nat), d.length ≤ n → ids = c ++ d ++ i :: b →
      (∀ j ∈ d, isSchemaPayload (w.sf j) = true) →
      ∀ x, (d ++ [i]).head? = some x → victimLoop w (n + 1) x = some i := by
    intro c d
    induction d generalizing c with
    | nil =>
        intro n _ _ _ x hx
        obtain rfl : i = x := by simpa using hx
        rw [victimLoop, if_pos hi]
    | cons j d ih =>
        intro n hn hsplit hd x hx
        obtain rfl : j = x := by simpa using hx
        obtain ⟨n, rfl⟩ : ∃ m, n = m + 1 := ⟨n - 1, by simp at hn; omega⟩
        obtain ⟨k, hk⟩ : ∃ k, (d ++ [i]).head? = some k := by
          cases d with
          | nil => exact ⟨i, rfl⟩
          | cons k d => exact ⟨k, rfl⟩
        -- the next node follows `j` in the ring, so it is not the first
        obtain ⟨rest, hrest⟩ : ∃ rest, d ++ i :: b = k :: rest := by
          cases d with
          | nil => exact ⟨b, by simp at hk; rw [hk]; rfl⟩
          | cons k' d => exact ⟨d ++ i :: b, by simp at hk; rw [hk]; rfl⟩
        have hsplit' : ids = c ++ j :: k :: rest := by
          rw [hsplit, ← hrest]
          simp
        obtain ⟨hnext, hne⟩ := Rep.forward_next (hsplit' ▸ h)
        rw [victimLoop, if_neg (by simp [hd j List.mem_cons_self]), hnext, if_neg hne]
        exact ih (c ++ [j]) n (by simp at hn; omega) (by rw [hsplit]; simp)
          (fun j' hj' => hd j' (List.mem_cons_of_mem _ hj')) k hk
  obtain ⟨x, hx⟩ : ∃ x, (a ++ [i]).head? = some x := by
    cases a with
    | nil => exact ⟨i, rfl⟩
    | cons x a => exact ⟨x, rfl⟩
  have hfirst : w.qFirst = x := by
    apply h.first
    rw [hids]
    cases a with
    | nil => simpa using hx
    | cons y a => simpa using hx
  have hcount : w.qCount = (a ++ b).length + 1 := by
    rw [h.count, hids]
    simp
    omega
  rw [hcount, hfirst]
  exact hloop [] a _ (by simp) (by rw [hids]; rfl) ha x hx

theorem Rep.forward_mem {w : Ring} {ids : List Nat} (h : Rep w ids) {i : Nat} (hi : i ∈ ids) :
    w.links.forward i ∈ ids := by
  cases ids with
  | nil => simp at hi
  | cons f ids =>
      rcases (h.linked.seg f rfl).forward_mem hi with hf | hf
      · rw [hf]
        exact List.mem_cons_self
      · exact hf

/-- When all payloads are schema payloads, the scan finds nothing. -/
theorem victimLoop_eq_none {w : Ring} {ids : List Nat} (h : Rep w ids)
    (hall : ∀ j ∈ ids, isSchemaPayload (w.sf j) = true) (n : Nat) {node : Nat} (hnode : node ∈ ids) :
    victimLoop w n node = none := by
  induction n generalizing node with
  | zero => rfl
  | succ n ih =>
      rw [victimLoop, if_neg (by simp [hall node hnode])]
      split_ifs with hend
      · rfl
      · exact ih (h.forward_mem hnode)

/-! ## Insertion -/

/-- What `ring_buffer_insert` does to the queue: the code, the queue and the loss counter. -/
def queueInsert (queue : List StatsBuffer) (dCount : Nat) (sf : StatsBuffer) (maxBufferSize : Int)
    (allowOverwrite mem : Bool) : Int × List StatsBuffer × Nat :=
  if queue = [] then
    if mem then (0, [sf], dCount) else (-1, queue, dCount)
  else if (queue.length : Int) ≥ maxBufferSize ∧ maxBufferSize ≠ -1 then
    if allowOverwrite = false then (-1, queue, dCount)
    else
      match queue.dropWhile isSchemaPayload with
      | [] => (-1, queue, dCount)
      | _ :: newer => (0, newer ++ queue.takeWhile isSchemaPayload ++ [sf], dCount + 1)
  else if mem then (0, queue ++ [sf], dCount) else (-1, queue, dCount)

theorem map_newNode {w : Ring} {ids : List Nat} (h : Rep w ids) (sf : StatsBuffer) :
    ids.map (w.newNode sf).sf = ids.map w.sf := by
  apply List.map_congr_left
  intro i hi
  have hlt := (h.old i hi).2
  exact Function.update_of_ne (by omega) _ _

theorem newNode_fresh (w : Ring) (sf : StatsBuffer) : (w.newNode sf).sf w.fresh = sf :=
  Function.update_self _ _ _

/-- The new node becomes the last one of the ring. -/
theorem rep_append {w : Ring} {ids : List Nat} (h : Rep w ids) (hne : ids ≠ []) (sf : StatsBuffer) :
    Rep { w.newNode sf with
          links := insque (w.newNode sf).links w.fresh (w.newNode sf).q, q := w.fresh,
          qCount := (w.newNode sf).qCount + 1 } (ids ++ [w.fresh]) := by
  obtain ⟨a, x, rfl⟩ : ∃ a x, ids = a ++ [x] :=
    ⟨ids.dropLast, ids.getLast hne, (List.dropLast_append_getLast hne).symm⟩
  have hq : w.q = x := h.last x (by simp)
  have hnew : w.fresh ∉ a ++ [x] := by
    intro hmem
    have := (h.old _ hmem).2
    omega
  refine ⟨?_, ?_, ?_, ?_, ?_, ?_⟩
  · show Linked (insque w.links w.fresh w.q) _
    rw [hq]
    exact h.linked.insque hnew
  · intro i hi
    show 0 < i ∧ i < w.fresh + 1
    rcases List.mem_append.mp hi with hi | hi
    · have := h.old i hi
      omega
    · obtain rfl : i = w.fresh := by simpa using hi
      have := h.fresh_pos
      omega
  · show w.qCount + 1 = _
    rw [h.count]
    simp
  · intro f hf
    apply h.first f
    rw [List.head?_append] at hf
    cases a with
    | nil => simpa using hf
    | cons y a => simpa using hf
  · intro y hy
    simpa using hy
  · show 0 < w.fresh + 1
    omega

/-- Writing the payload into the node of the victim, which becomes the last of the ring: what
stood before it now stands between the newer payloads and it. -/
theorem rep_overwrite {w : Ring} {a b : List Nat} {i : Nat} (h : Rep w (a ++ i :: b))
    (sf : StatsBuffer) :
    Rep { w with sf := Function.update w.sf i sf, q := i, qFirst := w.links.forward i,
                 dCount := w.dCount + 1 } (b ++ a ++ [i]) := by
  have hrot : Linked w.links (b ++ a ++ [i]) := by
    have h' : Linked w.links ((a ++ [i]) ++ b) := by
      rw [List.append_assoc]
      exact h.linked
    rw [List.append_assoc]
    exact h'.rotate
  refine ⟨hrot, ?_, ?_, ?_, ?_, h.fresh_pos⟩
  · intro j hj
    apply h.old j
    simp only [List.mem_append, List.mem_cons] at hj ⊢
    tauto
  · show w.qCount = _
    rw [h.count]
    simp
    omega
  · intro f hf
    exact hrot.forward_last hf
  · intro y hy
    simpa using hy

/-- **Insertion**, seen on the queue. -/
theorem ringBufferInsert_spec {w : Ring} {ids : List Nat} (h : Rep w ids) (sf : StatsBuffer)
    (maxBufferSize : Int) (allowOverwrite mem : Bool) :
    ∃ ids', Rep (ringBufferInsert w sf maxBufferSize allowOverwrite mem).2 ids' ∧
      ((ringBufferInsert w sf maxBufferSize allowOverwrite mem).1,
        (ringBufferInsert w sf maxBufferSize allowOverwrite mem).2.queue,
        (ringBufferInsert w sf maxBufferSize allowOverwrite mem).2.dCount) =
      queueInsert w.queue w.dCount sf maxBufferSize allowOverwrite mem := by
  have hlen := h.length_queue
  rw [ringBufferInsert, queueInsert]
  -- the empty ring: a first node, linked to itself
  by_cases hempty : w.qCount = 0
  · obtain rfl : ids = [] := by
      rw [h.count] at hempty
      exact List.length_eq_zero_iff.mp hempty
    have hqueue : w.queue = [] := by rw [h.queue_eq]; rfl
    rw [if_pos hempty, if_pos hqueue]
    cases mem with
    | false => exact ⟨[], h, by simp [hqueue]⟩
    | true =>
        simp only [if_true]
        have hrep : Rep { w.newNode sf with
            links := insque (selfLink (w.newNode sf).links w.fresh) w.fresh w.fresh,
            q := w.fresh, qFirst := w.fresh, qCount := (w.newNode sf).qCount + 1 } [w.fresh] := by
          refine ⟨?_, ?_, ?_, ?_, ?_, ?_⟩
          · rw [insque_selfLink]
            exact linked_selfLink _ _
          · intro i hi
            obtain rfl : i = w.fresh := by simpa using hi
            exact ⟨h.fresh_pos, Nat.lt_succ_self _⟩
          · show w.qCount + 1 = 1
            omega
          · simp
          · simp
          · exact Nat.succ_pos _
        refine ⟨_, hrep, ?_⟩
        rw [hrep.queue_eq]
        simp [Ring.newNode]
  have hne : ids ≠ [] := by
    rintro rfl
    exact hempty h.count
  have hqueue : w.queue ≠ [] := by
    rw [h.queue_eq]
    simpa using hne
  rw [if_neg hempty, if_neg hqueue, hlen]
  -- a full ring may lose its oldest sample, and never a schema payload
  by_cases hfull : (w.qCount : Int) ≥ maxBufferSize ∧ maxBufferSize ≠ -1
  · rw [if_pos hfull, if_pos hfull]
    cases allowOverwrite with
    | false => exact ⟨ids, h, by simp⟩
    | true =>
        simp only [Bool.true_eq_false, if_false]
        cases hdrop : w.queue.dropWhile isSchemaPayload with
        | nil =>
            -- only schema payloads: the victim is one, whatever the loop gives, and the call refuses
            have hall : ∀ j ∈ ids, isSchemaPayload (w.sf j) = true := by
              intro j hj
              rw [List.dropWhile_eq_nil_iff, h.queue_eq] at hdrop
              exact hdrop _ (List.mem_map_of_mem hj)
            obtain ⟨f, hf⟩ : ∃ f, ids.head? = some f := by
              cases ids with
              | nil => exact absurd rfl hne
              | cons f ids => exact ⟨f, rfl⟩
            obtain ⟨x, hx⟩ : ∃ x, ids.getLast? = some x :=
              ⟨ids.getLast hne, List.getLast?_eq_some_getLast hne⟩
            have hmem : f ∈ ids := List.mem_of_mem_head? hf
            have hqmem : w.q ∈ ids := by
              rw [h.last x hx]
              exact List.mem_of_getLast? hx
            have hvictim : isSchemaPayload
                (w.sf ((victimLoop w w.qCount w.qFirst).getD (w.links.forward w.q))) = true := by
              rw [h.first f hf, victimLoop_eq_none h hall _ hmem]
              exact hall _ (h.forward_mem hqmem)
            rw [if_pos hvictim]
            exact ⟨ids, h, rfl⟩
        | cons v newer =>
            -- the oldest sample and the schema payloads in front of it, on the queue and on the ids
            have hsplit : w.queue = w.queue.takeWhile isSchemaPayload ++ v :: newer := by
              rw [← hdrop]
              exact List.takeWhile_append_dropWhile.symm
            obtain ⟨a, i, b, hids, ha, hi, hb⟩ := h.split hsplit
            have hv : isSchemaPayload v = false := by
              have := List.head?_dropWhile_not isSchemaPayload w.queue
              rw [hdrop] at this
              simpa using this
            have hschema : ∀ j ∈ a, isSchemaPayload (w.sf j) = true := by
              intro j hj
              have hmem : w.sf j ∈ w.queue.takeWhile isSchemaPayload := by
                rw [← ha]
                exact List.mem_map_of_mem hj
              exact List.mem_takeWhile_imp hmem
            rw [victimLoop_eq h hids hschema (by rw [hi]; exact hv), Option.getD_some,
              if_neg (by rw [hi, hv]; simp)]
            subst hids
            have hrep := rep_overwrite h sf
            refine ⟨_, hrep, ?_⟩
            -- the other nodes keep their payloads
            have hi' : i ∉ b ++ a := by
              have hnodup := hrep.linked.nodup
              intro hmem
              exact (List.nodup_append.mp hnodup).2.2 i hmem i (by simp) rfl
            have hold : ∀ c : List Nat, (∀ j ∈ c, j ∈ b ++ a) →
                c.map (Function.update w.sf i sf) = c.map w.sf := by
              intro c hc
              apply List.map_congr_left
              intro j hj
              apply Function.update_of_ne
              rintro rfl
              exact hi' (hc j hj)
            rw [hrep.queue_eq, List.map_append, List.map_append,
              hold b (fun j hj => List.mem_append_left _ hj),
              hold a (fun j hj => List.mem_append_right _ hj), ha, hb]
            simp
  · rw [if_neg hfull, if_neg hfull]
    cases mem with
    | false => exact ⟨ids, h, by simp⟩
    | true =>
        simp only [if_true]
        have hrep := rep_append h hne sf
        refine ⟨_, hrep, ?_⟩
        rw [hrep.queue_eq, h.queue_eq, List.map_append]
        show (0, ids.map (w.newNode sf).sf ++ [(w.newNode sf).sf w.fresh], w.dCount) = _
        rw [map_newNode h, newNode_fresh]

/-! ## Removal of the first payload -/

@[simp] theorem dropFirst_sf (w : Ring) : (dropFirst w).sf = w.sf := by
  rw [dropFirst]
  split_ifs <;> rfl

@[simp] theorem dropFirst_dCount (w : Ring) : (dropFirst w).dCount = w.dCount := by
  rw [dropFirst]
  split_ifs <;> rfl

/-- **The first payload is taken out**, and the rest stays linked as it was. -/
theorem rep_dropFirst {w : Ring} {f : Nat} {ids : List Nat} (h : Rep w (f :: ids)) :
    Rep (dropFirst w) ids := by
  have hfirst : w.qFirst = f := h.first f rfl
  have hpos := (h.old f List.mem_cons_self).1
  have hcount : w.qCount = ids.length + 1 := h.count
  rw [dropFirst, if_neg (by omega)]
  cases ids with
  | nil =>
      rw [if_pos (by simpa using hcount)]
      exact ⟨linked_nil _, by simp, rfl, by simp, by simp, h.fresh_pos⟩
  | cons g ids =>
      rw [if_neg (by simp at hcount; omega), hfirst]
      obtain ⟨hlinked, hfg⟩ := h.linked.remque
      have hlast : ∀ x ∈ (g :: ids).getLast?, w.q = x := by
        intro x hx
        exact h.last x (by rw [List.getLast?_cons_cons]; exact hx)
      have hqne : w.q ≠ f := by
        obtain ⟨x, hx⟩ : ∃ x, (g :: ids).getLast? = some x :=
          ⟨(g :: ids).getLast (by simp), List.getLast?_eq_some_getLast (by simp)⟩
        rw [hlast x hx]
        rintro rfl
        exact (List.nodup_cons.mp h.linked.nodup).1 (List.mem_of_getLast? hx)
      refine ⟨hlinked, ?_, ?_, ?_, ?_, h.fresh_pos⟩
      · intro i hi
        exact h.old i (List.mem_cons_of_mem _ hi)
      · show w.qCount - 1 = _
        omega
      · intro g' hg'
        obtain rfl : g = g' := by simpa using hg'
        exact hfg
      · intro x hx
        show (if w.q = f then _ else w.q) = x
        rw [if_neg hqne]
        exact hlast x hx

/-- Several payloads taken out one after the other. -/
theorem rep_dropFirst_iterate {w : Ring} {ids : List Nat} (h : Rep w ids) (n : Nat)
    (hn : n ≤ ids.length) :
    Rep (dropFirst^[n] w) (ids.drop n) ∧ (dropFirst^[n] w).sf = w.sf ∧
      (dropFirst^[n] w).dCount = w.dCount := by
  induction n generalizing w ids with
  | zero => exact ⟨h, rfl, rfl⟩
  | succ n ih =>
      cases ids with
      | nil => simp at hn
      | cons f ids =>
          obtain ⟨hrep, hsf, hd⟩ := ih (rep_dropFirst h) (by simp at hn; omega)
          rw [Function.iterate_succ_apply]
          refine ⟨hrep, ?_, ?_⟩
          · rw [hsf, dropFirst_sf]
          · rw [hd, dropFirst_dCount]

theorem queue_dropFirst_iterate {w : Ring} {ids : List Nat} (h : Rep w ids) (n : Nat)
    (hn : n ≤ ids.length) : (dropFirst^[n] w).queue = w.queue.drop n := by
  obtain ⟨hrep, hsf, -⟩ := rep_dropFirst_iterate h n hn
  rw [hrep.queue_eq, hsf, h.queue_eq, List.map_drop]

end RingBuffer
