/-
# Filling idle slots from the ready queue

The metrics session takes jobs off the scheduler's ready queue when it has slots to spare
(`metrics_idle_slot_supplement`).  The size of a job is an estimate of its sample count.  One pass over the
queue looks for jobs below the soft limit, a second one for jobs below the hard limit.

* `Extracts p pool taken left` says, for any type of items, that `taken` and `left` share out `pool`, that
  what is left keeps its order, and that what is taken meets `p`;
* `sampleCountForRef` is the estimate, `popSupplementRefsFromReadyQueue` the two passes.

The main result is `extracts_pop`: a pop takes at most the number of slots, only jobs below the hard limit,
and leaves the rest of the queue in order.
-/
import Mathlib.Data.List.Perm.Basic
import Mathlib.Data.Rat.Floor

namespace IdleSlotSupplement

/-! ## Taking items out of a list -/

section Extraction

variable {α : Type*} {p q : α → Prop} {pool pool' taken taken' left left' : List α}

/-- `pool` is shared out between `taken`, whose items meet `p`, and `left`, which keeps its order. -/
structure Extracts (p : α → Prop) (pool taken left : List α) : Prop where
  order : left.Sublist pool
  shares : (left ++ taken).Perm pool
  meets : ∀ a ∈ taken, p a

theorem Extracts.refl (pool : List α) : Extracts p pool [] pool :=
  ⟨List.Sublist.refl pool, by rw [List.append_nil], by simp⟩

theorem Extracts.imp (h : Extracts p pool taken left) (hpq : ∀ a, p a → q a) :
    Extracts q pool taken left :=
  ⟨h.order, h.shares, fun a ha => hpq a (h.meets a ha)⟩

/-- A second extraction works on what the first one has left. -/
theorem Extracts.trans (h : Extracts p pool taken left) (h' : Extracts p left taken' left') :
    Extracts p pool (taken ++ taken') left' := by
  refine ⟨h'.order.trans h.order, ?_, ?_⟩
  · have hswap : (left' ++ (taken ++ taken')).Perm ((left' ++ taken') ++ taken) := by
      rw [List.append_assoc]
      exact List.perm_append_comm.append_left left'
    exact hswap.trans ((h'.shares.append_right taken).trans h.shares)
  · intro a ha
    rcases List.mem_append.mp ha with ha | ha
    · exact h.meets a ha
    · exact h'.meets a ha

/-- An item that is passed over. -/
theorem Extracts.skip (h : Extracts p pool taken left) (a : α) :
    Extracts p (a :: pool) taken (a :: left) :=
  ⟨h.order.cons_cons a, h.shares.cons a, h.meets⟩

/-- An item that is taken. -/
theorem Extracts.take (h : Extracts p pool taken left) {a : α} (ha : p a) :
    Extracts p (a :: pool) (a :: taken) left := by
  refine ⟨h.order.cons a, List.perm_middle.trans (h.shares.cons a), ?_⟩
  intro b hb
  rcases List.mem_cons.mp hb with rfl | hb
  · exact ha
  · exact h.meets b hb

end Extraction

/-! ## The size of a job -/

/-- A candidate job.  `estimatedSampleCount` and `nhosts` are what `int` makes of the attributes, none where
the attribute is missing or `int` refuses it; `runtimeS` likewise for `float`. -/
structure Ref where
  jid : String
  estimatedSampleCount : Option ℤ
  nhosts : Option ℤ
  runtimeS : Option ℚ
deriving DecidableEq

/-- `estimated_sample_count_for_job`, with the division by 60 exact. -/
def estimatedSampleCountForJob (nhosts : Option ℤ) (runtimeS : Option ℚ) (unknownRuntimeS : ℚ) : ℤ :=
  let hosts := max 1 (nhosts.getD 1)
  let rt := max 0 (runtimeS.getD unknownRuntimeS)
  let minutes := if 0 < rt then max 1 ⌈rt / 60⌉ else 1
  max 1 (hosts * minutes)

/-- `sample_count_for_ref`, with the default of two days for an unknown runtime. -/
def sampleCountForRef (ref : Ref) : ℤ :=
  match ref.estimatedSampleCount with
  | some existing => max 1 existing
  | none => estimatedSampleCountForJob ref.nhosts ref.runtimeS 172800

theorem one_le_sampleCountForRef (ref : Ref) : 1 ≤ sampleCountForRef ref := by
  unfold sampleCountForRef
  split
  · exact le_max_left 1 _
  · exact le_max_left 1 _

/-! ## The two passes -/

/-- `_select`: the refs of `pool` that `pred` accepts, up to the limit, behind those already taken. -/
def select (limit : ℕ) (pred : ℤ → Bool) (taken remaining : List Ref) : List Ref → List Ref × List Ref
  | [] => (taken, remaining)
  | ref :: pool =>
      if limit ≤ taken.length then select limit pred taken (remaining ++ [ref]) pool
      else if pred (sampleCountForRef ref) then select limit pred (taken ++ [ref]) remaining pool
      else select limit pred taken (remaining ++ [ref]) pool

/-- What a pass adds to the two lists. -/
theorem select_spec (limit : ℕ) (pred : ℤ → Bool) (pool : List Ref) :
    ∀ taken remaining : List Ref, taken.length ≤ limit → ∃ new left : List Ref,
      select limit pred taken remaining pool = (taken ++ new, remaining ++ left) ∧
        Extracts (fun ref => pred (sampleCountForRef ref)) pool new left ∧
        (taken ++ new).length ≤ limit := by
  induction pool with
  | nil =>
      intro taken remaining hlimit
      refine ⟨[], [], by rw [select, List.append_nil, List.append_nil], Extracts.refl [], ?_⟩
      rwa [List.append_nil]
  | cons ref pool ih =>
      intro taken remaining hlimit
      have hskip : ∃ new left : List Ref,
          select limit pred taken (remaining ++ [ref]) pool = (taken ++ new, remaining ++ left) ∧
            Extracts (fun ref => pred (sampleCountForRef ref)) (ref :: pool) new left ∧
            (taken ++ new).length ≤ limit := by
        obtain ⟨new, left, heq, hext, hlen⟩ := ih taken (remaining ++ [ref]) hlimit
        refine ⟨new, ref :: left, ?_, hext.skip ref, hlen⟩
        rw [heq, List.append_assoc, List.singleton_append]
      rw [select]
      -- a full list and a refused ref are skipped alike
      split_ifs with hfull hpred
      · exact hskip
      · have hroom : (taken ++ [ref]).length ≤ limit := by
          rw [List.length_append, List.length_singleton]
          omega
        obtain ⟨new, left, heq, hext, hlen⟩ := ih (taken ++ [ref]) remaining hroom
        rw [List.append_assoc, List.singleton_append] at heq hlen
        exact ⟨ref :: new, left, heq, hext.take hpred, hlen⟩
      · exact hskip

/-- The limits as the pop uses them: the hard one is never below the soft one. -/
def softLimit (softMax : ℤ) : ℤ := max 1 softMax

def hardLimit (softMax hardMax : ℤ) : ℤ := max (softLimit softMax) hardMax

/-- `pop_supplement_refs_from_ready_queue`: the refs taken and the queue afterwards.  A queue that is missing
behaves as an empty one. -/
def popSupplementRefsFromReadyQueue (readyQueue : List Ref) (maxN : ℕ) (softMax hardMax : ℤ)
    (originalBatchStillInflight : Bool) : List Ref × List Ref :=
  if !originalBatchStillInflight || maxN == 0 || readyQueue.isEmpty then ([], readyQueue)
  else
    let first := select maxN (fun s => s < softLimit softMax) [] [] readyQueue
    let second :=
      if first.1.length < maxN then
        select maxN (fun s => softLimit softMax ≤ s && s < hardLimit softMax hardMax) first.1 [] first.2
      else first
    (second.1.take maxN, second.2)

/-- **What a pop takes and leaves.** -/
theorem extracts_pop (readyQueue : List Ref) (maxN : ℕ) (softMax hardMax : ℤ) (original : Bool) :
    Extracts (fun ref => sampleCountForRef ref < hardLimit softMax hardMax) readyQueue
        (popSupplementRefsFromReadyQueue readyQueue maxN softMax hardMax original).1
        (popSupplementRefsFromReadyQueue readyQueue maxN softMax hardMax original).2 ∧
      (popSupplementRefsFromReadyQueue readyQueue maxN softMax hardMax original).1.length ≤ maxN := by
  unfold popSupplementRefsFromReadyQueue
  split
  · exact ⟨Extracts.refl readyQueue, Nat.zero_le maxN⟩
  · obtain ⟨small, rest, hfirst, hext, hsmall⟩ := select_spec maxN (fun s => s < softLimit softMax)
      readyQueue [] [] (Nat.zero_le maxN)
    rw [List.nil_append, List.nil_append] at hfirst
    rw [List.nil_append] at hsmall
    have hsoft : Extracts (fun ref => sampleCountForRef ref < hardLimit softMax hardMax) readyQueue
        small rest := by
      apply hext.imp
      intro ref href
      exact lt_of_lt_of_le (of_decide_eq_true href) (le_max_left _ _)
    simp only [hfirst]
    split
    · -- the second pass works on what the first has left
      obtain ⟨large, left, hsecond, hext', hlarge⟩ := select_spec maxN
        (fun s => softLimit softMax ≤ s && s < hardLimit softMax hardMax) rest small [] hsmall
      rw [List.nil_append] at hsecond
      have hhard : Extracts (fun ref => sampleCountForRef ref < hardLimit softMax hardMax) rest
          large left := by
        apply hext'.imp
        intro ref href
        exact of_decide_eq_true (Bool.and_eq_true_iff.mp href).2
      simp only [hsecond, List.take_of_length_le hlarge]
      exact ⟨hsoft.trans hhard, hlarge⟩
    · simp only [List.take_of_length_le hsmall]
      exact ⟨hsoft, hsmall⟩

/-- With the soft limit at most the hard limit, the pop stays below the hard limit it was given. -/
theorem lt_hardMax {softMax hardMax : ℤ} {ref : Ref} (hle : softMax ≤ hardMax)
    (hlt : sampleCountForRef ref < hardLimit softMax hardMax) : sampleCountForRef ref < hardMax := by
  have hone := one_le_sampleCountForRef ref
  unfold hardLimit softLimit at hlt
  omega

end IdleSlotSupplement
