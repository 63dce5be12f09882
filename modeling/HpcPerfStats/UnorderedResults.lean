/-
# Results of a thread pool in the order of their completion

`ThreadPoolUnorderedIterator` of the session executor: the caller asks for the next result, and the iterator submits
the items of a lazy source as long as fewer than `_max_inflight` of its results are not consumed.  A `Session` is the
iterator with the part of the executor that belongs to it.  Workers end between any two calls of the caller, and the
pool may be shut down.

* `exactlyOnce_of_run`: the items are submitted in order, and each that is submitted runs, waits in the queue or was
  taken by the caller, once;
* `complete_of_stop`: when there are no more results, all of them were taken, unless the caller was given a failure;
* `quiet_of_failure`: after a failure nothing is submitted and nothing is returned.
-/
import HpcPerfStats.Transition
import Mathlib.Data.List.Perm.Basic
import Mathlib.Data.List.Perm.Subperm

namespace UnorderedResults

open Transition

variable {α β ε : Type}

/-! ## The iterator and its executor -/

/-- `ThreadPoolUnorderedIterator`; a future that is done is its item with what came of it. -/
structure Iterator (α β ε : Type) where
  items : List α
  /-- The queue, oldest first. -/
  completed : List (α × Except ε β)
  inflight : ℕ
  exhausted : Bool
  closed : Bool

/-- The executor, as far as it has the futures of one iterator. -/
structure Executor (α : Type) where
  /-- `submit` does not raise. -/
  accepting : Bool
  /-- All the items it was given, in order. -/
  submitted : List α
  running : List α

structure Session (α β ε : Type) extends Iterator α β ε, Executor α where
  /-- The futures that the caller took out of the queue. -/
  taken : List (α × Except ε β)
  /-- The items that `submit` refused. -/
  refused : List α

/-- How `next` ends. -/
inductive Answer (β ε : Type) where
  | result (value : β)
  /-- `future.result()` raises. -/
  | raised (error : ε)
  | stop
  | timeout
  /-- `submit` raises after the executor is shut down. -/
  | refused

def Answer.isStop : Answer β ε → Bool
  | .stop => true
  | _ => false

/-- `max(1, int(executor._max_workers))`. -/
def maxInflight (maxWorkers : ℕ) : ℕ := max 1 maxWorkers

/-- The loop of `_fill_available_slots` over these items; `false` when `submit` raises. -/
def fillFrom (maxWorkers : ℕ) (s : Session α β ε) : List α → Bool × Session α β ε
  | [] =>
      if !s.closed && !s.exhausted && s.inflight < maxInflight maxWorkers then
        (true, { s with items := [], exhausted := true })
      else (true, { s with items := [] })
  | item :: items =>
      if !s.closed && !s.exhausted && s.inflight < maxInflight maxWorkers then
        if s.accepting then
          fillFrom maxWorkers
            { s with
              inflight := s.inflight + 1
              submitted := s.submitted ++ [item]
              running := s.running ++ [item] } items
        else (false, { s with items := items, refused := s.refused ++ [item] })
      else (true, { s with items := item :: items })

def fillAvailableSlots (maxWorkers : ℕ) (s : Session α β ε) : Bool × Session α β ε := fillFrom maxWorkers s s.items

/-- `close`; what runs is not waited for. -/
def close (s : Session α β ε) : Session α β ε :=
  if s.closed then s else { s with closed := true, exhausted := true, items := [] }

/-- The caller takes a future out of the queue. -/
def pull (s : Session α β ε) (future : α × Except ε β) (completed : List (α × Except ε β)) : Session α β ε :=
  { s with completed := completed, inflight := s.inflight - 1, taken := s.taken ++ [future] }

/-- `next`.  An empty queue is one in which no future arrives before the timeout. -/
def next (maxWorkers : ℕ) (s : Session α β ε) : Answer β ε × Session α β ε :=
  if s.closed || (s.inflight == 0 && s.exhausted) then (.stop, s)
  else
    match s.completed with
    | [] => (.timeout, s)
    | (item, .error error) :: completed => (.raised error, close (pull s (item, .error error) completed))
    | (item, .ok value) :: completed =>
        match fillAvailableSlots maxWorkers (pull s (item, .ok value) completed) with
        | (false, s) => (.refused, s)
        | (true, s) => if s.inflight == 0 && s.exhausted then (.result value, close s) else (.result value, s)

/-- The session that the constructor fills. -/
def fresh (source : List α) (accepting : Bool) : Session α β ε :=
  ⟨⟨source, [], 0, false, false⟩, ⟨accepting, [], []⟩, [], []⟩

/-- The constructor; `none` when `submit` raises. -/
def start (maxWorkers : ℕ) (source : List α) (accepting : Bool) : Option (Session α β ε) :=
  match fillAvailableSlots maxWorkers (fresh source accepting) with
  | (false, _) => none
  | (true, s) => some s

inductive Act (α β ε : Type) where
  /-- A worker ends, or its future is cancelled. -/
  | finish (i : ℕ) (work : α → Except ε β)
  | shutdown
  | next
  | close

/-- The loop of `_fill_available_slots` reads nothing that a worker writes, so that `next` is one step. -/
def step (maxWorkers : ℕ) (s : Session α β ε) : Act α β ε → Option (Session α β ε)
  | .finish i work => s.running[i]?.map fun item =>
      { s with running := s.running.eraseIdx i, completed := s.completed ++ [(item, work item)] }
  | .shutdown => some { s with accepting := false }
  | .next => some (next maxWorkers s).2
  | .close => some (close s)

/-! ## What is submitted -/

/-- The books of the iterator agree with the executor. -/
structure Sound (maxWorkers : ℕ) (source : List α) (s : Session α β ε) : Prop where
  /-- Items that are neither submitted nor waiting were refused, or were dropped when the iterator closed. -/
  submitted : ∃ gone, source = s.submitted ++ gone ++ s.items ∧ (s.closed = false → gone = s.refused)
  once : s.submitted.Perm (s.taken.map Prod.fst ++ s.completed.map Prod.fst ++ s.running)
  count : s.inflight = s.completed.length + s.running.length
  bound : s.inflight ≤ maxInflight maxWorkers
  exhausted : s.exhausted = true → s.items = []
  closed : s.closed = true → s.exhausted = true
  refused : s.accepting = true → s.refused = []

/-- No slot is free while there are items. -/
def Busy (maxWorkers : ℕ) (s : Session α β ε) : Prop :=
  s.accepting = true → s.exhausted = false → s.inflight = maxInflight maxWorkers

/-- What the loop of `_fill_available_slots` leaves. -/
structure Filled (maxWorkers : ℕ) (source : List α) (s : Session α β ε) (r : Bool × Session α β ε) : Prop where
  sound : Sound maxWorkers source r.2
  busy : Busy maxWorkers r.2
  taken : r.2.taken = s.taken
  completed : r.2.completed = s.completed
  closed : r.2.closed = s.closed
  accepting : r.2.accepting = s.accepting
  accepts : r.1 = false → s.accepting = false

section Fill

variable {maxWorkers : ℕ} {source : List α} {s s' : Session α β ε}

/-- One more item is submitted. -/
theorem Sound.submit {item : α} {items : List α} (h : Sound maxWorkers source { s with items := item :: items })
    (hclosed : s.closed = false) (hexhausted : s.exhausted = false) (hroom : s.inflight < maxInflight maxWorkers)
    (haccepting : s.accepting = true) :
    Sound maxWorkers source
      { s with
        items := items
        inflight := s.inflight + 1
        submitted := s.submitted ++ [item]
        running := s.running ++ [item] } := by
  have hrefused : s.refused = [] := h.refused haccepting
  obtain ⟨gone, hsource, hgone⟩ := h.submitted
  have hnone : gone = [] := (hgone hclosed).trans hrefused
  subst hnone
  constructor
  case submitted =>
    refine ⟨[], ?_, fun _ => hrefused.symm⟩
    rw [hsource]
    simp
  case once =>
    have honce := h.once.append_right [item]
    rw [List.append_assoc] at honce
    exact honce
  case count =>
    have hcount : s.inflight = s.completed.length + s.running.length := h.count
    show s.inflight + 1 = s.completed.length + (s.running ++ [item]).length
    rw [List.length_append, hcount]
    rfl
  case bound => exact hroom
  case exhausted =>
    intro hex
    rw [hexhausted] at hex
    cases hex
  case closed =>
    intro hcl
    rw [hclosed] at hcl
    cases hcl
  case refused => exact h.refused

/-- Where the loop stops. -/
theorem Sound.busy (h : Sound maxWorkers source s)
    (hstop : ¬ (!s.closed && !s.exhausted && s.inflight < maxInflight maxWorkers) = true) : Busy maxWorkers s := by
  intro _ hexhausted
  have hclosed : s.closed = false := by
    cases hclosed : s.closed with
    | false => rfl
    | true => exact (h.closed hclosed).symm.trans hexhausted
  rw [hclosed, hexhausted] at hstop
  simp only [Bool.not_false, Bool.and_self, Bool.true_and, decide_eq_true_eq, Nat.not_lt] at hstop
  exact Nat.le_antisymm h.bound hstop

/-- The loop does nothing more. -/
theorem Sound.filled {items : List α} {exhausted : Bool}
    (h : Sound maxWorkers source { s with items := items, exhausted := exhausted })
    (hbusy : Busy maxWorkers { s with items := items, exhausted := exhausted }) :
    Filled maxWorkers source s (true, { s with items := items, exhausted := exhausted }) :=
  ⟨h, hbusy, rfl, rfl, rfl, rfl, fun hfalse => by cases hfalse⟩

/-- **Filling** keeps the books and leaves no slot free, or the executor refuses. -/
theorem fillFrom_spec (items : List α) : ∀ {s : Session α β ε}, Sound maxWorkers source { s with items := items } →
    Filled maxWorkers source s (fillFrom maxWorkers s items) := by
  induction items with
  | nil =>
      intro s h
      unfold fillFrom
      split
      · have hsound : Sound maxWorkers source { s with items := [], exhausted := true } :=
          { h with exhausted := fun _ => rfl, closed := fun _ => rfl }
        exact hsound.filled fun _ hexhausted => by cases hexhausted
      · next hfree => exact h.filled (h.busy hfree)
  | cons item items ih =>
      intro s h
      unfold fillFrom
      split
      · next hfree =>
          simp only [Bool.and_eq_true, Bool.not_eq_true', decide_eq_true_eq] at hfree
          split
          · next haccepting =>
              have hsubmit := h.submit hfree.1.1 hfree.1.2 hfree.2 haccepting
              have hrest := ih (s := { s with
                inflight := s.inflight + 1
                submitted := s.submitted ++ [item]
                running := s.running ++ [item] }) hsubmit
              exact { hrest with }
          · next haccepting =>
              obtain ⟨gone, hsource, hgone⟩ := h.submitted
              refine ⟨?_, fun haccepts => absurd haccepts haccepting, rfl, rfl, rfl, rfl,
                fun _ => Bool.eq_false_iff.mpr haccepting⟩
              constructor
              case submitted =>
                refine ⟨gone ++ [item], ?_, fun hclosed => congrArg (· ++ [item]) (hgone hclosed)⟩
                rw [hsource]
                simp
              case once => exact h.once
              case count => exact h.count
              case bound => exact h.bound
              case exhausted =>
                intro hexhausted
                cases h.exhausted hexhausted
              case closed => exact h.closed
              case refused => exact fun haccepts => absurd haccepts haccepting
      · next hfree => exact h.filled (h.busy hfree)

theorem Sound.fillAvailableSlots (h : Sound maxWorkers source s) :
    Filled maxWorkers source s (fillAvailableSlots maxWorkers s) :=
  fillFrom_spec s.items h

theorem Sound.close (h : Sound maxWorkers source s) : Sound maxWorkers source (close s) := by
  unfold UnorderedResults.close
  split
  · exact h
  · obtain ⟨gone, hsource, -⟩ := h.submitted
    have hsubmitted : source = s.submitted ++ (gone ++ s.items) ++ [] := by
      rw [hsource, List.append_nil, List.append_assoc]
    exact { h with
      submitted := ⟨gone ++ s.items, hsubmitted, fun hclosed => by cases hclosed⟩
      exhausted := fun _ => rfl
      closed := fun _ => rfl }

theorem Sound.pull (h : Sound maxWorkers source s) {future : α × Except ε β} {completed : List (α × Except ε β)}
    (hfuture : s.completed = future :: completed) : Sound maxWorkers source (pull s future completed) := by
  constructor
  case submitted => exact h.submitted
  case once =>
    refine h.once.trans (List.Perm.of_eq ?_)
    rw [hfuture]
    simp [UnorderedResults.pull]
  case count =>
    have hcount := h.count
    rw [hfuture, List.length_cons] at hcount
    show s.inflight - 1 = completed.length + s.running.length
    omega
  case bound => exact Nat.le_trans (Nat.sub_le _ _) h.bound
  case exhausted => exact h.exhausted
  case closed => exact h.closed
  case refused => exact h.refused

end Fill

/-! ## What a call of `next` does -/

section Next

variable {maxWorkers : ℕ} {source : List α} {s s' : Session α β ε}

/-- The ways in which `next` ends. -/
inductive Next (maxWorkers : ℕ) (s : Session α β ε) : Answer β ε → Session α β ε → Prop where
  | stop (hend : s.closed = true ∨ s.inflight = 0 ∧ s.exhausted = true) : Next maxWorkers s .stop s
  | timeout (hempty : s.completed = []) : Next maxWorkers s .timeout s
  | raised {item : α} {error : ε} {completed : List (α × Except ε β)} (hopen : s.closed = false)
      (hfuture : s.completed = (item, .error error) :: completed) :
      Next maxWorkers s (.raised error) (close (pull s (item, .error error) completed))
  | refused {item : α} {value : β} {completed : List (α × Except ε β)} (hopen : s.closed = false)
      (hfuture : s.completed = (item, .ok value) :: completed)
      (hfill : (fillAvailableSlots maxWorkers (pull s (item, .ok value) completed)).1 = false) :
      Next maxWorkers s .refused (fillAvailableSlots maxWorkers (pull s (item, .ok value) completed)).2
  | result {item : α} {value : β} {completed : List (α × Except ε β)} (hopen : s.closed = false)
      (hfuture : s.completed = (item, .ok value) :: completed)
      (hfill : (fillAvailableSlots maxWorkers (pull s (item, .ok value) completed)).1 = true) :
      Next maxWorkers s (.result value) (fillAvailableSlots maxWorkers (pull s (item, .ok value) completed)).2
  | last {item : α} {value : β} {completed : List (α × Except ε β)} (hopen : s.closed = false)
      (hfuture : s.completed = (item, .ok value) :: completed)
      (hfill : (fillAvailableSlots maxWorkers (pull s (item, .ok value) completed)).1 = true)
      (hend : (fillAvailableSlots maxWorkers (pull s (item, .ok value) completed)).2.inflight = 0 ∧
        (fillAvailableSlots maxWorkers (pull s (item, .ok value) completed)).2.exhausted = true) :
      Next maxWorkers s (.result value) (close (fillAvailableSlots maxWorkers (pull s (item, .ok value) completed)).2)

theorem next_cases (maxWorkers : ℕ) (s : Session α β ε) :
    Next maxWorkers s (next maxWorkers s).1 (next maxWorkers s).2 := by
  unfold next
  split
  · next hend =>
      simp only [Bool.or_eq_true, Bool.and_eq_true, beq_iff_eq] at hend
      exact .stop hend
  · next hend =>
      have hopen : s.closed = false := by
        cases hclosed : s.closed with
        | false => rfl
        | true => exact absurd (by rw [hclosed, Bool.true_or]) hend
      split
      · next hempty => exact .timeout hempty
      · next hfuture => exact .raised hopen hfuture
      · next item value completed hfuture =>
          cases hfill : fillAvailableSlots maxWorkers (pull s (item, .ok value) completed) with
          | mk accepted t =>
              cases accepted with
              | false =>
                  have h := Next.refused hopen hfuture (congrArg Prod.fst hfill)
                  rw [hfill] at h
                  exact h
              | true =>
                  dsimp only
                  split
                  · next hdone =>
                      simp only [Bool.and_eq_true, beq_iff_eq] at hdone
                      have h := Next.last hopen hfuture (congrArg Prod.fst hfill) (by rw [hfill]; exact hdone)
                      rw [hfill] at h
                      exact h
                  · have h := Next.result hopen hfuture (congrArg Prod.fst hfill)
                    rw [hfill] at h
                    exact h

end Next

/-! ## Runs -/

section Runs

variable {maxWorkers : ℕ} {source : List α} {s s' : Session α β ε} {a : Act α β ε}

/-- The books of a session: nothing is lost, no slot is free, and a failure that the caller has is the end. -/
structure Books (maxWorkers : ℕ) (source : List α) (s : Session α β ε) : Prop extends Sound maxWorkers source s where
  busy : Busy maxWorkers s
  failed : ∀ item error, (item, .error error) ∈ s.taken → s.closed = true

theorem closed_close (s : Session α β ε) : (close s).closed = true := by
  unfold close
  split
  · next h => exact h
  · rfl

theorem taken_close (s : Session α β ε) : (close s).taken = s.taken := by
  unfold close
  split <;> rfl

theorem accepting_close (s : Session α β ε) : (close s).accepting = s.accepting := by
  unfold close
  split <;> rfl

theorem submitted_close (s : Session α β ε) : (close s).submitted = s.submitted := by
  unfold close
  split <;> rfl

theorem inflight_close (s : Session α β ε) : (close s).inflight = s.inflight := by
  unfold close
  split <;> rfl

theorem completed_close (s : Session α β ε) : (close s).completed = s.completed := by
  unfold close
  split <;> rfl

theorem busy_of_closed (h : Sound maxWorkers source s) (hclosed : s.closed = true) : Busy maxWorkers s := by
  intro _ hexhausted
  rw [h.closed hclosed] at hexhausted
  cases hexhausted

theorem Books.close (h : Books maxWorkers source s) : Books maxWorkers source (close s) :=
  ⟨h.toSound.close, busy_of_closed h.toSound.close (closed_close s), fun _ _ _ => closed_close s⟩

/-- No call of `next` changes a future: it goes from the queue to the caller, or it stays. -/
theorem Books.futures (h : Books maxWorkers source s) {answer : Answer β ε} (hnext : Next maxWorkers s answer s') :
    s'.taken ++ s'.completed = s.taken ++ s.completed := by
  have hpull : ∀ future completed, s.completed = future :: completed →
      (pull s future completed).taken ++ (pull s future completed).completed = s.taken ++ s.completed := by
    intro future completed hfuture
    rw [hfuture]
    simp [pull]
  cases hnext with
  | stop hend => rfl
  | timeout hempty => rfl
  | raised hopen hfuture =>
      rw [taken_close, completed_close]
      exact hpull _ _ hfuture
  | refused hopen hfuture hfill =>
      have hfilled := (h.toSound.pull hfuture).fillAvailableSlots
      rw [hfilled.taken, hfilled.completed]
      exact hpull _ _ hfuture
  | result hopen hfuture hfill =>
      have hfilled := (h.toSound.pull hfuture).fillAvailableSlots
      rw [hfilled.taken, hfilled.completed]
      exact hpull _ _ hfuture
  | last hopen hfuture hfill hend =>
      have hfilled := (h.toSound.pull hfuture).fillAvailableSlots
      rw [taken_close, completed_close, hfilled.taken, hfilled.completed]
      exact hpull _ _ hfuture

/-- What the caller has after an answer. -/
def Takes (before after : List (α × Except ε β)) : Answer β ε → Prop
  | .result value => ∃ item, after = before ++ [(item, .ok value)]
  | .raised error => ∃ item, after = before ++ [(item, .error error)]
  | .refused => ∃ future, after = before ++ [future]
  | .stop => after = before
  | .timeout => after = before

theorem Takes.subset {before after : List (α × Except ε β)} {answer : Answer β ε}
    (h : Takes before after answer) : before ⊆ after := by
  cases answer with
  | result value =>
      obtain ⟨item, rfl⟩ := h
      exact List.subset_append_left _ _
  | raised error =>
      obtain ⟨item, rfl⟩ := h
      exact List.subset_append_left _ _
  | refused =>
      obtain ⟨future, rfl⟩ := h
      exact List.subset_append_left _ _
  | stop =>
      obtain rfl : after = before := h
      exact List.Subset.refl _
  | timeout =>
      obtain rfl : after = before := h
      exact List.Subset.refl _

theorem Books.takes (h : Books maxWorkers source s) {answer : Answer β ε} (hnext : Next maxWorkers s answer s') :
    Takes s.taken s'.taken answer := by
  cases hnext with
  | stop hend => rfl
  | timeout hempty => rfl
  | raised hopen hfuture => exact ⟨_, taken_close _⟩
  | refused hopen hfuture hfill => exact ⟨_, (h.toSound.pull hfuture).fillAvailableSlots.taken⟩
  | result hopen hfuture hfill => exact ⟨_, (h.toSound.pull hfuture).fillAvailableSlots.taken⟩
  | last hopen hfuture hfill hend =>
      exact ⟨_, (taken_close _).trans (h.toSound.pull hfuture).fillAvailableSlots.taken⟩

/-- What the caller has are items of the source, each once. -/
theorem Books.subperm (h : Books maxWorkers source s) : (s.taken.map Prod.fst).Subperm source := by
  obtain ⟨gone, hsource, -⟩ := h.submitted
  have htaken : (s.taken.map Prod.fst).Subperm s.submitted := by
    refine List.Subperm.trans ?_ h.once.symm.subperm
    rw [List.append_assoc]
    exact (List.sublist_append_left _ _).subperm
  have hsubmitted : s.submitted.Subperm source := by
    rw [hsource, List.append_assoc]
    exact (List.sublist_append_left _ _).subperm
  exact htaken.trans hsubmitted

/-- The books after a result was taken and the free slot filled. -/
theorem Books.filled (h : Books maxWorkers source s) {item : α} {value : β} {completed : List (α × Except ε β)}
    (hopen : s.closed = false) (hfuture : s.completed = (item, .ok value) :: completed) :
    Books maxWorkers source (fillAvailableSlots maxWorkers (pull s (item, .ok value) completed)).2 := by
  have hfilled := (h.toSound.pull hfuture).fillAvailableSlots
  refine ⟨hfilled.sound, hfilled.busy, fun item' error hmem => ?_⟩
  rw [hfilled.taken] at hmem
  rcases List.mem_append.mp hmem with hold | hnew
  · exact absurd (h.failed item' error hold) (Bool.eq_false_iff.mp hopen)
  · cases List.mem_singleton.mp hnew

theorem Books.next (h : Books maxWorkers source s) {answer : Answer β ε} (hnext : Next maxWorkers s answer s') :
    Books maxWorkers source s' := by
  cases hnext with
  | stop hend => exact h
  | timeout hempty => exact h
  | raised hopen hfuture =>
      have hsound := (h.toSound.pull hfuture).close
      exact ⟨hsound, busy_of_closed hsound (closed_close _), fun _ _ _ => closed_close _⟩
  | refused hopen hfuture hfill => exact h.filled hopen hfuture
  | result hopen hfuture hfill => exact h.filled hopen hfuture
  | last hopen hfuture hfill hend => exact (h.filled hopen hfuture).close

/-- A worker ends: its item goes to the queue. -/
theorem Books.finish (h : Books maxWorkers source s) {i : ℕ} {item : α} (hi : s.running[i]? = some item)
    (outcome : Except ε β) :
    Books maxWorkers source
      { s with running := s.running.eraseIdx i, completed := s.completed ++ [(item, outcome)] } := by
  obtain ⟨hlt, rfl⟩ := List.getElem?_eq_some_iff.mp hi
  have hrunning : s.running.Perm (s.running[i] :: s.running.eraseIdx i) := (List.getElem_cons_eraseIdx_perm hlt).symm
  refine ⟨?_, h.busy, h.failed⟩
  constructor
  case submitted => exact h.submitted
  case once =>
    refine h.once.trans ((hrunning.append_left _).trans (List.Perm.of_eq ?_))
    simp
  case count =>
    show s.inflight = (s.completed ++ [(s.running[i], outcome)]).length + (s.running.eraseIdx i).length
    have hlength := hrunning.length_eq
    rw [List.length_cons] at hlength
    rw [List.length_append, List.length_singleton, h.count]
    omega
  case bound => exact h.bound
  case exhausted => exact h.exhausted
  case closed => exact h.closed
  case refused => exact h.refused

/-- **No step breaks the books.** -/
theorem books_step (h : Books maxWorkers source s) (hstep : step maxWorkers s a = some s') :
    Books maxWorkers source s' := by
  cases a with
  | finish i work =>
      obtain ⟨item, hi, rfl⟩ := Option.map_eq_some_iff.mp hstep
      exact h.finish hi (work item)
  | shutdown =>
      obtain rfl := Option.some.inj hstep
      have hshut : ¬ (false = true) := Bool.false_ne_true
      exact { h with
        refused := fun haccepting => absurd haccepting hshut
        busy := fun haccepting => absurd haccepting hshut }
  | next =>
      obtain rfl := Option.some.inj hstep
      exact h.next (next_cases maxWorkers s)
  | close =>
      obtain rfl := Option.some.inj hstep
      exact h.close

theorem filled_start {accepting : Bool} (hstart : start maxWorkers source accepting = some s) :
    Filled maxWorkers source (fresh source accepting) (true, s) := by
  have hsound : Sound maxWorkers source (fresh source accepting : Session α β ε) :=
    ⟨⟨[], rfl, fun _ => rfl⟩, List.Perm.refl _, rfl, Nat.zero_le _, fun h => absurd h Bool.false_ne_true,
      fun h => absurd h Bool.false_ne_true, fun _ => rfl⟩
  have hfilled := hsound.fillAvailableSlots
  unfold start at hstart
  split at hstart
  · cases hstart
  · next heq =>
      obtain rfl := Option.some.inj hstart
      rw [heq] at hfilled
      exact hfilled

theorem books_start {accepting : Bool} (hstart : start maxWorkers source accepting = some s) :
    Books maxWorkers source s := by
  have hfilled := filled_start hstart
  refine ⟨hfilled.sound, hfilled.busy, fun _ _ hmem => ?_⟩
  rw [hfilled.taken] at hmem
  cases hmem

theorem books_of_run {accepting : Bool} {s₀ : Session α β ε} {acts : List (Act α β ε)}
    (hstart : start maxWorkers source accepting = some s₀) (hrun : exec (step maxWorkers) s₀ acts = some s) :
    Books maxWorkers source s :=
  exec_invariant_of_step (fun _ _ _ h hstep => books_step h hstep) acts s₀ s (books_start hstart) hrun

/-! ## A small run -/

/-- Two workers take three items, and the second ends first. -/
def threeItems : List (Act ℕ ℕ String) :=
  [.finish 1 fun n => .ok (n * n), .next, .finish 0 fun n => .ok (n * n), .finish 0 fun n => .ok (n * n), .next, .next]

/-- The session after a run, with a fact that evaluates. -/
theorem exists_session (source : List ℕ) (acts : List (Act ℕ ℕ String)) (p : Session ℕ ℕ String → Bool)
    (h : ((start 2 source true).bind fun s₀ => exec (step 2) s₀ acts).any p = true) :
    ∃ s₀ s, start 2 source true = some s₀ ∧ exec (step 2) s₀ acts = some s ∧ p s = true := by
  obtain ⟨s, hrun, hp⟩ := (Option.any_eq_true _ _).mp h
  obtain ⟨s₀, hstart, hrun⟩ := Option.bind_eq_some_iff.mp hrun
  exact ⟨s₀, s, hstart, hrun, hp⟩

/-! ## What holds of every run -/

/-- **Exactly once**: the items are submitted in their order; each that is submitted runs, waits in the queue or was
taken, once; and while the iterator and the executor are open no item is passed over and no slot is free. -/
theorem exactlyOnce_of_run {accepting : Bool} {s₀ : Session α β ε} {acts : List (Act α β ε)}
    (hstart : start maxWorkers source accepting = some s₀) (hrun : exec (step maxWorkers) s₀ acts = some s) :
    s.submitted.Perm (s.taken.map Prod.fst ++ s.completed.map Prod.fst ++ s.running) ∧
      s.completed.length + s.running.length ≤ maxInflight maxWorkers ∧
      ∃ gone, source = s.submitted ++ gone ++ s.items ∧
        (s.closed = false → s.accepting = true →
          gone = [] ∧ (s.items = [] ∨ s.completed.length + s.running.length = maxInflight maxWorkers)) := by
  have h := books_of_run hstart hrun
  obtain ⟨gone, hsource, hgone⟩ := h.submitted
  rw [← h.count]
  refine ⟨h.once, h.bound, gone, hsource, fun hopen haccepting => ⟨(hgone hopen).trans (h.refused haccepting), ?_⟩⟩
  cases hexhausted : s.exhausted with
  | true => exact Or.inl (h.exhausted hexhausted)
  | false => exact Or.inr (h.busy haccepting hexhausted)

theorem exactlyOnce_of_run_threeItems : ∃ s₀ s, start 2 [5, 6, 7] true = some s₀ ∧
    exec (step 2) s₀ (threeItems.take 2) = some s ∧
      s.submitted.Perm (s.taken.map Prod.fst ++ s.completed.map Prod.fst ++ s.running) ∧
      s.completed.length + s.running.length ≤ 2 ∧
      ∃ gone, [5, 6, 7] = s.submitted ++ gone ++ s.items ∧
        (s.closed = false → s.accepting = true →
          gone = [] ∧ (s.items = [] ∨ s.completed.length + s.running.length = 2)) := by
  obtain ⟨s₀, s, hstart, hrun, -⟩ := exists_session [5, 6, 7] (threeItems.take 2) (fun _ => true) (by decide +kernel)
  exact ⟨s₀, s, hstart, hrun, exactlyOnce_of_run hstart hrun⟩

/-- A closed iterator stays as it is, but for what its workers do. -/
theorem closed_step (hclosed : s.closed = true) (hstep : step maxWorkers s a = some s') :
    s'.closed = true ∧ s'.submitted = s.submitted ∧ s'.taken = s.taken := by
  cases a with
  | finish i work =>
      obtain ⟨item, hi, rfl⟩ := Option.map_eq_some_iff.mp hstep
      exact ⟨hclosed, rfl, rfl⟩
  | shutdown =>
      obtain rfl := Option.some.inj hstep
      exact ⟨hclosed, rfl, rfl⟩
  | next =>
      obtain rfl := Option.some.inj hstep
      have hstop : next maxWorkers s = (.stop, s) := by
        unfold next
        rw [hclosed, Bool.true_or, if_pos rfl]
      rw [hstop]
      exact ⟨hclosed, rfl, rfl⟩
  | close =>
      obtain rfl := Option.some.inj hstep
      exact ⟨closed_close s, submitted_close s, taken_close s⟩

/-- **A failure is the end**: once the caller has it, no item is submitted, no future is taken, and `next` only says
that there are no more. -/
theorem quiet_of_failure {accepting : Bool} {s₀ : Session α β ε} {acts acts' : List (Act α β ε)} {item : α} {error : ε}
    (hstart : start maxWorkers source accepting = some s₀) (hrun : exec (step maxWorkers) s₀ acts = some s)
    (hfailed : (item, .error error) ∈ s.taken) (hlater : exec (step maxWorkers) s acts' = some s') :
    s'.submitted = s.submitted ∧ s'.taken = s.taken ∧ next maxWorkers s' = (.stop, s') := by
  have hclosed : s.closed = true := (books_of_run hstart hrun).failed item error hfailed
  have hquiet : s'.closed = true ∧ s'.submitted = s.submitted ∧ s'.taken = s.taken := by
    refine exec_invariant_of_step (I := fun t => t.closed = true ∧ t.submitted = s.submitted ∧ t.taken = s.taken)
      ?_ acts' s s' ⟨hclosed, rfl, rfl⟩ hlater
    intro t b t' ht hstep
    obtain ⟨hclosed', hsubmitted, htaken⟩ := closed_step ht.1 hstep
    exact ⟨hclosed', hsubmitted.trans ht.2.1, htaken.trans ht.2.2⟩
  refine ⟨hquiet.2.1, hquiet.2.2, ?_⟩
  unfold next
  rw [hquiet.1, Bool.true_or, if_pos rfl]

/-- Without an interruption only the end or a failure closes the iterator. -/
structure Uninterrupted (source : List α) (s : Session α β ε) : Prop where
  accepting : s.accepting = true
  closed : s.closed = true →
    s.inflight = 0 ∧ s.submitted = source ∨ ∃ item error, (item, Except.error error) ∈ s.taken

/-- When the source is empty all its items are submitted. -/
theorem Books.submitted_eq (h : Books maxWorkers source s) (hopen : s.closed = false) (haccepting : s.accepting = true)
    (hexhausted : s.exhausted = true) : s.submitted = source := by
  obtain ⟨gone, hsource, hgone⟩ := h.submitted
  rw [hsource, hgone hopen, h.refused haccepting, h.exhausted hexhausted, List.append_nil, List.append_nil]

theorem Uninterrupted.next (h : Uninterrupted source s) (hbooks : Books maxWorkers source s) {answer : Answer β ε}
    (hnext : Next maxWorkers s answer s') : Uninterrupted source s' := by
  cases hnext with
  | stop hend => exact h
  | timeout hempty => exact h
  | @raised item error completed hopen hfuture =>
      refine ⟨(accepting_close _).trans h.accepting, fun _ => Or.inr ⟨item, error, ?_⟩⟩
      rw [taken_close]
      exact List.mem_append_right _ (List.mem_singleton.mpr rfl)
  | refused hopen hfuture hfill =>
      have haccepts := (hbooks.toSound.pull hfuture).fillAvailableSlots.accepts hfill
      exact absurd (haccepts.symm.trans h.accepting) Bool.false_ne_true
  | result hopen hfuture hfill =>
      have hfilled := (hbooks.toSound.pull hfuture).fillAvailableSlots
      refine ⟨hfilled.accepting.trans h.accepting, fun hclosed => ?_⟩
      exact absurd (hopen.symm.trans (hfilled.closed.symm.trans hclosed)) Bool.false_ne_true
  | last hopen hfuture hfill hend =>
      have hfilled := (hbooks.toSound.pull hfuture).fillAvailableSlots
      have haccepting := hfilled.accepting.trans h.accepting
      refine ⟨(accepting_close _).trans haccepting, fun _ => Or.inl ⟨?_, ?_⟩⟩
      · exact (inflight_close _).trans hend.1
      · rw [submitted_close]
        exact (hbooks.filled hopen hfuture).submitted_eq (hfilled.closed.trans hopen) haccepting hend.2

theorem uninterrupted_step (h : Uninterrupted source s) (hbooks : Books maxWorkers source s)
    (hlive : a ≠ .shutdown ∧ a ≠ .close) (hstep : step maxWorkers s a = some s') : Uninterrupted source s' := by
  cases a with
  | finish i work =>
      obtain ⟨item, hi, rfl⟩ := Option.map_eq_some_iff.mp hstep
      exact ⟨h.accepting, h.closed⟩
  | shutdown => exact absurd rfl hlive.1
  | next =>
      obtain rfl := Option.some.inj hstep
      exact h.next hbooks (next_cases maxWorkers s)
  | close => exact absurd rfl hlive.2

theorem uninterrupted_start (hstart : start maxWorkers source true = some s) : Uninterrupted source s := by
  have hfilled := filled_start hstart
  exact ⟨hfilled.accepting, fun hclosed => absurd (hfilled.closed.symm.trans hclosed) Bool.false_ne_true⟩

/-- Nothing is out when `next` has no more, or the caller has a failure. -/
theorem Uninterrupted.complete (h : Uninterrupted source s) (hbooks : Books maxWorkers source s)
    (hstop : s.closed = true ∨ s.inflight = 0 ∧ s.exhausted = true)
    (hok : ∀ item error, (item, Except.error error) ∉ s.taken) :
    (s.taken.map Prod.fst).Perm source ∧ s.completed = [] ∧ s.running = [] := by
  have hdone : s.inflight = 0 ∧ s.submitted = source := by
    cases hclosed : s.closed with
    | true =>
        rcases h.closed hclosed with hdone | ⟨item, error, hfailed⟩
        · exact hdone
        · exact absurd hfailed (hok item error)
    | false =>
        rcases hstop with hend | hend
        · exact absurd (hclosed.symm.trans hend) Bool.false_ne_true
        · exact ⟨hend.1, hbooks.submitted_eq hclosed h.accepting hend.2⟩
  have hcount := hbooks.count
  rw [hdone.1] at hcount
  have hcompleted : s.completed = [] := List.length_eq_zero_iff.mp (by omega)
  have hrunning : s.running = [] := List.length_eq_zero_iff.mp (by omega)
  refine ⟨?_, hcompleted, hrunning⟩
  have honce := hbooks.once
  rw [hcompleted, hrunning, hdone.2, List.map_nil, List.append_nil, List.append_nil] at honce
  exact honce.symm

/-- **Complete at the end**: when `next` has no more, and nothing interrupted the iterator, then every item was run
and taken, once, or the caller was given a failure. -/
theorem complete_of_stop {s₀ : Session α β ε} {acts : List (Act α β ε)}
    (hstart : start maxWorkers source true = some s₀) (hlive : ∀ a ∈ acts, a ≠ .shutdown ∧ a ≠ .close)
    (hrun : exec (step maxWorkers) s₀ acts = some s) (hstop : (next maxWorkers s).1 = .stop) :
    (s.taken.map Prod.fst).Perm source ∧ s.completed = [] ∧ s.running = [] ∨
      ∃ item error, (item, Except.error error) ∈ s.taken := by
  have hbooks := books_of_run hstart hrun
  have h : Books maxWorkers source s ∧ Uninterrupted source s :=
    exec_invariant (I := fun s => Books maxWorkers source s ∧ Uninterrupted source s)
      (fun _ _ _ h hlive hstep => ⟨books_step h.1 hstep, uninterrupted_step h.2 h.1 hlive hstep⟩) acts s₀ s
      ⟨books_start hstart, uninterrupted_start hstart⟩ (respects_of_forall hlive s₀) hrun
  have hnext := next_cases maxWorkers s
  rw [hstop] at hnext
  generalize (next maxWorkers s).2 = t at hnext
  cases hnext with
  | stop hend =>
      by_cases hfailed : ∃ item error, (item, Except.error error) ∈ s.taken
      · exact Or.inr hfailed
      · exact Or.inl (h.2.complete h.1 hend fun item error hmem => hfailed ⟨item, error, hmem⟩)

theorem complete_of_stop_threeItems : ∃ s₀ s, start 2 [5, 6, 7] true = some s₀ ∧
    exec (step 2) s₀ threeItems = some s ∧ ((s.taken.map Prod.fst).Perm [5, 6, 7] ∧ s.completed = [] ∧
      s.running = [] ∨ ∃ item error, (item, Except.error error) ∈ s.taken) := by
  obtain ⟨s₀, s, hstart, hrun, hstop⟩ := exists_session [5, 6, 7] threeItems
    (fun s => (next 2 s).1.isStop) (by decide +kernel)
  refine ⟨s₀, s, hstart, hrun, complete_of_stop hstart ?_ hrun ?_⟩
  · simp [threeItems]
  · cases hanswer : (next 2 s).1 with
    | stop => rfl
    | _ =>
        rw [hanswer] at hstop
        cases hstop

end Runs

end UnorderedResults
