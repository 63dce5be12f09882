/-
# The ingest write stage (`sync_timedb_ingest_write_stage.py`)

Parse threads put write payloads on one bounded queue and wait until their payload is done; write workers take
payloads from the queue and execute them; `stop_ingest_write_stage` sets a flag, puts one sentinel for each
worker on the queue and joins the workers.

* `Stage` has the globals of the module (the flag, the queue, whether the stage is started), what has become
  of each payload, and where each worker, each submitter and the stop call are;
* a worker leaves at the flag, at a sentinel, when the queue is gone, or by an exception outside of the
  execution of a payload;
* `put` lists the payloads that were put on the queue;
* `Sound` says of a step in which the last worker leaves that the queue has no payload then, and of a payload
  that is put on the queue that some worker has not left.

The main result is `payloads_done`: after a run of sound steps in which every worker has left, every payload
that was put on the queue is done, and so is the payload of every submitter that waits.
-/
import Mathlib.Data.Fintype.Basic
import Mathlib.Logic.Function.Basic
import HpcPerfStats.Transition

set_option linter.unusedSectionVars false

namespace WriteStage

open Transition

/-! ## Payloads, workers, submitters -/

/-- A payload is known by its number. -/
abbrev Payload := ℕ

/-- How the `done` event of a payload was set: after its execution (with or without a database error), or
because the stage was shutting down. -/
inductive Ending where
  | executed
  | refused
  deriving DecidableEq, Repr

/-- Where a worker is in `_write_worker_main`. -/
inductive WorkerPc where
  /-- before the loop -/
  | starting
  /-- next: `_SHUTDOWN.is_set()` -/
  | checking
  /-- next: `q = _WRITE_QUEUE` -/
  | reading
  /-- next: `q.get(timeout=1.0)` -/
  | getting
  /-- next: `_execute_write_payload` -/
  | executing (p : Payload)
  /-- after a payload: the connection may be opened anew -/
  | recycling
  | left
  deriving DecidableEq, Repr

/-- Where a submitter is in `submit_ingest_write_and_wait`. -/
inductive SubmitPc where
  | idle
  /-- next: whether the stage is started -/
  | entering (p : Payload)
  /-- the stage is not started; next: execute the payload itself -/
  | inlined (p : Payload)
  /-- next: `_SHUTDOWN.is_set()` -/
  | looping (p : Payload)
  /-- next: read `_WRITE_QUEUE` -/
  | putting (p : Payload)
  /-- inside `put`, with at most a second to wait for a free slot -/
  | blocked (p : Payload)
  /-- next: `payload.done.wait()` returns -/
  | waiting (p : Payload)
  deriving DecidableEq, Repr

/-- Where the stop call is. -/
inductive StopPc where
  | ready
  /-- next: put the next of so many sentinels on the queue -/
  | sentinels (left : ℕ)
  /-- next: join the worker of that number -/
  | joining (worker : ℕ)
  /-- next: `_WRITE_QUEUE = None` -/
  | dropping
  /-- next: `_STARTED = False` -/
  | ending
  /-- next: `_SHUTDOWN.clear()` -/
  | clearing
  | returned
  deriving DecidableEq, Repr

/-- The stage, with `n` workers. -/
structure Stage (n : ℕ) (S : Type*) where
  started : Bool
  shutdown : Bool
  /-- `_WRITE_QUEUE is not None` -/
  hasQueue : Bool
  items : List (Option Payload)
  done : Payload → Option Ending
  nextPayload : Payload
  worker : Fin n → WorkerPc
  submitter : S → SubmitPc
  stop : StopPc
  /-- the payloads that were put on the queue -/
  put : List Payload

/-- Steps of the threads.  `dies` is an exception outside of the execution of a payload, `timedOut` a join that
gives up. -/
inductive Action (n : ℕ) (S : Type*) where
  | submit (t : S)
  | next (t : S)
  | work (w : Fin n) (dies : Bool)
  | stop
  | stopNext (timedOut : Bool)
  deriving DecidableEq

namespace Stage

variable {n : ℕ} {S : Type*} [DecidableEq S]

/-- `start_ingest_write_stage` has returned. -/
def start : Stage n S :=
  ⟨true, false, true, [], fun _ => none, 0, fun _ => .starting, fun _ => .idle, .ready, []⟩

def setWorker (s : Stage n S) (w : Fin n) (c : WorkerPc) : Stage n S :=
  { s with worker := Function.update s.worker w c }

def setSubmitter (s : Stage n S) (t : S) (c : SubmitPc) : Stage n S :=
  { s with submitter := Function.update s.submitter t c }

/-- `payload.done.set()`. -/
def finish (s : Stage n S) (p : Payload) (e : Ending) : Stage n S :=
  { s with done := Function.update s.done p (some e) }

/-- The next step of a worker at the point `c`. -/
def workerNext (s : Stage n S) (w : Fin n) (dies : Bool) : WorkerPc → Option (Stage n S)
  | .starting => some (s.setWorker w (if dies then .left else .checking))
  | .checking => some (s.setWorker w (if s.shutdown then .left else .reading))
  | .reading => some (s.setWorker w (if s.hasQueue then .getting else .left))
  | .getting =>
      match s.items with
      | [] => some (s.setWorker w .checking)
      | none :: rest => some ({ s with items := rest }.setWorker w .left)
      | some p :: rest => some ({ s with items := rest }.setWorker w (.executing p))
  | .executing p => some ((s.finish p .executed).setWorker w .recycling)
  | .recycling => some (s.setWorker w (if dies then .left else .checking))
  | .left => none

/-- The next step of a submitter at the point `c`; the queue has `cap` slots. -/
def submitterNext (cap : ℕ) (s : Stage n S) (t : S) : SubmitPc → Option (Stage n S)
  | .idle => none
  | .entering p =>
      some (s.setSubmitter t (if s.started && s.hasQueue then .looping p else .inlined p))
  | .inlined p => some ((s.finish p .executed).setSubmitter t .idle)
  | .looping p =>
      if s.shutdown then some ((s.finish p .refused).setSubmitter t .idle)
      else some (s.setSubmitter t (.putting p))
  | .putting p =>
      -- the attribute error of a queue that is gone goes to the caller
      some (s.setSubmitter t (if s.hasQueue then .blocked p else .idle))
  | .blocked p =>
      if s.items.length < cap then
        some ({ s with items := s.items ++ [some p], put := p :: s.put }.setSubmitter t (.waiting p))
      else some (s.setSubmitter t (.looping p))
  | .waiting p => if (s.done p).isSome then some (s.setSubmitter t .idle) else none

/-- The next step of the stop call at the point `c`. -/
def stopStep (cap : ℕ) (s : Stage n S) (timedOut : Bool) : StopPc → Option (Stage n S)
  | .ready => none
  | .sentinels 0 => some { s with stop := .joining 0 }
  | .sentinels (k + 1) =>
      if s.hasQueue ∧ s.items.length < cap then
        some { s with items := s.items ++ [none], stop := .sentinels k }
      else some { s with stop := .joining 0 }
  | .joining i =>
      if h : i < n then
        if s.worker ⟨i, h⟩ = .left ∨ timedOut then some { s with stop := .joining (i + 1) } else none
      else some { s with stop := .dropping }
  | .dropping => some { s with hasQueue := false, stop := .ending }
  | .ending => some { s with started := false, stop := .clearing }
  | .clearing => some { s with shutdown := false, stop := .returned }
  | .returned => none

/-- One step of the system. -/
def step (cap : ℕ) (s : Stage n S) : Action n S → Option (Stage n S)
  | .submit t =>
      if s.submitter t = .idle then
        some ({ s with nextPayload := s.nextPayload + 1 }.setSubmitter t (.entering s.nextPayload))
      else none
  | .next t => s.submitterNext cap t (s.submitter t)
  | .work w dies => s.workerNext w dies (s.worker w)
  | .stop =>
      if s.stop = .ready ∨ s.stop = .returned then
        if s.started then some { s with shutdown := true, stop := .sentinels n }
        else some { s with stop := .returned }
      else none
  | .stopNext timedOut => s.stopStep cap timedOut s.stop

/-! ## The condition -/

/-- The worker leaves with its next step. -/
def leaves (s : Stage n S) (w : Fin n) (dies : Bool) : Bool :=
  match s.worker w with
  | .starting => dies
  | .checking => s.shutdown
  | .reading => !s.hasQueue
  | .getting => s.items.head? = some none
  | .recycling => dies
  | _ => false

/-- Every worker but this one has left. -/
def Last (s : Stage n S) (w : Fin n) : Prop :=
  ∀ v, v ≠ w → s.worker v = .left

instance (s : Stage n S) (w : Fin n) : Decidable (s.Last w) :=
  inferInstanceAs (Decidable (∀ v, v ≠ w → s.worker v = .left))

/-- Whether the step leaves no payload to nobody. -/
def sound (cap : ℕ) (s : Stage n S) : Action n S → Bool
  | .work w dies => !(s.leaves w dies && decide (s.Last w)) || s.items.all Option.isNone
  | .next t =>
      match s.submitter t with
      | .blocked _ => !decide (s.items.length < cap) || !decide (∀ w, s.worker w = .left)
      | _ => true
  | _ => true

def Sound (cap : ℕ) (s : Stage n S) (a : Action n S) : Prop :=
  s.sound cap a = true

instance (cap : ℕ) (s : Stage n S) (a : Action n S) : Decidable (s.Sound cap a) :=
  inferInstanceAs (Decidable (_ = true))

/-! ## Where a payload is -/

/-- A payload that was put on the queue is there, with a worker, or done; a submitter waits only for such a
payload; and when all workers have left, the queue has no payload. -/
structure Inv (s : Stage n S) : Prop where
  held : ∀ p ∈ s.put, some p ∈ s.items ∨ (∃ w, s.worker w = .executing p) ∨ (s.done p).isSome = true
  waiting : ∀ t p, s.submitter t = .waiting p → p ∈ s.put
  drained : (∀ w, s.worker w = .left) → ∀ p, some p ∉ s.items

theorem inv_start : Inv (start : Stage n S) := by
  refine ⟨?_, ?_, ?_⟩
  · intro p hp
    cases hp
  · intro t p ht
    cases ht
  · intro _ p hp
    cases hp

theorem isSome_finish {s : Stage n S} {p q : Payload} (e : Ending) (h : (s.done q).isSome = true) :
    ((s.finish p e).done q).isSome = true := by
  unfold finish
  dsimp only
  by_cases hq : q = p
  · subst hq
    rw [Function.update_self]
    rfl
  · rw [Function.update_of_ne hq]
    exact h

theorem isSome_finish_self (s : Stage n S) (p : Payload) (e : Ending) :
    ((s.finish p e).done p).isSome = true := by
  unfold finish
  dsimp only
  rw [Function.update_self]
  rfl

/-! ## Steps of a worker -/

/-- A step of a worker: what it takes from the queue, or had in its hands, is in its hands or done. -/
theorem Inv.byWorker {s s' : Stage n S} (h : Inv s) {w : Fin n} {c : WorkerPc}
    (hput : s'.put = s.put) (hsubmitter : s'.submitter = s.submitter)
    (hworker : s'.worker = Function.update s.worker w c)
    (hdone : ∀ p, (s.done p).isSome = true → (s'.done p).isSome = true)
    (hitems : ∀ p, some p ∈ s.items → some p ∈ s'.items ∨ c = .executing p)
    (hhands : ∀ p, s.worker w = .executing p → (s'.done p).isSome = true)
    (hlast : c = .left → s.Last w → ∀ p, some p ∉ s'.items) : Inv s' := by
  refine ⟨?_, ?_, ?_⟩
  · intro p hp
    rw [hput] at hp
    rw [hworker]
    rcases h.held p hp with hp | ⟨v, hv⟩ | hp
    · refine (hitems p hp).imp_right fun hc => Or.inl ⟨w, ?_⟩
      rw [Function.update_self]
      exact hc
    · by_cases hvw : v = w
      · subst hvw
        exact Or.inr (Or.inr (hhands p hv))
      · refine Or.inr (Or.inl ⟨v, ?_⟩)
        rw [Function.update_of_ne hvw]
        exact hv
    · exact Or.inr (Or.inr (hdone p hp))
  · rw [hput, hsubmitter]
    exact h.waiting
  · intro hall
    rw [hworker] at hall
    refine hlast ?_ ?_
    · have hw := hall w
      rwa [Function.update_self] at hw
    · intro v hvw
      have hv := hall v
      rwa [Function.update_of_ne hvw] at hv

/-- A worker that goes to another point, with the queue as it is. -/
theorem Inv.setWorker {s : Stage n S} (h : Inv s) {w : Fin n} {c : WorkerPc}
    (hhands : ∀ p, s.worker w ≠ .executing p)
    (hlast : c = .left → s.Last w → ∀ p, some p ∉ s.items) : Inv (s.setWorker w c) :=
  h.byWorker rfl rfl rfl (fun _ hp => hp) (fun _ hp => Or.inl hp)
    (fun p hp => absurd hp (hhands p)) hlast

/-- The last worker leaves only while there is no payload. -/
theorem notMem_of_sound {cap : ℕ} {s : Stage n S} {w : Fin n} {dies : Bool}
    (hok : s.Sound cap (.work w dies)) (hleaves : s.leaves w dies = true) (hlast : s.Last w)
    (p : Payload) : some p ∉ s.items := by
  have hok : (!(s.leaves w dies && decide (s.Last w)) || s.items.all Option.isNone) = true := hok
  rw [hleaves, decide_eq_true hlast] at hok
  intro hp
  have hnone := List.all_eq_true.mp hok (some p) hp
  cases hnone

/-- **A sound step of a worker.** -/
theorem inv_work {cap : ℕ} {s s' : Stage n S} (h : Inv s) {w : Fin n} {dies : Bool}
    (hok : s.Sound cap (.work w dies)) (hstep : s.workerNext w dies (s.worker w) = some s') : Inv s' := by
  -- a worker that leaves as the last one leaves no put behind
  have hnone := notMem_of_sound hok
  unfold leaves at hnone
  cases hpc : s.worker w with
  | starting =>
      rw [hpc] at hstep
      simp only [hpc] at hnone
      cases hstep
      -- a worker holds no put before it takes one
      refine h.setWorker (fun p hp => by rw [hpc] at hp; cases hp) (fun hc hlast => hnone ?_ hlast)
      cases dies
      · cases hc
      · rfl
  | checking =>
      rw [hpc] at hstep
      simp only [hpc] at hnone
      cases hstep
      refine h.setWorker (fun p hp => by rw [hpc] at hp; cases hp) (fun hc hlast => hnone ?_ hlast)
      by_contra hshutdown
      rw [if_neg hshutdown] at hc
      cases hc
  | reading =>
      rw [hpc] at hstep
      simp only [hpc] at hnone
      cases hstep
      refine h.setWorker (fun p hp => by rw [hpc] at hp; cases hp) (fun hc hlast => hnone ?_ hlast)
      rw [Bool.not_eq_true']
      by_contra hqueue
      rw [Bool.not_eq_false] at hqueue
      rw [if_pos hqueue] at hc
      cases hc
  | getting =>
      rw [hpc] at hstep
      simp only [hpc, decide_eq_true_eq] at hnone
      have hhands : ∀ p, s.worker w ≠ .executing p := by
        intro p hp
        rw [hpc] at hp
        cases hp
      simp only [workerNext] at hstep
      split at hstep
      -- nothing to get
      · cases hstep
        exact h.setWorker hhands nofun
      · rename_i rest hitems
        -- the sentinel: the worker leaves, and behind the last one no put is queued
        cases hstep
        rw [hitems] at hnone
        refine h.byWorker rfl rfl rfl (fun _ hp => hp) ?_ (fun p hp => absurd hp (hhands p)) ?_
        · intro p hp
          rw [hitems] at hp
          rcases List.mem_cons.mp hp with hp | hp
          · cases hp
          · exact Or.inl hp
        · intro _ hlast p hp
          exact hnone rfl hlast p (List.mem_cons_of_mem _ hp)
      · rename_i q rest hitems
        -- a put goes from the queue into the hands of the worker
        cases hstep
        refine h.byWorker rfl rfl rfl (fun _ hp => hp) ?_ (fun p hp => absurd hp (hhands p)) nofun
        intro p hp
        rw [hitems] at hp
        rcases List.mem_cons.mp hp with hp | hp
        · cases hp
          exact Or.inr rfl
        · exact Or.inl hp
  | executing q =>
      rw [hpc] at hstep
      cases hstep
      -- the put that was executed has its outcome
      refine h.byWorker rfl rfl rfl (fun _ hp => isSome_finish _ hp) (fun _ hp => Or.inl hp) ?_ nofun
      intro p hp
      rw [hpc] at hp
      cases hp
      exact isSome_finish_self s q _
  | recycling =>
      rw [hpc] at hstep
      simp only [hpc] at hnone
      cases hstep
      refine h.setWorker (fun p hp => by rw [hpc] at hp; cases hp) (fun hc hlast => hnone ?_ hlast)
      cases dies
      · cases hc
      · rfl
  | left =>
      rw [hpc] at hstep
      cases hstep

/-! ## Steps of submitters and of the stop call -/

/-- A step that leaves the workers and the payloads on the queue alone. -/
theorem Inv.frame {s s' : Stage n S} (h : Inv s) (hput : s'.put = s.put)
    (hworker : s'.worker = s.worker) (hitems : ∀ p, some p ∈ s'.items ↔ some p ∈ s.items)
    (hdone : ∀ p, (s.done p).isSome = true → (s'.done p).isSome = true)
    (hwaiting : ∀ t p, s'.submitter t = .waiting p → p ∈ s.put) : Inv s' := by
  refine ⟨?_, ?_, ?_⟩
  · intro p hp
    rw [hput] at hp
    rw [hworker, hitems]
    exact (h.held p hp).imp_right (Or.imp_right (hdone p))
  · rw [hput]
    exact hwaiting
  · intro hall p
    rw [hworker] at hall
    rw [hitems]
    exact h.drained hall p

/-- Who waits after a submitter has gone to a point at which it does not wait. -/
theorem waiting_of_update {s : Stage n S} {t : S} {c : SubmitPc} (hc : ∀ p, c ≠ .waiting p) {u : S}
    {p : Payload} (h : Function.update s.submitter t c u = .waiting p) : s.submitter u = .waiting p := by
  by_cases hut : u = t
  · subst hut
    rw [Function.update_self] at h
    exact absurd h (hc p)
  · rwa [Function.update_of_ne hut] at h

/-- A submitter that goes to a point at which it does not wait. -/
theorem Inv.setSubmitter {s : Stage n S} (h : Inv s) {t : S} {c : SubmitPc}
    (hc : ∀ p, c ≠ .waiting p) : Inv (s.setSubmitter t c) :=
  h.frame rfl rfl (fun _ => Iff.rfl) (fun _ hp => hp)
    fun u p hu => h.waiting u p (waiting_of_update hc hu)

/-- A payload that is done without having been on the queue. -/
theorem Inv.finish {s : Stage n S} (h : Inv s) (p : Payload) (e : Ending) : Inv (s.finish p e) :=
  h.frame rfl rfl (fun _ => Iff.rfl) (fun _ hq => isSome_finish e hq) h.waiting

/-- A payload is put on the queue while some worker has not left. -/
theorem Inv.putItem {s : Stage n S} (h : Inv s) {t : S} {q : Payload}
    (hworker : ¬ ∀ w, s.worker w = .left) :
    Inv ({ s with items := s.items ++ [some q], put := q :: s.put }.setSubmitter t (.waiting q)) := by
  refine ⟨?_, ?_, ?_⟩
  · intro p hp
    rcases List.mem_cons.mp hp with rfl | hp
    · exact Or.inl (List.mem_append_right _ List.mem_cons_self)
    · exact (h.held p hp).imp_left (List.mem_append_left _)
  · intro u p hu
    by_cases hut : u = t
    · subst hut
      have hup : Function.update s.submitter u (.waiting q) u = .waiting p := hu
      rw [Function.update_self] at hup
      cases hup
      exact List.mem_cons_self
    · have hup : Function.update s.submitter t (.waiting q) u = .waiting p := hu
      rw [Function.update_of_ne hut] at hup
      exact List.mem_cons_of_mem _ (h.waiting u p hup)
  · intro hall
    exact absurd hall hworker

/-- **A sound step of a submitter.** -/
theorem inv_next {cap : ℕ} {s s' : Stage n S} (h : Inv s) {t : S} (hok : s.Sound cap (.next t))
    (hstep : s.submitterNext cap t (s.submitter t) = some s') : Inv s' := by
  cases hpc : s.submitter t <;> rw [hpc] at hstep <;> simp only [submitterNext] at hstep
  case idle => cases hstep
  case entering p =>
    cases hstep
    refine h.setSubmitter fun q => ?_
    split <;> exact nofun
  case inlined p =>
    cases hstep
    exact (h.finish p .executed).setSubmitter nofun
  case looping p =>
    split_ifs at hstep <;> cases hstep
    · exact (h.finish p .refused).setSubmitter nofun
    · exact h.setSubmitter nofun
  case putting p =>
    cases hstep
    refine h.setSubmitter fun q => ?_
    split <;> exact nofun
  case blocked p =>
    split_ifs at hstep with hfree <;> cases hstep
    · apply h.putItem
      simpa [Sound, sound, hpc, hfree] using hok
    · exact h.setSubmitter nofun
  case waiting p =>
    split_ifs at hstep
    cases hstep
    exact h.setSubmitter nofun

/-- A step of the stop call changes neither the payloads on the queue nor what has become of them. -/
theorem inv_stopNext {cap : ℕ} {s s' : Stage n S} (h : Inv s) {timedOut : Bool} {c : StopPc}
    (hstep : s.stopStep cap timedOut c = some s') : Inv s' := by
  have hframe : ∀ u : Stage n S, u.put = s.put → u.worker = s.worker → u.submitter = s.submitter →
      u.done = s.done → (∀ p, some p ∈ u.items ↔ some p ∈ s.items) → Inv u := by
    intro u hput hworker hsubmitter hdone hitems
    refine h.frame hput hworker hitems ?_ ?_
    · intro p hp
      rw [hdone]
      exact hp
    · rw [hsubmitter]
      exact h.waiting
  cases c with
  | ready => cases hstep
  | returned => cases hstep
  | sentinels k =>
      cases k with
      | zero =>
          cases hstep
          exact hframe _ rfl rfl rfl rfl fun _ => Iff.rfl
      | succ k =>
          simp only [stopStep] at hstep
          split_ifs at hstep <;> cases hstep
          · refine hframe _ rfl rfl rfl rfl fun p => ?_
            constructor
            · intro hp
              rcases List.mem_append.mp hp with hp | hp
              · exact hp
              · cases List.mem_singleton.mp hp
            · exact List.mem_append_left _
          · exact hframe _ rfl rfl rfl rfl fun _ => Iff.rfl
  | joining i =>
      simp only [stopStep] at hstep
      split_ifs at hstep <;> cases hstep <;> exact hframe _ rfl rfl rfl rfl fun _ => Iff.rfl
  | dropping =>
      cases hstep
      exact hframe _ rfl rfl rfl rfl fun _ => Iff.rfl
  | ending =>
      cases hstep
      exact hframe _ rfl rfl rfl rfl fun _ => Iff.rfl
  | clearing =>
      cases hstep
      exact hframe _ rfl rfl rfl rfl fun _ => Iff.rfl

/-- **A sound step of the system.** -/
theorem inv_step {cap : ℕ} (s : Stage n S) (a : Action n S) (s' : Stage n S) (h : Inv s)
    (hok : s.Sound cap a) (hstep : s.step cap a = some s') : Inv s' := by
  cases a with
  | submit t =>
      simp only [step] at hstep
      split_ifs at hstep
      cases hstep
      have hnew : Inv { s with nextPayload := s.nextPayload + 1 } := ⟨h.held, h.waiting, h.drained⟩
      exact hnew.setSubmitter nofun
  | next t => exact inv_next h hok hstep
  | work w dies => exact inv_work h hok hstep
  | stop =>
      simp only [step] at hstep
      split_ifs at hstep <;> cases hstep <;> exact ⟨h.held, h.waiting, h.drained⟩
  | stopNext timedOut => exact inv_stopNext h hstep

/-! ## Runs -/

/-- Once the stop call has returned and every worker has left, every payload that was put on the queue is done,
and no submitter waits for one that is not. -/
def PayloadsDone (s : Stage n S) : Prop :=
  s.stop = .returned → (∀ w, s.worker w = .left) →
    (∀ p ∈ s.put, (s.done p).isSome = true) ∧
      ∀ t p, s.submitter t = .waiting p → (s.done p).isSome = true

/-- When all workers have left, what was put on the queue is done. -/
theorem Inv.done {s : Stage n S} (h : Inv s) (hall : ∀ w, s.worker w = .left) {p : Payload}
    (hp : p ∈ s.put) : (s.done p).isSome = true := by
  rcases h.held p hp with hp | ⟨w, hw⟩ | hp
  · exact absurd hp (h.drained hall p)
  · rw [hall w] at hw
    cases hw
  · exact hp

/-- **No payload is dropped.**  In every state that a run of sound steps reaches, once the stop call has
returned with all workers gone, every payload put on the queue is done. -/
theorem payloads_done (cap : ℕ) (as : List (Action n S)) (s : Stage n S)
    (hsound : Respects (step cap) (Sound cap) start as)
    (hrun : exec (step cap) start as = some s) : PayloadsDone s := by
  have h : Inv s := exec_invariant inv_step as start s inv_start hsound hrun
  intro _ hall
  exact ⟨fun p hp => h.done hall hp, fun t p ht => h.done hall (h.waiting t p ht)⟩

end Stage

/-! ## Two runs -/

/-- The worker makes so many steps. -/
def works (k : ℕ) : List (Action 1 Bool) :=
  List.replicate k (.work 0 false)

/-- A submitter makes so many steps. -/
def submits (t : Bool) (k : ℕ) : List (Action 1 Bool) :=
  .submit t :: List.replicate k (.next t)

/-- The stop call makes so many steps. -/
def stops (k : ℕ) : List (Action 1 Bool) :=
  List.replicate k (.stopNext false)

/-- A payload is executed before the stage is stopped. -/
theorem payloads_done_executed :
    ∃ s : Stage 1 Bool, exec (Stage.step 8) Stage.start
        (submits false 4 ++ works 6 ++ [.stop] ++ works 1 ++ stops 7) = some s ∧
      s.stop = .returned ∧ s.worker 0 = .left ∧ s.put = [0] ∧ s.PayloadsDone := by
  have hrun : ((exec (Stage.step 8) Stage.start
      (submits false 4 ++ works 6 ++ [Action.stop] ++ works 1 ++ stops 7)).map fun s : Stage 1 Bool =>
      (s.stop, s.worker 0, s.put)) = some (.returned, .left, [0]) := by
    decide +kernel
  obtain ⟨s, hs, hread⟩ := Option.map_eq_some_iff.mp hrun
  rw [Prod.mk.injEq, Prod.mk.injEq] at hread
  refine ⟨s, hs, hread.1, hread.2.1, hread.2.2, ?_⟩
  apply Stage.payloads_done 8 _ s _ hs
  decide +kernel

/-- The payload is on the queue when the stop call sets the flag, and the worker looks at the flag before it
looks at the queue. -/
theorem not_payloads_done :
    ∃ s : Stage 1 Bool, exec (Stage.step 8) Stage.start
        (works 1 ++ submits false 4 ++ [.stop] ++ works 1 ++ stops 7) = some s ∧
      s.submitter false = .waiting 0 ∧ ¬ s.PayloadsDone := by
  have hrun : ((exec (Stage.step 8) Stage.start
      (works 1 ++ submits false 4 ++ [Action.stop] ++ works 1 ++ stops 7)).map fun s : Stage 1 Bool =>
      (s.stop, s.worker 0, s.submitter false, s.done 0)) =
      some (.returned, .left, .waiting 0, none) := by
    decide +kernel
  obtain ⟨s, hs, hread⟩ := Option.map_eq_some_iff.mp hrun
  rw [Prod.mk.injEq, Prod.mk.injEq, Prod.mk.injEq] at hread
  obtain ⟨hstop, hworker, hwaiting, hdone⟩ := hread
  refine ⟨s, hs, hwaiting, ?_⟩
  intro hall
  have hleft : ∀ w, s.worker w = .left := by
    intro w
    rw [Subsingleton.elim w 0]
    exact hworker
  have hsome := (hall hstop hleft).2 false 0 hwaiting
  rw [hdone] at hsome
  cases hsome

end WriteStage
