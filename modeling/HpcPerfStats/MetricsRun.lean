/-
# A batch of jobs through the metrics pool

`Metrics.run`: workers compute the metrics of the jobs of a batch (`_unwrap`), and the caller takes their payloads in
the order of completion and writes the rows (`_drain_metrics_imap`, `_persist_metrics_payload`).  When no job completes
for too long, the jobs without an outcome are reported as stalled.  Here a run takes the steps of the workers and the
polls of the caller in any order.
-/
import HpcPerfStats.UnorderedResults
import HpcPerfStats.PyText
import Mathlib.Algebra.Order.Ring.Rat

namespace MetricsRun

open Transition UnorderedResults

variable {Row : Type}

/-! ## The worker -/

/-- What leaves a call as an exception. -/
inductive Raised where
  | databaseUnavailable
  | timeout
  | other (errorType errorMessage : String)
  deriving DecidableEq

/-- What comes of `run_with_db_retry(_compute, attempts=2)` in a worker. -/
inductive Computed (Row : Type) where
  | payload (rows : List Row) (distinctTimeCount : Option ℤ)
  | notDict
  | databaseUnavailable
  | dbError (errorType errorMessage : String)
  | computeError (errorType errorMessage : String)

structure Payload (Row : Type) where
  jid : String
  status : String
  rows : List Row
  distinctTimeCount : Option ℤ
  errorType : Option String
  errorMessage : Option String

/-- `_unwrap`; a job is its `_metrics_jid_value`. -/
def unwrap (job : String) : Computed Row → Except Raised (Payload Row)
  | .payload rows distinctTimeCount => .ok ⟨job, "ok", rows, distinctTimeCount, none, none⟩
  | .notDict => .ok ⟨job, "ok", [], none, none, none⟩
  | .databaseUnavailable => .error .databaseUnavailable
  | .dbError errorType errorMessage => .ok ⟨job, "worker_db_error", [], none, some errorType, some errorMessage⟩
  | .computeError errorType errorMessage =>
      .ok ⟨job, "worker_compute_error", [], none, some errorType, some errorMessage⟩

/-- How a future of the pool ends: `_unwrap` returns or raises, or `_run_task` raises around it, or the future is
cancelled. -/
inductive Work (Row : Type) where
  | unwrapped (computed : Computed Row)
  | around (error : Raised)

/-- The result of a future; the caller takes a falsy one, too. -/
def Work.outcome (work : Work Row) (job : String) : Except Raised (Option (Payload Row)) :=
  match work with
  | .unwrapped computed => (unwrap job computed).map some
  | .around error => .error error

/-! ## The caller -/

/-- `_metrics_run_outcome`. -/
structure Outcome where
  jid : String
  ok : Bool
  status : String
  persistedRows : ℕ
  distinctTimeCount : Option ℤ
  persistS : ℚ
  errorType : Option String
  errorMessage : Option String
  deriving DecidableEq

/-- What comes of `run_with_db_retry` around `_persist_metrics_batch`. -/
inductive Persisted where
  | written
  | dbError (errorType errorMessage : String)
  | raised (error : Raised)

/-- `_PARENT_PERSIST_TIMEOUT_MARKERS`. -/
def parentPersistTimeoutMarkers : List String :=
  ["statement timeout", "lock timeout", "canceling statement due to statement timeout",
    "canceling statement due to lock timeout"]

def isParentPersistTimeoutError (text : String) : Bool :=
  parentPersistTimeoutMarkers.any fun marker => PyText.contains marker text.toLower

/-- `_persist_metrics_payload`, where writing the rows takes this long. -/
def persistMetricsPayload (payload : Payload Row) (persisted : Persisted) (elapsed : ℚ) : Except Raised Outcome :=
  if payload.status ≠ "ok" then
    .ok ⟨payload.jid, false, payload.status, 0, payload.distinctTimeCount, 0, payload.errorType, payload.errorMessage⟩
  else if payload.rows.isEmpty then .ok ⟨payload.jid, true, "ok", 0, payload.distinctTimeCount, 0, none, none⟩
  else
    match persisted with
    | .written =>
        .ok ⟨payload.jid, true, "ok", payload.rows.length, payload.distinctTimeCount, max 0 elapsed, none, none⟩
    | .dbError errorType errorMessage =>
        .ok ⟨payload.jid, false,
          if isParentPersistTimeoutError errorMessage then "parent_persist_timeout" else "parent_persist_db_error",
          0, payload.distinctTimeCount, max 0 elapsed, some errorType, some errorMessage⟩
    | .raised error => .error error

structure Config where
  maxWorkers : ℕ
  /-- `cfg.get_metrics_run_stall_timeout_s()`. -/
  stallTimeout : ℚ
  /-- The format `.1f`. -/
  format : ℚ → String

/-- How `_drain_metrics_imap` ends. -/
inductive Ended where
  | returned
  /-- `MetricsRunWorkerStallError`; the partial outcomes are those of the drain. -/
  | stalled (message : String) (pendingJobs : List String)
  | raised (error : Raised)
  /-- `submit` raises. -/
  | refused
  deriving DecidableEq

/-- The state of `_drain_metrics_imap`. -/
structure Drain (Row : Type) where
  session : Session String (Option (Payload Row)) Raised
  done : ℕ
  outcomes : List Outcome
  completedJids : List String
  lastProgressAt : ℚ
  ended : Option Ended

/-- `imap_unordered` over the jobs at this time; `none` when the pool is shut down. -/
def start (cfg : Config) (jobs : List String) (accepting : Bool) (now : ℚ) : Option (Drain Row) :=
  (UnorderedResults.start cfg.maxWorkers jobs accepting).map fun session => ⟨session, 0, [], [], now, none⟩

/-- The message of the stall. -/
def stallMessage (cfg : Config) (stalledFor : ℚ) (total done pending : ℕ) : String :=
  "Metrics.run worker stall: no completed jobs for " ++ cfg.format stalledFor ++ "s (tasks=" ++ toString total ++
    " chunksize=1 completed=" ++ toString done ++ " pending=" ++ toString pending ++ ")"

/-- The jobs that the drain has no payload of. -/
def pendingJobs (jobs : List String) (d : Drain Row) : List String :=
  jobs.filter fun job => !d.completedJids.contains job

/-- The branch of `TimeoutError`. -/
def waited (cfg : Config) (jobs : List String) (d : Drain Row) (now : ℚ) : Drain Row :=
  if max 0 cfg.stallTimeout ≤ now - d.lastProgressAt then
    { d with
      session := close d.session
      ended := some (.stalled
        (stallMessage cfg (now - d.lastProgressAt) jobs.length d.done (pendingJobs jobs d).length)
        (pendingJobs jobs d)) }
  else d

/-- One more outcome; the clock of the stall starts again. -/
def Drain.answer (d : Drain Row) (outcome : Outcome) (now : ℚ) : Drain Row :=
  { d with outcomes := d.outcomes ++ [outcome], done := d.done + 1, lastProgressAt := now }

/-- What `_drain_metrics_imap` does with an answer of the iterator. -/
def receive (cfg : Config) (jobs : List String) (d : Drain Row) (now : ℚ) (persisted : Persisted) (elapsed : ℚ) :
    Answer (Option (Payload Row)) Raised → Drain Row
  | .raised .databaseUnavailable =>
      { d with session := close d.session, ended := some (.raised .databaseUnavailable) }
  | .raised .timeout => waited cfg jobs d now
  | .timeout => waited cfg jobs d now
  | .stop => { d with session := close d.session, ended := some .returned }
  | .raised error => { d with ended := some (.raised error) }
  | .refused => { d with ended := some .refused }
  | .result none =>
      d.answer ⟨"unknown", false, "empty_worker_payload", 0, none, 0, some "EmptyPayload",
        some "worker returned empty payload"⟩ now
  | .result (some payload) =>
      match persistMetricsPayload payload persisted elapsed with
      | .error error => { d with ended := some (.raised error) }
      | .ok outcome => { d.answer outcome now with completedJids := payload.jid :: d.completedJids }

/-- One round of the loop of `_drain_metrics_imap`. -/
def poll (cfg : Config) (jobs : List String) (d : Drain Row) (now : ℚ) (persisted : Persisted) (elapsed : ℚ) :
    Drain Row :=
  if d.done < jobs.length then
    receive cfg jobs { d with session := (next cfg.maxWorkers d.session).2 } now persisted elapsed
      (next cfg.maxWorkers d.session).1
  else { d with session := close d.session, ended := some .returned }

inductive Act (Row : Type) where
  | work (i : ℕ) (work : Work Row)
  | poll (now : ℚ) (persisted : Persisted) (elapsed : ℚ)

def step (cfg : Config) (jobs : List String) (d : Drain Row) : Act Row → Option (Drain Row)
  | .work i work =>
      (UnorderedResults.step cfg.maxWorkers d.session (.finish i work.outcome)).map fun session =>
        { d with session := session }
  | .poll now persisted elapsed =>
      match d.ended with
      | none => some (poll cfg jobs d now persisted elapsed)
      | some _ => none

/-- The exceptions of `Metrics.run`. -/
inductive RunError where
  | stall (message : String)
  | raised (error : Raised)
  | refused

/-- The outcome of a job that the stall left pending. -/
def stallOutcome (message job : String) : Outcome :=
  ⟨job, false, "worker_stall_timeout", 0, none, 0, some "MetricsRunWorkerStallError", some message⟩

/-- What `Metrics.run` makes of the end of the drain. -/
def runResult (d : Drain Row) : Option (Except RunError (List Outcome)) :=
  d.ended.map fun
    | .returned => .ok d.outcomes
    | .stalled message pendingJobs =>
        if d.outcomes ++ pendingJobs.map (stallOutcome message) = [] then .error (.stall message)
        else .ok (d.outcomes ++ pendingJobs.map (stallOutcome message))
    | .raised error => .error (.raised error)
    | .refused => .error .refused

/-! ## What a run keeps -/

section Wf

variable {cfg : Config} {jobs : List String} {d d' : Drain Row}

/-- The item of a future that returned. -/
def okItem {α β ε : Type} : α × Except ε β → Option α
  | (item, .ok _) => some item
  | (_, .error _) => none

theorem filterMap_okItem_sublist {α β ε : Type} (futures : List (α × Except ε β)) :
    (futures.filterMap okItem).Sublist (futures.map Prod.fst) := by
  induction futures with
  | nil => exact List.Sublist.refl _
  | cons future futures ih =>
      obtain ⟨item, outcome⟩ := future
      cases outcome with
      | error error => exact ih.cons item
      | ok value => exact ih.cons_cons item

theorem filterMap_okItem_eq {α β ε : Type} {futures : List (α × Except ε β)}
    (hok : ∀ item error, (item, Except.error error) ∉ futures) : futures.filterMap okItem = futures.map Prod.fst := by
  induction futures with
  | nil => rfl
  | cons future futures ih =>
      have hrest := ih fun item error hmem => hok item error (List.mem_cons_of_mem _ hmem)
      obtain ⟨item, outcome⟩ := future
      cases outcome with
      | error error => exact absurd (List.mem_cons_self ..) (hok item error)
      | ok value => exact congrArg (item :: ·) hrest

/-- A payload has the name of its job. -/
def Faithful (future : String × Except Raised (Option (Payload Row))) : Prop :=
  ∀ value, future.2 = .ok value → ∃ payload, value = some payload ∧ payload.jid = future.1

theorem faithful_outcome (work : Work Row) (job : String) : Faithful (job, work.outcome job) := by
  intro value hvalue
  cases work with
  | around error => cases hvalue
  | unwrapped computed => cases computed <;> cases hvalue <;> exact ⟨_, rfl, rfl⟩

/-- An outcome that is fine is that of rows that were written. -/
def Truthful (taken : List (String × Except Raised (Option (Payload Row)))) (outcome : Outcome) : Prop :=
  outcome.ok = true → ∃ payload, (outcome.jid, .ok (some payload)) ∈ taken ∧ payload.status = "ok" ∧
    outcome.persistedRows = payload.rows.length

theorem persistMetricsPayload_ok {payload : Payload Row} {persisted : Persisted} {elapsed : ℚ} {outcome : Outcome}
    (h : persistMetricsPayload payload persisted elapsed = .ok outcome) :
    outcome.jid = payload.jid ∧
      (outcome.ok = true → payload.status = "ok" ∧ outcome.persistedRows = payload.rows.length) := by
  unfold persistMetricsPayload at h
  split at h
  · cases h
    exact ⟨rfl, fun hok => by cases hok⟩
  · next hstatus =>
      rw [not_not] at hstatus
      split at h
      · next hrows =>
          cases h
          exact ⟨rfl, fun _ => ⟨hstatus, by rw [List.isEmpty_iff.mp hrows]; rfl⟩⟩
      · cases persisted with
        | written =>
            cases h
            exact ⟨rfl, fun _ => ⟨hstatus, rfl⟩⟩
        | dbError errorType errorMessage =>
            cases h
            exact ⟨rfl, fun hok => by cases hok⟩
        | raised error => cases h

/-- What is true of a drain however it ends. -/
structure Core (cfg : Config) (jobs : List String) (d : Drain Row) : Prop where
  books : Books cfg.maxWorkers jobs d.session
  faithful : ∀ future ∈ d.session.taken ++ d.session.completed, Faithful future
  done : d.done = d.outcomes.length
  completed : ∀ job, job ∈ d.completedJids ↔ job ∈ d.outcomes.map Outcome.jid
  truthful : ∀ outcome ∈ d.outcomes, Truthful d.session.taken outcome

/-- The jobs whose results the caller has are those of the outcomes, and no failure but a timeout has come. -/
structure Answered (taken : List (String × Except Raised (Option (Payload Row)))) (outcomes : List Outcome) : Prop where
  outcomes : taken.filterMap okItem = outcomes.map Outcome.jid
  timeouts : ∀ item error, (item, Except.error error) ∈ taken → error = .timeout

/-- What is known at an end. -/
def EndOk (jobs : List String) (d : Drain Row) : Option Ended → Prop
  | none => Answered d.session.taken d.outcomes ∧ Uninterrupted jobs d.session
  | some .returned => Answered d.session.taken d.outcomes ∧
      ((d.outcomes.map Outcome.jid).Perm jobs ∨ ∃ item, (item, Except.error Raised.timeout) ∈ d.session.taken)
  | some (.stalled _ pending) => Answered d.session.taken d.outcomes ∧ pending = pendingJobs jobs d
  | some (.raised _) => True
  | some .refused => True

structure Wf (cfg : Config) (jobs : List String) (d : Drain Row) : Prop extends Core cfg jobs d where
  ended : EndOk jobs d d.ended

/-- The outcomes of a drain are of different jobs of the batch. -/
theorem Core.subperm (h : Core cfg jobs d) (hanswered : Answered d.session.taken d.outcomes) :
    (d.outcomes.map Outcome.jid).Subperm jobs := by
  rw [← hanswered.outcomes]
  exact (filterMap_okItem_sublist _).subperm.trans h.books.subperm

theorem Truthful.mono {taken taken' : List (String × Except Raised (Option (Payload Row)))} {outcome : Outcome}
    (h : Truthful taken outcome) (hsubset : taken ⊆ taken') : Truthful taken' outcome := by
  intro hok
  obtain ⟨payload, hmem, hpayload⟩ := h hok
  exact ⟨payload, hsubset hmem, hpayload⟩

section Next

variable {reply : Answer (Option (Payload Row)) Raised} {s' : Session String (Option (Payload Row)) Raised}

theorem Core.next (h : Core cfg jobs d) (hnext : Next cfg.maxWorkers d.session reply s') :
    Core cfg jobs { d with session := s' } := by
  constructor
  case books => exact h.books.next hnext
  case faithful =>
    show ∀ future ∈ s'.taken ++ s'.completed, Faithful future
    rw [h.books.futures hnext]
    exact h.faithful
  case done => exact h.done
  case completed => exact h.completed
  case truthful =>
    exact fun outcome hmem => (h.truthful outcome hmem).mono (h.books.takes hnext).subset

/-- The end of a drain that closes its iterator. -/
theorem Core.close (h : Core cfg jobs d) (ended : Option Ended) :
    Core cfg jobs { d with session := close d.session, ended := ended } := by
  constructor
  case books => exact h.books.close
  case faithful =>
    show ∀ future ∈ (UnorderedResults.close d.session).taken ++ (UnorderedResults.close d.session).completed, _
    rw [taken_close, completed_close]
    exact h.faithful
  case done => exact h.done
  case completed => exact h.completed
  case truthful =>
    show ∀ outcome ∈ d.outcomes, Truthful (UnorderedResults.close d.session).taken outcome
    rw [taken_close]
    exact h.truthful

theorem Answered.append {taken : List (String × Except Raised (Option (Payload Row)))} {outcomes : List Outcome}
    (h : Answered taken outcomes) {payload : Payload Row} {outcome : Outcome} (hjid : outcome.jid = payload.jid) :
    Answered (taken ++ [(payload.jid, .ok (some payload))]) (outcomes ++ [outcome]) := by
  constructor
  · rw [List.filterMap_append, h.outcomes, List.map_append, List.map_singleton, hjid]
    rfl
  · intro item error hmem
    rcases List.mem_append.mp hmem with hold | hnew
    · exact h.timeouts item error hold
    · cases List.mem_singleton.mp hnew

theorem Answered.timeout {taken : List (String × Except Raised (Option (Payload Row)))} {outcomes : List Outcome}
    (h : Answered taken outcomes) (item : String) : Answered (taken ++ [(item, .error .timeout)]) outcomes := by
  constructor
  · rw [List.filterMap_append, h.outcomes]
    exact List.append_nil _
  · intro item' error hmem
    rcases List.mem_append.mp hmem with hold | hnew
    · exact h.timeouts item' error hold
    · cases List.mem_singleton.mp hnew
      rfl

/-- The caller waits on, or it gives up. -/
theorem wf_waited (h : Core cfg jobs d) (hanswered : Answered d.session.taken d.outcomes) (hended : d.ended = none)
    (huninterrupted : Uninterrupted jobs d.session) (now : ℚ) : Wf cfg jobs (waited cfg jobs d now) := by
  unfold waited
  split
  · refine ⟨h.close _, ?_, rfl⟩
    rw [taken_close]
    exact hanswered
  · refine { h with ended := ?_ }
    rw [hended]
    exact ⟨hanswered, huninterrupted⟩

/-- The caller stops. -/
theorem wf_returned (h : Core cfg jobs d) (hanswered : Answered d.session.taken d.outcomes)
    (hall : (d.outcomes.map Outcome.jid).Perm jobs ∨
      ∃ item, (item, Except.error Raised.timeout) ∈ d.session.taken) :
    Wf cfg jobs { d with session := close d.session, ended := some .returned } := by
  refine ⟨h.close _, ?_⟩
  show Answered (close d.session).taken d.outcomes ∧
    (_ ∨ ∃ item, (item, Except.error Raised.timeout) ∈ (close d.session).taken)
  rw [taken_close]
  exact ⟨hanswered, hall⟩

/-- What the caller makes of a payload. -/
theorem Core.answer (h : Core cfg jobs d) {payload : Payload Row} {outcome : Outcome} {now : ℚ}
    (hjid : outcome.jid = payload.jid) (htruthful : Truthful d.session.taken outcome) :
    Core cfg jobs { d.answer outcome now with completedJids := payload.jid :: d.completedJids } := by
  constructor
  case books => exact h.books
  case faithful => exact h.faithful
  case done =>
    show d.done + 1 = (d.outcomes ++ [outcome]).length
    rw [List.length_append, h.done]
    rfl
  case completed =>
    intro job
    show job ∈ payload.jid :: d.completedJids ↔ job ∈ (d.outcomes ++ [outcome]).map Outcome.jid
    rw [List.mem_cons, List.map_append, List.mem_append, h.completed job, List.map_singleton, List.mem_singleton, hjid]
    exact or_comm
  case truthful =>
    intro outcome' hmem
    rcases List.mem_append.mp hmem with hold | hnew
    · exact h.truthful outcome' hold
    · rw [List.mem_singleton.mp hnew]
      exact htruthful

/-- **An answer of the iterator** keeps the state well formed. -/
theorem wf_receive (h : Wf cfg jobs d) (hended : d.ended = none) (hnext : Next cfg.maxWorkers d.session reply s')
    (now : ℚ) (persisted : Persisted) (elapsed : ℚ) :
    Wf cfg jobs (receive cfg jobs { d with session := s' } now persisted elapsed reply) := by
  have hend := h.ended
  rw [hended] at hend
  obtain ⟨hanswered, huninterrupted⟩ := hend
  have hcore := h.toCore.next hnext
  have huninterrupted' := huninterrupted.next h.books hnext
  have htakes := h.books.takes hnext
  cases reply with
  | timeout =>
      have htaken : s'.taken = d.session.taken := htakes
      exact wf_waited hcore (htaken ▸ hanswered) hended huninterrupted' now
  | stop =>
      cases hnext with
      | stop hend =>
          refine wf_returned hcore hanswered ?_
          by_cases hfailed : ∃ item, (item, Except.error Raised.timeout) ∈ d.session.taken
          · exact Or.inr hfailed
          · have hok : ∀ item error, (item, Except.error error) ∉ d.session.taken := by
              intro item error hmem
              obtain rfl := hanswered.timeouts item error hmem
              exact hfailed ⟨item, hmem⟩
            refine Or.inl ?_
            rw [← hanswered.outcomes, filterMap_okItem_eq hok]
            exact (huninterrupted.complete h.books hend hok).1
  | refused => exact { hcore with ended := trivial }
  | raised error =>
      obtain ⟨item, htaken⟩ := htakes
      cases error with
      | databaseUnavailable => exact ⟨hcore.close _, trivial⟩
      | other errorType errorMessage => exact { hcore with ended := trivial }
      | timeout => exact wf_waited hcore (htaken ▸ hanswered.timeout item) hended huninterrupted' now
  | result value =>
      obtain ⟨item, htaken⟩ := htakes
      have hmem : (item, Except.ok value) ∈ s'.taken := by
        rw [htaken]
        exact List.mem_append_right _ (List.mem_singleton.mpr rfl)
      obtain ⟨payload, rfl, rfl⟩ := hcore.faithful _ (List.mem_append_left _ hmem) value rfl
      show Wf cfg jobs (match persistMetricsPayload payload persisted elapsed with
        | .error error => { d with session := s', ended := some (.raised error) }
        | .ok outcome => { { d with session := s' }.answer outcome now with
            completedJids := payload.jid :: d.completedJids })
      cases houtcome : persistMetricsPayload payload persisted elapsed with
      | error error => exact { hcore with ended := trivial }
      | ok outcome =>
          obtain ⟨hjid, hok⟩ := persistMetricsPayload_ok houtcome
          have htruthful : Truthful s'.taken outcome := fun hfine => ⟨payload, hjid ▸ hmem, hok hfine⟩
          refine { hcore.answer hjid htruthful with ended := ?_ }
          show EndOk jobs _ d.ended
          rw [hended]
          refine ⟨?_, huninterrupted'⟩
          show Answered s'.taken (d.outcomes ++ [outcome])
          rw [htaken]
          exact hanswered.append hjid

end Next

/-- **One step.** -/
theorem wf_step (h : Wf cfg jobs d) {a : Act Row} (hstep : step cfg jobs d a = some d') : Wf cfg jobs d' := by
  cases a with
  | work i work =>
      obtain ⟨s', hs', rfl⟩ := Option.map_eq_some_iff.mp hstep
      have hbooks := books_step h.books hs'
      obtain ⟨item, hi, rfl⟩ := Option.map_eq_some_iff.mp hs'
      refine ⟨⟨hbooks, ?_, h.done, h.completed, h.truthful⟩, ?_⟩
      · intro future hmem
        rw [← List.append_assoc] at hmem
        rcases List.mem_append.mp hmem with hold | hnew
        · exact h.faithful future hold
        · rw [List.mem_singleton.mp hnew]
          exact faithful_outcome work item
      · have hend := h.ended
        show EndOk jobs _ d.ended
        cases hended : d.ended with
        | none =>
            rw [hended] at hend
            exact ⟨hend.1, ⟨hend.2.accepting, hend.2.closed⟩⟩
        | some ended =>
            rw [hended] at hend
            cases ended <;> exact hend
  | poll now persisted elapsed =>
      cases hended : d.ended with
      | some ended =>
          rw [step, hended] at hstep
          cases hstep
      | none =>
          rw [step, hended] at hstep
          obtain rfl := Option.some.inj hstep
          unfold poll
          split
          · exact wf_receive h hended (next_cases cfg.maxWorkers d.session) now persisted elapsed
          · next hdone =>
              have hend := h.ended
              rw [hended] at hend
              refine wf_returned h.toCore hend.1 (Or.inl ((h.subperm hend.1).perm_of_length_le ?_))
              rw [List.length_map, ← h.done]
              exact Nat.not_lt.mp hdone

theorem wf_start {now : ℚ} (hstart : start cfg jobs true now = some d) : Wf cfg jobs d := by
  obtain ⟨s, hs, rfl⟩ := Option.map_eq_some_iff.mp hstart
  have hfilled := filled_start hs
  have htaken : s.taken = [] := hfilled.taken
  refine ⟨⟨books_start hs, ?_, rfl, fun _ => Iff.rfl, fun _ h => by cases h⟩, ?_, uninterrupted_start hs⟩
  · have hnone : s.taken ++ s.completed = [] := by
      rw [htaken, List.nil_append]
      exact hfilled.completed
    rw [hnone]
    exact fun _ h => by cases h
  · rw [htaken]
    exact ⟨rfl, fun _ _ h => by cases h⟩

theorem wf_of_run {now : ℚ} {d₀ : Drain Row} {acts : List (Act Row)} (hstart : start cfg jobs true now = some d₀)
    (hrun : exec (step cfg jobs) d₀ acts = some d) : Wf cfg jobs d :=
  exec_invariant_of_step (fun _ _ _ h hstep => wf_step h hstep) acts d₀ d (wf_start hstart) hrun

/-- The result of the batch, from what the drain has. -/
theorem Wf.result (h : Wf cfg jobs d) {outcomes : List Outcome} (hresult : runResult d = some (.ok outcomes)) :
    Answered d.session.taken d.outcomes ∧
      (outcomes = d.outcomes ∧
          ((d.outcomes.map Outcome.jid).Perm jobs ∨
            ∃ item, (item, Except.error Raised.timeout) ∈ d.session.taken) ∨
        ∃ message, outcomes = d.outcomes ++ (pendingJobs jobs d).map (stallOutcome message)) := by
  obtain ⟨ended, hended, hof⟩ := Option.map_eq_some_iff.mp hresult
  have hend := h.ended
  rw [hended] at hend
  cases ended with
  | returned =>
      cases hof
      exact ⟨hend.1, Or.inl ⟨rfl, hend.2⟩⟩
  | stalled message pending =>
      obtain ⟨hanswered, rfl⟩ := hend
      dsimp only at hof
      split at hof
      · cases hof
      · cases hof
        exact ⟨hanswered, Or.inr ⟨message, rfl⟩⟩
  | raised error => cases hof
  | refused => cases hof

theorem map_jid_append_stallOutcome (outcomes : List Outcome) (message : String) (pending : List String) :
    (outcomes ++ pending.map (stallOutcome message)).map Outcome.jid = outcomes.map Outcome.jid ++ pending := by
  rw [List.map_append, List.map_map]
  congr 1
  exact List.map_id pending

theorem Core.contains_iff (h : Core cfg jobs d) (job : String) :
    d.completedJids.contains job = true ↔ job ∈ d.outcomes.map Outcome.jid := by
  rw [List.contains_iff_mem]
  exact h.completed job

/-- The jobs that the drain has an outcome of, and those it has none of. -/
theorem completed_append_pendingJobs (jobs : List String) (d : Drain Row) :
    (jobs.filter d.completedJids.contains ++ pendingJobs jobs d).Perm jobs :=
  List.filter_append_perm _ jobs

/-- **The outcomes of `Metrics.run`**: no job has two, and one that is fine has its payload. -/
theorem Wf.truthful_result (h : Wf cfg jobs d) {outcomes : List Outcome}
    (hresult : runResult d = some (.ok outcomes)) :
    (outcomes.map Outcome.jid).Subperm jobs ∧
      ∀ outcome ∈ outcomes, outcome.ok = true → ∃ payload : Payload Row,
        (outcome.jid, .ok (some payload)) ∈ d.session.taken ∧ payload.jid = outcome.jid ∧ payload.status = "ok" ∧
          outcome.persistedRows = payload.rows.length := by
  have hdone : ∀ outcome ∈ d.outcomes, outcome.ok = true → ∃ payload : Payload Row,
      (outcome.jid, .ok (some payload)) ∈ d.session.taken ∧ payload.jid = outcome.jid ∧ payload.status = "ok" ∧
        outcome.persistedRows = payload.rows.length := by
    intro outcome hmem hok
    obtain ⟨payload, htaken, hpayload⟩ := h.truthful outcome hmem hok
    obtain ⟨payload', hsome, hjid⟩ := h.faithful _ (List.mem_append_left _ htaken) _ rfl
    cases hsome
    exact ⟨payload, htaken, hjid, hpayload⟩
  obtain ⟨hanswered, ⟨rfl, -⟩ | ⟨message, rfl⟩⟩ := h.result hresult
  · exact ⟨h.toCore.subperm hanswered, hdone⟩
  · constructor
    · rw [map_jid_append_stallOutcome]
      refine List.Subperm.trans ?_ (completed_append_pendingJobs jobs d).subperm
      refine (List.subperm_append_right _).mpr ?_
      have hfilter := (h.toCore.subperm hanswered).filter d.completedJids.contains
      have hall : (d.outcomes.map Outcome.jid).filter d.completedJids.contains = d.outcomes.map Outcome.jid :=
        List.filter_eq_self.mpr fun job hmem => (h.toCore.contains_iff job).mpr hmem
      rwa [hall] at hfilter
    · intro outcome hmem
      rcases List.mem_append.mp hmem with hmem | hpending
      · exact hdone outcome hmem
      · obtain ⟨job, -, rfl⟩ := List.mem_map.mp hpending
        exact fun hok => by cases hok

/-- No worker raises `TimeoutError`. -/
def InTime : Act Row → Prop
  | .work _ work => work ≠ .around .timeout
  | .poll _ _ _ => True

/-- No future is one that raised `TimeoutError`. -/
def Timely (d : Drain Row) : Prop :=
  ∀ future ∈ d.session.taken ++ d.session.completed, future.2 ≠ .error .timeout

theorem outcome_ne_timeout {work : Work Row} (hwork : work ≠ .around .timeout) (job : String) :
    work.outcome job ≠ .error .timeout := by
  intro h
  cases work with
  | around error =>
      cases h
      exact hwork rfl
  | unwrapped computed => cases computed <;> cases h

/-- Only the session matters to `Timely`, and a poll moves its futures at most. -/
theorem futures_poll (h : Core cfg jobs d) (now : ℚ) (persisted : Persisted) (elapsed : ℚ) :
    (poll cfg jobs d now persisted elapsed).session.taken ++ (poll cfg jobs d now persisted elapsed).session.completed =
      d.session.taken ++ d.session.completed := by
  have hclose : ∀ s : Session String (Option (Payload Row)) Raised,
      (close s).taken ++ (close s).completed = s.taken ++ s.completed := by
    intro s
    rw [taken_close, completed_close]
  have hwaited : ∀ e : Drain Row, (waited cfg jobs e now).session.taken ++ (waited cfg jobs e now).session.completed =
      e.session.taken ++ e.session.completed := by
    intro e
    unfold waited
    split
    · exact hclose e.session
    · rfl
  unfold poll
  split
  · have hnext := h.books.futures (next_cases cfg.maxWorkers d.session)
    rw [← hnext]
    unfold receive
    split
    · exact hclose _
    · exact hwaited _
    · exact hwaited _
    · exact hclose _
    · rfl
    · rfl
    · rfl
    · split <;> rfl
  · exact hclose d.session

theorem timely_step (h : Timely d) (hcore : Core cfg jobs d) {a : Act Row} (ha : InTime a)
    (hstep : step cfg jobs d a = some d') : Timely d' := by
  cases a with
  | work i work =>
      obtain ⟨s', hs', rfl⟩ := Option.map_eq_some_iff.mp hstep
      obtain ⟨item, hi, rfl⟩ := Option.map_eq_some_iff.mp hs'
      intro future hmem
      rw [← List.append_assoc] at hmem
      rcases List.mem_append.mp hmem with hold | hnew
      · exact h future hold
      · rw [List.mem_singleton.mp hnew]
        exact outcome_ne_timeout ha item
  | poll now persisted elapsed =>
      cases hended : d.ended with
      | some ended =>
          rw [step, hended] at hstep
          cases hstep
      | none =>
          rw [step, hended] at hstep
          obtain rfl := Option.some.inj hstep
          unfold Timely
          rw [futures_poll hcore]
          exact h

end Wf

/-! ## A small run -/

/-- Two workers that stall after a minute. -/
def smallPool : Config := ⟨2, 60, fun _ => "90.0"⟩

/-- The second of two jobs is done, and the first never returns. -/
def oneStalls : List (Act ℕ) :=
  [.poll 10 .written 0, .work 1 (.unwrapped (.payload [3, 4] (some 2))), .poll 20 .written 1, .poll 110 .written 0]

/-- The state after a run of two jobs, with a fact that evaluates. -/
theorem exists_run (acts : List (Act ℕ)) (p : Drain ℕ → Bool)
    (h : ((start smallPool ["7", "8"] true 0).bind fun d₀ => exec (step smallPool ["7", "8"]) d₀ acts).any p = true) :
    ∃ d₀ d, start smallPool ["7", "8"] true 0 = some d₀ ∧ exec (step smallPool ["7", "8"]) d₀ acts = some d ∧
      p d = true := by
  obtain ⟨d, hrun, hp⟩ := (Option.any_eq_true _ _).mp h
  obtain ⟨d₀, hstart, hrun⟩ := Option.bind_eq_some_iff.mp hrun
  exact ⟨d₀, d, hstart, hrun, hp⟩

/-- `Metrics.run` returns outcomes. -/
def returnsOutcomes (d : Drain Row) : Bool :=
  match runResult d with
  | some (.ok _) => true
  | _ => false

theorem returnsOutcomes_iff {d : Drain Row} :
    returnsOutcomes d = true ↔ ∃ outcomes, runResult d = some (.ok outcomes) := by
  unfold returnsOutcomes
  split
  · next outcomes h => exact ⟨fun _ => ⟨outcomes, h⟩, fun _ => rfl⟩
  · next hnone =>
      constructor
      · intro h
        cases h
      · rintro ⟨outcomes, h⟩
        exact absurd h (hnone outcomes)

/-! ## What holds of every run -/

section Runs

variable {cfg : Config} {jobs : List String} {now : ℚ} {d₀ d : Drain Row} {acts : List (Act Row)}
  {outcomes : List Outcome}

/-- **Every job has an outcome**: when `Metrics.run` returns, after a stall or without, each job of the batch has one
outcome, unless a worker raised `TimeoutError`. -/
theorem accounted_of_run (hjobs : jobs.Nodup) (hstart : start cfg jobs true now = some d₀)
    (hintime : ∀ a ∈ acts, InTime a) (hrun : exec (step cfg jobs) d₀ acts = some d)
    (hresult : runResult d = some (.ok outcomes)) : (outcomes.map Outcome.jid).Perm jobs := by
  have h : Wf cfg jobs d ∧ Timely d := by
    refine exec_invariant (I := fun d => Wf cfg jobs d ∧ Timely d)
      (fun _ _ _ h ha hstep => ⟨wf_step h.1 hstep, timely_step h.2 h.1.toCore ha hstep⟩) acts d₀ d
      ⟨wf_start hstart, ?_⟩ (respects_of_forall hintime d₀) hrun
    obtain ⟨s, hs, rfl⟩ := Option.map_eq_some_iff.mp hstart
    have hfilled := filled_start hs
    intro future hmem
    have hnone : s.taken ++ s.completed = [] := by
      rw [hfilled.taken, hfilled.completed]
      rfl
    rw [hnone] at hmem
    cases hmem
  obtain ⟨hanswered, ⟨rfl, hall⟩ | ⟨message, rfl⟩⟩ := h.1.result hresult
  · rcases hall with hperm | ⟨item, hmem⟩
    · exact hperm
    · exact absurd rfl (h.2 _ (List.mem_append_left _ hmem))
  · rw [map_jid_append_stallOutcome]
    refine List.Perm.trans ?_ (completed_append_pendingJobs jobs d)
    refine List.Perm.append_right _ ?_
    have hsubperm := h.1.toCore.subperm hanswered
    refine (List.perm_ext_iff_of_nodup ?_ (hjobs.filter _)).mpr fun job => ?_
    · obtain ⟨l, hperm, hsublist⟩ := hsubperm
      exact hperm.nodup_iff.mp (hjobs.sublist hsublist)
    · rw [List.mem_filter, h.1.toCore.contains_iff job]
      exact ⟨fun hmem => ⟨hsubperm.subset hmem, hmem⟩, fun hmem => hmem.2⟩

theorem accounted_of_run_oneStalls : ∃ (d : Drain ℕ) (outcomes : List Outcome),
    runResult d = some (.ok outcomes) ∧ (outcomes.map Outcome.jid).Perm ["7", "8"] := by
  obtain ⟨d₀, d, hstart, hrun, hreturns⟩ := exists_run oneStalls returnsOutcomes (by decide +kernel)
  obtain ⟨outcomes, hresult⟩ := returnsOutcomes_iff.mp hreturns
  refine ⟨d, outcomes, hresult, accounted_of_run (by decide) hstart ?_ hrun hresult⟩
  simp [oneStalls, InTime]

/-- **A stall does not leave `Metrics.run`**: jobs without an outcome are pending, so that there is always one. -/
theorem not_stall_of_run (hjobs : jobs ≠ []) (hstart : start cfg jobs true now = some d₀)
    (hrun : exec (step cfg jobs) d₀ acts = some d) (message : String) :
    runResult d ≠ some (.error (.stall message)) := by
  intro hresult
  obtain ⟨ended, hended, hof⟩ := Option.map_eq_some_iff.mp hresult
  have h := wf_of_run hstart hrun
  have hend := h.ended
  rw [hended] at hend
  cases ended with
  | returned => cases hof
  | raised error => cases hof
  | refused => cases hof
  | stalled message' pending =>
      obtain ⟨-, rfl⟩ := hend
      dsimp only at hof
      split at hof
      · next hnone =>
          obtain ⟨houtcomes, hpending⟩ := List.append_eq_nil_iff.mp hnone
          obtain ⟨job, hjob⟩ := List.exists_mem_of_ne_nil jobs hjobs
          have hmissing : job ∉ d.outcomes.map Outcome.jid := by
            rw [houtcomes]
            exact List.not_mem_nil
          have hmem : job ∈ pendingJobs jobs d := by
            refine List.mem_filter.mpr ⟨hjob, ?_⟩
            rw [Bool.not_eq_true', Bool.eq_false_iff]
            exact fun hcontains => hmissing ((h.toCore.contains_iff job).mp hcontains)
          rw [List.map_eq_nil_iff.mp hpending] at hmem
          cases hmem
      · cases hof

end Runs

end MetricsRun
