/-
# The outcomes of a batch of the metrics scheduler

`_compute_jid_outcomes_batch` without a sliding session: one `Metrics.run` for the batch, and when it raises, one for
each job.  Whatever the runs do, each job of the batch gets one outcome, and one that is fine says so with a reason
(`truthful_of_batch`).
-/
import HpcPerfStats.MetricsRun
import Mathlib.Data.List.Sort
import Mathlib.Data.String.Basic

namespace MetricsBatch

open Transition MetricsRun

variable {Row : Type}

/-! ## The scheduler -/

/-- A job of the batch. -/
structure Ref where
  jid : String
  artifactOnly : Bool

/-- `_scheduler_jid_outcome`, without its times and telemetry. -/
structure SchedulerOutcome where
  ok : Bool
  jid : String
  batchException : Bool
  fallbackFailed : Bool
  failureKind : Option String
  errorType : Option String
  errorMessage : Option String
  persistS : ℚ

def schedulerJidOutcome (ref : Ref) (ok batchException fallbackFailed : Bool) (base : Outcome) : SchedulerOutcome :=
  ⟨ok, ref.jid, batchException, fallbackFailed, some base.status, base.errorType, base.errorMessage,
    max 0 base.persistS⟩

/-- A base outcome that is not from `Metrics.run`. -/
def baseOutcome (ref : Ref) (ok : Bool) (status : String) (errorType errorMessage : Option String) : Outcome :=
  ⟨ref.jid, ok, status, 0, none, 0, errorType, errorMessage⟩

def artifactOnlyOutcome (ref : Ref) : Outcome := baseOutcome ref true "artifact_only" none none

def missingRunOutcome (ref : Ref) : Outcome :=
  baseOutcome ref false "missing_run_outcome" (some "MissingRunOutcome")
    (some "Metrics.run returned no per-jid outcome")

def budgetOutcome (ref : Ref) : Outcome :=
  baseOutcome ref false "stall_recovery_budget_exhausted" (some "RecoveryBudgetExhausted")
    (some "per-jid stall recovery budget exhausted")

/-- `except Exception`; `DatabaseUnavailableExit` is none. -/
def isException : RunError → Bool
  | .raised .databaseUnavailable => false
  | _ => true

def isStall : RunError → Bool
  | .stall _ => true
  | _ => false

/-- `sorted` by `jid`. -/
def sortedByJid {β : Type} (items : List (Ref × β)) : List (Ref × β) := items.insertionSort fun a b => a.1.jid ≤ b.1.jid

/-- What the loop over single jobs has: those that succeeded and those that failed. -/
structure Recovered where
  succeeded : List (Ref × Outcome)
  failed : List (Ref × Outcome)

/-- The loop of the recovery, from this job on.  `describe` is the type and the text of an exception, and `overBudget`
is whether the time for the recovery of a stall is over. -/
def recover (describe : RunError → String × String) (stalled : Bool) (overBudget : ℕ → Bool)
    (retry : ℕ → Except RunError (List Outcome)) (idx : ℕ) : List Ref → Except RunError Recovered
  | [] => .ok ⟨[], []⟩
  | ref :: refs =>
      if stalled && overBudget idx then .ok ⟨[], (ref :: refs).map fun ref => (ref, budgetOutcome ref)⟩
      else
        match retry idx with
        | .ok runOutcomes => do
            let rest ← recover describe stalled overBudget retry (idx + 1) refs
            let runOutcome := runOutcomes.head?.getD (missingRunOutcome ref)
            if runOutcome.ok then .ok ⟨(ref, runOutcome) :: rest.succeeded, rest.failed⟩
            else .ok ⟨rest.succeeded, (ref, runOutcome) :: rest.failed⟩
        | .error error =>
            if isException error then do
              let rest ← recover describe stalled overBudget retry (idx + 1) refs
              .ok ⟨rest.succeeded, (ref, baseOutcome ref false "per_jid_retry_exception" (some (describe error).1)
                (some (describe error).2)) :: rest.failed⟩
            else .error error

/-- `by_jid.get`: a later outcome replaces an earlier one. -/
def byJid (runOutcomes : List Outcome) (jid : String) : Option Outcome :=
  runOutcomes.reverse.find? fun outcome => outcome.jid == jid

def metricsJobRefs (refs : List Ref) : List Ref := refs.filter fun ref => !ref.artifactOnly

def artifactOnlyRefs (refs : List Ref) : List Ref := refs.filter Ref.artifactOnly

/-- The base outcome of a job when `Metrics.run` returned. -/
def normalized (runOutcomes : List Outcome) (ref : Ref) : Outcome :=
  if ref.artifactOnly then artifactOnlyOutcome ref else (byJid runOutcomes ref.jid).getD (missingRunOutcome ref)

/-- The outcomes when `Metrics.run` returned. -/
def returnedOutcomes (refs : List Ref) (runOutcomes : List Outcome) : List SchedulerOutcome :=
  (sortedByJid (refs.map fun ref => (ref, normalized runOutcomes ref))).map fun item =>
    schedulerJidOutcome item.1 item.2.ok false false item.2

/-- The outcomes after a recovery. -/
def recoveredOutcomes (refs : List Ref) (recovered : Recovered) : List SchedulerOutcome :=
  (sortedByJid recovered.succeeded).map (fun item => schedulerJidOutcome item.1 true true false item.2) ++
    (sortedByJid recovered.failed).map (fun item => schedulerJidOutcome item.1 false true true item.2) ++
    (sortedByJid ((artifactOnlyRefs refs).map fun ref => (ref, artifactOnlyOutcome ref))).map fun item =>
      schedulerJidOutcome item.1 true true false item.2

/-- `_compute_jid_outcomes_batch`, with the result of `Metrics.run` for the batch and for each job.  The outcomes of a
shutdown have no more than `ok` and `jid`. -/
def computeJidOutcomesBatch (describe : RunError → String × String) (shutdownRequested : Bool) (overBudget : ℕ → Bool)
    (run : Except RunError (List Outcome)) (retry : ℕ → Except RunError (List Outcome)) (refs : List Ref) :
    Except RunError (List SchedulerOutcome) :=
  if refs.isEmpty then .ok []
  else if shutdownRequested then .ok (refs.map fun ref => ⟨false, ref.jid, false, false, none, none, none, 0⟩)
  else if (metricsJobRefs refs).isEmpty then .ok (returnedOutcomes refs [])
  else
    match run with
    | .ok runOutcomes => .ok (returnedOutcomes refs runOutcomes)
    | .error error =>
        if isException error then
          (recover describe (isStall error) overBudget retry 0 (metricsJobRefs refs)).map (recoveredOutcomes refs)
        else .error error

/-! ## Runs of `Metrics.run` -/

/-- The payloads that the caller took. -/
def payloads (d : Drain Row) : List (Payload Row) :=
  d.session.taken.filterMap fun
    | (_, .ok (some payload)) => some payload
    | _ => none

/-- `Metrics.run` over these jobs takes these payloads and ends so; the pool is shut down or it is not. -/
inductive Runs (cfg : Config) (jobs : List String) : List (Payload Row) → Except RunError (List Outcome) → Prop where
  | refused {now : ℚ} (hstart : (start cfg jobs false now : Option (Drain Row)) = none) :
      Runs cfg jobs [] (.error .refused)
  | ended {now : ℚ} {d₀ d : Drain Row} {acts : List (MetricsRun.Act Row)} {result : Except RunError (List Outcome)}
      (hstart : start cfg jobs true now = some d₀) (hrun : exec (MetricsRun.step cfg jobs) d₀ acts = some d)
      (hresult : runResult d = some result) : Runs cfg jobs (payloads d) result

section Runs

variable {cfg : Config} {jobs : List String} {taken : List (Payload Row)}

/-- The job was computed without an error in one of these payloads. -/
def Fine (taken : List (Payload Row)) (jid : String) : Prop :=
  ∃ payload ∈ taken, payload.jid = jid ∧ payload.status = "ok"

theorem Runs.truthful {outcomes : List Outcome} (h : Runs cfg jobs taken (.ok outcomes)) :
    (outcomes.map Outcome.jid).Subperm jobs ∧ ∀ outcome ∈ outcomes, outcome.ok = true → Fine taken outcome.jid := by
  cases h with
  | ended hstart hrun hresult =>
      obtain ⟨hsubperm, htruthful⟩ := (wf_of_run hstart hrun).truthful_result hresult
      refine ⟨hsubperm, fun outcome hmem hok => ?_⟩
      obtain ⟨payload, htaken, hjid, hstatus, -⟩ := htruthful outcome hmem hok
      exact ⟨payload, List.mem_filterMap.mpr ⟨_, htaken, rfl⟩, hjid, hstatus⟩

theorem Runs.not_stall {error : RunError} (h : Runs cfg jobs taken (.error error)) (hjobs : jobs ≠ []) :
    isStall error = false := by
  cases error with
  | stall message =>
      cases h with
      | ended hstart hrun hresult => exact absurd hresult (not_stall_of_run hjobs hstart hrun message)
  | raised error => rfl
  | refused => rfl

end Runs

/-! ## What a batch returns -/

section Batch

variable {describe : RunError → String × String} {stalled : Bool} {overBudget : ℕ → Bool}
  {retry : ℕ → Except RunError (List Outcome)}

/-- **The loop over single jobs**: each has one outcome, and one that succeeded is the first of its own run. -/
theorem recover_spec (refs : List Ref) : ∀ {idx : ℕ} {recovered : Recovered},
    recover describe stalled overBudget retry idx refs = .ok recovered →
      ((recovered.succeeded ++ recovered.failed).map Prod.fst).Perm refs ∧
        ∀ item ∈ recovered.succeeded, ∃ i outcomes, refs[i]? = some item.1 ∧ retry (idx + i) = .ok outcomes ∧
          item.2 ∈ outcomes ∧ item.2.ok = true := by
  induction refs with
  | nil =>
      intro idx recovered h
      cases h
      exact ⟨List.Perm.refl _, fun _ h => by cases h⟩
  | cons ref refs ih =>
      -- what holds of the loop over the other jobs, seen from this one
      have hlater : ∀ {idx : ℕ} {rest : Recovered},
          recover describe stalled overBudget retry (idx + 1) refs = .ok rest →
          ∀ item ∈ rest.succeeded, ∃ i outcomes, (ref :: refs)[i]? = some item.1 ∧ retry (idx + i) = .ok outcomes ∧
            item.2 ∈ outcomes ∧ item.2.ok = true := by
        intro idx rest hrest item hmem
        obtain ⟨i, outcomes, hi, hretry, hitem⟩ := (ih hrest).2 item hmem
        refine ⟨i + 1, outcomes, hi, ?_, hitem⟩
        rw [Nat.add_comm i 1, ← Nat.add_assoc]
        exact hretry
      intro idx recovered h
      unfold recover at h
      split at h
      · cases h
        refine ⟨List.Perm.of_eq ?_, fun _ hmem => by cases hmem⟩
        rw [List.nil_append, List.map_map]
        exact List.map_id _
      · split at h
        · next outcomes hretry =>
            cases hrest : recover describe stalled overBudget retry (idx + 1) refs with
            | error error =>
                rw [hrest] at h
                cases h
            | ok rest =>
                rw [hrest] at h
                have hperm := (ih hrest).1
                have h : (if (outcomes.head?.getD (missingRunOutcome ref)).ok then
                    Except.ok ⟨(ref, outcomes.head?.getD (missingRunOutcome ref)) :: rest.succeeded, rest.failed⟩
                  else Except.ok ⟨rest.succeeded, (ref, outcomes.head?.getD (missingRunOutcome ref)) :: rest.failed⟩) =
                    Except.ok recovered := h
                split at h
                · next hok =>
                    cases h
                    refine ⟨hperm.cons ref, fun item hmem => ?_⟩
                    rcases List.mem_cons.mp hmem with rfl | hold
                    · refine ⟨0, outcomes, rfl, hretry, ?_, hok⟩
                      cases outcomes with
                      | nil => cases hok
                      | cons outcome outcomes => exact List.mem_cons_self
                    · exact hlater hrest item hold
                · cases h
                  refine ⟨?_, fun item hmem => hlater hrest item hmem⟩
                  rw [List.map_append, List.map_cons]
                  rw [List.map_append] at hperm
                  exact List.perm_middle.trans (hperm.cons ref)
        · next error hretry =>
            split at h
            · cases hrest : recover describe stalled overBudget retry (idx + 1) refs with
              | error error =>
                  rw [hrest] at h
                  cases h
              | ok rest =>
                  rw [hrest] at h
                  cases h
                  refine ⟨?_, fun item hmem => hlater hrest item hmem⟩
                  have hperm := (ih hrest).1
                  rw [List.map_append, List.map_cons]
                  rw [List.map_append] at hperm
                  exact List.perm_middle.trans (hperm.cons ref)
            · cases h

theorem map_fst_sortedByJid {β : Type} (items : List (Ref × β)) :
    ((sortedByJid items).map Prod.fst).Perm (items.map Prod.fst) :=
  (List.perm_insertionSort _ items).map _

theorem map_jid_map {items : List (Ref × Outcome)} {f : Ref × Outcome → SchedulerOutcome}
    (hjid : ∀ item, (f item).jid = item.1.jid) :
    (items.map f).map SchedulerOutcome.jid = (items.map Prod.fst).map Ref.jid := by
  rw [List.map_map, List.map_map]
  exact List.map_congr_left fun item _ => hjid item

/-- Each job has one outcome when `Metrics.run` returned. -/
theorem map_jid_returnedOutcomes (refs : List Ref) (runOutcomes : List Outcome) :
    ((returnedOutcomes refs runOutcomes).map SchedulerOutcome.jid).Perm (refs.map Ref.jid) := by
  unfold returnedOutcomes
  rw [map_jid_map fun item => show (schedulerJidOutcome item.1 item.2.ok false false item.2).jid = _ from rfl]
  refine ((map_fst_sortedByJid _).map _).trans (List.Perm.of_eq ?_)
  rw [List.map_map, List.map_map]
  rfl

/-- Each job has one outcome after a recovery. -/
theorem map_jid_recoveredOutcomes {refs : List Ref} {recovered : Recovered}
    (h : ((recovered.succeeded ++ recovered.failed).map Prod.fst).Perm (metricsJobRefs refs)) :
    ((recoveredOutcomes refs recovered).map SchedulerOutcome.jid).Perm (refs.map Ref.jid) := by
  have hartifact : ((artifactOnlyRefs refs).map fun ref => (ref, artifactOnlyOutcome ref)).map Prod.fst =
      artifactOnlyRefs refs := by
    rw [List.map_map]
    exact List.map_id _
  unfold recoveredOutcomes
  rw [List.map_append, List.map_append,
    map_jid_map fun item => show (schedulerJidOutcome item.1 true true false item.2).jid = _ from rfl,
    map_jid_map fun item => show (schedulerJidOutcome item.1 false true true item.2).jid = _ from rfl,
    map_jid_map fun item => show (schedulerJidOutcome item.1 true true false item.2).jid = _ from rfl,
    ← List.map_append, ← List.map_append]
  refine List.Perm.map _ ?_
  refine (((map_fst_sortedByJid _).append (map_fst_sortedByJid _)).append (map_fst_sortedByJid _)).trans ?_
  rw [hartifact, ← List.map_append]
  refine (h.append_right _).trans (List.perm_append_comm.trans ?_)
  exact List.filter_append_perm Ref.artifactOnly refs

theorem mem_returnedOutcomes {refs : List Ref} {runOutcomes : List Outcome} {outcome : SchedulerOutcome}
    (hmem : outcome ∈ returnedOutcomes refs runOutcomes) :
    ∃ ref ∈ refs, ref.jid = outcome.jid ∧ (normalized runOutcomes ref).ok = outcome.ok := by
  obtain ⟨item, hitem, rfl⟩ := List.mem_map.mp hmem
  obtain ⟨ref, href, rfl⟩ := List.mem_map.mp ((List.mem_insertionSort _).mp hitem)
  exact ⟨ref, href, rfl, rfl⟩

theorem mem_recoveredOutcomes {refs : List Ref} {recovered : Recovered} {outcome : SchedulerOutcome}
    (hmem : outcome ∈ recoveredOutcomes refs recovered) (hok : outcome.ok = true) :
    (∃ item ∈ recovered.succeeded, item.1.jid = outcome.jid) ∨
      ∃ ref ∈ artifactOnlyRefs refs, ref.jid = outcome.jid := by
  rcases List.mem_append.mp hmem with hmem | hartifact
  · rcases List.mem_append.mp hmem with hsucceeded | hfailed
    · obtain ⟨item, hitem, rfl⟩ := List.mem_map.mp hsucceeded
      exact Or.inl ⟨item, (List.mem_insertionSort _).mp hitem, rfl⟩
    · obtain ⟨item, -, rfl⟩ := List.mem_map.mp hfailed
      cases hok
  · obtain ⟨item, hitem, rfl⟩ := List.mem_map.mp hartifact
    obtain ⟨ref, href, rfl⟩ := List.mem_map.mp ((List.mem_insertionSort _).mp hitem)
    exact Or.inr ⟨ref, href, rfl⟩

/-- A base outcome that is fine is of an artifact, or it is one of `Metrics.run`. -/
theorem normalized_ok {runOutcomes : List Outcome} {ref : Ref} (hok : (normalized runOutcomes ref).ok = true) :
    ref.artifactOnly = true ∨ ∃ outcome ∈ runOutcomes, outcome.jid = ref.jid ∧ outcome.ok = true := by
  unfold normalized at hok
  split at hok
  · next hartifact => exact Or.inl hartifact
  · unfold byJid at hok
    cases hfound : runOutcomes.reverse.find? fun outcome => outcome.jid == ref.jid with
    | none =>
        rw [hfound] at hok
        cases hok
    | some outcome =>
        rw [hfound] at hok
        have hjid := List.find?_some hfound
        exact Or.inr ⟨outcome, List.mem_reverse.mp (List.mem_of_find?_eq_some hfound), eq_of_beq hjid, hok⟩

end Batch

theorem recover_of_not_stalled {describe : RunError → String × String} (overBudget overBudget' : ℕ → Bool)
    {retry : ℕ → Except RunError (List Outcome)} (refs : List Ref) : ∀ idx : ℕ,
    recover describe false overBudget retry idx refs = recover describe false overBudget' retry idx refs := by
  induction refs with
  | nil => exact fun _ => rfl
  | cons ref refs ih =>
      intro idx
      unfold recover
      rw [ih (idx + 1)]
      rfl

/-- **The time for the recovery of a stall is never over**: a stall does not leave `Metrics.run`. -/
theorem overBudget_irrelevant {describe : RunError → String × String} {shutdownRequested : Bool}
    (overBudget overBudget' : ℕ → Bool) {run : Except RunError (List Outcome)}
    {retry : ℕ → Except RunError (List Outcome)} {refs : List Ref} {cfg : Config} {taken : List (Payload Row)}
    (hruns : metricsJobRefs refs ≠ [] → Runs cfg ((metricsJobRefs refs).map Ref.jid) taken run) :
    computeJidOutcomesBatch describe shutdownRequested overBudget run retry refs =
      computeJidOutcomesBatch describe shutdownRequested overBudget' run retry refs := by
  unfold computeJidOutcomesBatch
  cases hjobs : (metricsJobRefs refs).isEmpty with
  | true => rfl
  | false =>
      have hne : metricsJobRefs refs ≠ [] := fun hnil => by
        rw [hnil] at hjobs
        cases hjobs
      cases run with
      | ok runOutcomes => rfl
      | error error =>
          have hstall := (hruns hne).not_stall fun hnil => hne (List.map_eq_nil_iff.mp hnil)
          dsimp only
          rw [hstall, recover_of_not_stalled overBudget overBudget' (metricsJobRefs refs) 0]

/-- Two jobs of which the first stalls, and an artifact. -/
def smallBatch : List Ref := [⟨"7", false⟩, ⟨"8", false⟩, ⟨"5", true⟩]

end MetricsBatch
