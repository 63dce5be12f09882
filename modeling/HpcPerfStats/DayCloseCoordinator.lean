/-
# The day-close coordinator (`_day_close_coordinator_loop`)

A third thread of the orchestrator feeds the pool that closes days.  It puts the oldest days in front of the queue
(`_prioritize_day_close_list_oldest_first`), claims jobs and submits them (`_fill_day_close_slots`).  When a worker
returns, the job is acknowledged if its day is complete, counted as a failed attempt if the worker failed, and given
back otherwise (`_drain_day_close_ready`); a tar that yielded is not submitted again before its backoff is over.

As in the other coordinators, a step does what the thread does up to its next operation of the job store.  `lost` has
the claims that the thread let go of without telling the store.  The counters for the logs and the telemetry are left
out, and so are the sleeps.
-/
import HpcPerfStats.CallPool
import HpcPerfStats.DailyTarPaths
import HpcPerfStats.Custodians

namespace DayCloseCoordinator

open OrderedDict JobStore DailyTarPaths

/-! ## Backoff (`JanitorDeferTracker`) -/

/-- The fields of an entry that the yields use. -/
structure Backoff where
  yieldStreak : ℕ
  yieldUntil : ℚ

abbrev JanitorDeferTracker := Dict String Backoff

/-- The delay after so many yields: `WRITE_LOCK_BACKOFF_BASE_S` doubled up to `WRITE_LOCK_BACKOFF_MAX_S`. -/
def yieldDelay (streak : ℕ) : ℚ := min 300 (30 * 2 ^ min (streak - 1) 4)

/-- `record_yield_backoff`. -/
def JanitorDeferTracker.recordYieldBackoff (tracker : JanitorDeferTracker) (tarPath : String) (now : ℚ) :
    JanitorDeferTracker :=
  let streak := ((tracker.get (normpath tarPath)).elim 0 Backoff.yieldStreak) + 1
  tracker.set (normpath tarPath) ⟨streak, now + yieldDelay streak⟩

/-- `yield_backoff_active`. -/
def JanitorDeferTracker.yieldBackoffActive (tracker : JanitorDeferTracker) (tarPath : String) (now : ℚ) : Bool :=
  (tracker.get (normpath tarPath)).any fun e => decide (now < e.yieldUntil)

/-- `clear_tar`. -/
def JanitorDeferTracker.clearTar (tracker : JanitorDeferTracker) (tarPath : String) : JanitorDeferTracker :=
  tracker.pop (normpath tarPath)

/-! ## Data -/

/-- What the coordinator is given when it starts. -/
structure Config extends Process where
  /-- `max(1, int(cfg.get_sync_day_close_max_inflight()))`. -/
  cap : ℕ
  /-- `job_max_attempts()`. -/
  maxAttempts : ℤ

/-- What `_run_day_close_job` returns: it raises, or it names an outcome. -/
inductive Result where
  | raised
  | outcome (name : String)

/-- A call of `_run_day_close_job` in the pool, for this identity. -/
abbrev Task := CallPool.Call String Unit Result

/-- Where the thread is. -/
inductive Phase where
  | idle
  /-- The queue was read, and this is to be its order. -/
  | prioritize (ordered : List String)
  /-- At the head of the loop of `_fill_day_close_slots`. -/
  | fill (skipBudget : ℕ)
  | look (skipBudget : ℕ) (job : ClaimedJob)
  /-- In the loop of `_drain_day_close_ready`. -/
  | drain (todo : List (String × ℕ))
  /-- The worker failed. -/
  | retry (job : ClaimedJob) (todo : List (String × ℕ))
  /-- The failed attempt is counted. -/
  | bumped (attempt : ℤ) (job : ClaimedJob) (todo : List (String × ℕ))
  /-- The job is given back without a count. -/
  | requeue (job : ClaimedJob) (todo : List (String × ℕ))
  /-- The day is complete. -/
  | finish (job : ClaimedJob) (todo : List (String × ℕ))
  | protect (since : ℚ) (todo : List String)
  | reap (since : ℚ)
  | crashed

/-- The maps of the coordinator beside the job store, and the calls that its pool has had. -/
structure Coordinator where
  store : Store
  inflight : Dict String ℕ
  leases : Dict String ClaimedJob
  tasks : List Task
  backoff : JanitorDeferTracker
  phase : Phase
  lost : List ClaimedJob

def Coordinator.init (store : Store) : Coordinator where
  store := store
  inflight := Dict.empty
  leases := Dict.empty
  tasks := []
  backoff := Dict.empty
  phase := .idle
  lost := []

def Coordinator.goto (c : Coordinator) (phase : Phase) : Coordinator := { c with phase := phase }

/-- `_requeue_claimed_job_without_attempt_bump`; a LIST job has no score. -/
def Coordinator.requeueJob (c : Coordinator) (job : ClaimedJob) : Coordinator :=
  { c with store := (JobStore.requeue c.store (.list .dayClose) job.identity job.ownerToken job.score).2 }

/-! ## `_fill_day_close_slots` -/

/-- `_day_close_identity_sort_key`. -/
def dayCloseIdentitySortKey (identity : String) : String :=
  (dayTokenFromDayCloseIdentity identity).getD "9999-99-99"

/-- The queue with the oldest days in front. -/
def oldestFirst (items : List String) : List String :=
  items.insertionSort fun a b => dayCloseIdentitySortKey a ≤ dayCloseIdentitySortKey b

/-- `skip_budget` at the start of the loop. -/
def skipBudget (cfg : Config) : ℕ := max (cfg.cap * 4) 16

/-- `_prioritize_day_close_list_oldest_first` up to the change of the queue. -/
def beginFill (cfg : Config) (c : Coordinator) : Coordinator :=
  let items := c.store.lists .dayClose
  if items.length ≤ 1 ∨ oldestFirst items = items then c.goto (.fill (skipBudget cfg))
  else c.goto (.prioritize (oldestFirst items))

/-- The claim of the next job. -/
def claimNext (cfg : Config) (c : Coordinator) (budget : ℕ) (nonce : String) (deadline : ℚ) : Coordinator :=
  if c.inflight.size < cfg.cap ∧ 0 < budget then
    match claimList c.store .dayClose (cfg.token nonce) deadline with
    | (.error _, store) => { c with store := store, phase := .crashed }
    | (.ok none, store) => { c with store := store, phase := .idle }
    | (.ok (some job), store) => { c with store := store, phase := .look budget job }
  else c.goto .idle

/-- The job joins the local maps and the pool. -/
def Coordinator.record (c : Coordinator) (job : ClaimedJob) : Coordinator :=
  { c with
    inflight := c.inflight.set job.identity c.tasks.length
    leases := c.leases.set job.identity job
    tasks := c.tasks ++ [⟨job.identity, (), none⟩] }

/-- A claimed job is submitted, unless its tar has yielded lately or the pool is shut down. -/
def lookAtClaim (c : Coordinator) (budget : ℕ) (job : ClaimedJob) (now : ℚ) (submits : Bool) : Coordinator :=
  if c.backoff.yieldBackoffActive job.identity now then (c.requeueJob job).goto (.fill (budget - 1))
  else if !submits then
    { c with
      store := (JobStore.requeue c.store (.list .dayClose) job.identity job.ownerToken none).2
      phase := .idle }
  else (c.record job).goto (.fill budget)

/-! ## `_drain_day_close_ready` -/

/-- `_TRANSIENT_DAY_CLOSE_OUTCOMES`. -/
def transientDayCloseOutcomes : List String := ["deferred_age", "yielded", "skipped", "incomplete_raw"]

/-- The worker raised, or its check of the day failed. -/
def Result.failed : Result → Bool
  | .raised => true
  | .outcome name => name == "verify_failed"

def Result.isComplete : Result → Bool
  | .raised => false
  | .outcome name => name == "complete"

/-- After this outcome the tar waits before it is submitted again. -/
def Result.waits : Result → Bool
  | .raised => false
  | .outcome name =>
      if name = "deferred_age" then false
      else name == "yielded" || name == "incomplete_raw" || !(name ∈ transientDayCloseOutcomes)

/-- What is done with the job of a worker. -/
def settleJob (result : Result) (job : Option ClaimedJob) (todo : List (String × ℕ)) : Phase :=
  match job with
  | none => .drain todo
  | some job =>
      if result.failed then .retry job todo
      else if result.isComplete then .finish job todo
      else .requeue job todo

/-- The backoff of a tar when its worker returned. -/
def noteResult (backoff : JanitorDeferTracker) (identity : String) (result : Result) (now : ℚ) :
    JanitorDeferTracker :=
  if result.failed then backoff
  else if result.isComplete then backoff.clearTar identity
  else if result.waits then backoff.recordYieldBackoff identity now
  else backoff

/-- The entry of one identity in the drain. -/
def collect (c : Coordinator) (identity : String) (n : ℕ) (todo : List (String × ℕ)) (now : ℚ) : Coordinator :=
  match (c.tasks[n]?).bind CallPool.Call.result with
  | none => c.goto (.drain todo)
  | some result =>
      { c with
        inflight := c.inflight.pop identity
        leases := c.leases.pop identity
        backoff := noteResult c.backoff identity result now
        phase := settleJob result (c.leases.get identity) todo }

/-- `_retry_or_dead_letter` up to the count of the attempt; `int` may raise, which ends the thread. -/
def bumpAttempt (c : Coordinator) (job : ClaimedJob) (todo : List (String × ℕ)) : Coordinator :=
  match bumpJobAttempt c.store (.list .dayClose) job.identity with
  | (none, store) => { c with store := store, phase := .crashed, lost := c.lost ++ [job] }
  | (some attempt, store) => { c with store := store, phase := .bumped attempt job todo }

/-! ## Steps -/

inductive Act where
  | other (op : Op)
  /-- A worker returns. -/
  | work (n : ℕ) (result : Result)
  | beginFill
  | prioritize
  | claim (nonce : String) (deadline : ℚ)
  | look (now : ℚ) (submits : Bool)
  | beginDrain
  | collect (now : ℚ)
  | retry
  /-- The end of `_retry_or_dead_letter`. -/
  | settle
  | requeue
  | finish
  | beginReap (now : ℚ)
  | protect (now : ℚ)
  | reap (now : ℚ) (limit : ℤ)

/-- The identities that `_reap_stale_inflight` protects. -/
def reapSkipIdentities (c : Coordinator) : List String :=
  ((c.inflight.entries.map Prod.fst ++ c.leases.entries.map Prod.fst).dedup).filter (· != "")

/-- The coordinator after a step; `none` when it is elsewhere. -/
def step (cfg : Config) (c : Coordinator) : Act → Option Coordinator
  | .other op =>
      if isForeign cfg.toProcess (.list .dayClose) op then
        (JobStore.step c.store op).map fun store => { c with store := store }
      else none
  | .work n result => (CallPool.finish c.tasks n result).map fun tasks => { c with tasks := tasks }
  | .beginFill =>
      match c.phase with
      | .idle => some (beginFill cfg c)
      | _ => none
  | .prioritize =>
      match c.phase with
      | .prioritize ordered =>
          some { c with store := (reorderList c.store .dayClose ordered).2, phase := .fill (skipBudget cfg) }
      | _ => none
  | .claim nonce deadline =>
      match c.phase with
      | .fill budget => some (claimNext cfg c budget nonce deadline)
      | _ => none
  | .look now submits =>
      match c.phase with
      | .look budget job => some (lookAtClaim c budget job now submits)
      | _ => none
  | .beginDrain =>
      match c.phase with
      | .idle => some (c.goto (.drain c.inflight.entries))
      | _ => none
  | .collect now =>
      match c.phase with
      | .drain ((identity, n) :: todo) => some (collect c identity n todo now)
      | .drain [] => some (c.goto .idle)
      | _ => none
  | .retry =>
      match c.phase with
      | .retry job todo => some (bumpAttempt c job todo)
      | _ => none
  | .settle =>
      match c.phase with
      | .bumped attempt job todo =>
          let store := retryOrDeadLetter c.store (.list .dayClose) job attempt cfg.maxAttempts
          some { c with store := store, phase := .drain todo }
      | _ => none
  | .requeue =>
      match c.phase with
      | .requeue job todo => some ((c.requeueJob job).goto (.drain todo))
      | _ => none
  | .finish =>
      match c.phase with
      | .finish job todo =>
          let store := (JobStore.ack c.store (.list .dayClose) job.identity job.ownerToken).2
          some { c with store := store, phase := .drain todo }
      | _ => none
  | .beginReap now =>
      match c.phase with
      | .idle => some (c.goto (.protect now (reapSkipIdentities c)))
      | _ => none
  | .protect now =>
      match c.phase with
      | .protect since (identity :: todo) =>
          let store := (extendInflightDeadline c.store (.list .dayClose) identity (now + extendSeconds)).2
          some { c with store := store, phase := .protect since todo }
      | .protect since [] => some (c.goto (.reap since))
      | _ => none
  | .reap now limit =>
      match c.phase with
      | .reap _ =>
          some { c with store := (reapExpiredInflight c.store (.list .dayClose) now limit).2, phase := .idle }
      | _ => none

end DayCloseCoordinator
