/-
# The append coordinator (`_append_coordinator_loop`)

A second thread of the orchestrator feeds the archive pool.  It claims append jobs one at a time, parks each under
the calendar day of its file, and submits the files of a day in one batch to the writer of that day's tar
(`_fill_append_slots`).  When a writer returns, the jobs of its batch are acknowledged, given back or counted as a
failed attempt; files that the writer passed over because they are not ingested yet are handed to the ingest first
(`_drain_append_ready`).  From time to time it takes back claims whose deadline is over, after it has moved the
deadlines of its own (`_reap_stale_inflight`).

A step does what the thread does up to its next operation of the job store, so that the other threads may come
in between any two of them (`Act.other`), and so may the writers of the pool (`Act.work`).  What the world answers is
an argument of the step.  `lost` has the claims that the thread let go of without telling the store and `handed` the
files that it handed to the ingest; nothing in the source reads them.

The counters for the logs and the telemetry are left out, and so is the sleep between two rounds.
-/
import HpcPerfStats.CallPool
import HpcPerfStats.IngestCoordinator

namespace AppendCoordinator

open OrderedDict PyText JobStore DailyTarPaths

/-! ## Claims by calendar day (`AppendDayClaimLists`) -/

abbrev DayLists := Dict String (List ClaimedJob)

/-- `add`. -/
def DayLists.add (lists : DayLists) (day : String) (job : ClaimedJob) : DayLists :=
  if day = "" then lists else lists.set day ((lists.get day).getD [] ++ [job])

/-- `pop_batch`; a day without claims leaves the map. -/
def DayLists.popBatch (lists : DayLists) (day : String) (n : ℕ) : List ClaimedJob × DayLists :=
  if day = "" ∨ n = 0 then ([], lists)
  else
    match lists.get day with
    | none => ([], lists)
    | some bucket => (bucket.take n, if bucket.drop n = [] then lists.pop day else lists.set day (bucket.drop n))

/-- `peek_len`. -/
def DayLists.peekLen (lists : DayLists) (day : String) : ℕ := ((lists.get day).getD []).length

/-- `peek_first`. -/
def DayLists.peekFirst (lists : DayLists) (day : String) : Option ClaimedJob := (lists.get day).bind List.head?

/-- `day_keys`. -/
def DayLists.dayKeys (lists : DayLists) : List String := lists.entries.map Prod.fst

/-- `claim_identities`. -/
def DayLists.claimIdentities (lists : DayLists) : List String :=
  (lists.entries.flatMap fun e => e.2.map ClaimedJob.identity).filter (· != "")

/-! ## Data -/

/-- What the coordinator is given when it starts. -/
structure Config extends Process where
  /-- `append_cap`. -/
  cap : ℕ
  /-- `get_sync_timedb_tar_append_batch_size()`, at least one. -/
  batchSize : ℕ
  batchSize_pos : 0 < batchSize
  /-- `job_max_attempts()`. -/
  maxAttempts : ℤ
  /-- `queue_capacity_limit()`. -/
  queueCapacity : ℕ
  /-- `discover_ingest_capacity_limit()`. -/
  ingestCapacity : ℕ
  /-- `get_sync_ingest_hot_days()`. -/
  hotDays : ℤ
  tgzArchiveDir : String
  digest : String → ℕ

/-- `APPEND_FILL_SKIP_BUDGET`. -/
def appendFillSkipBudget : ℕ := 8

/-- `ArchiveAppendOutcome`, as far as the drain reads it. -/
structure ArchiveAppendOutcome where
  ok : Bool
  softRequeue : Bool
  gateSkipped : Bool
  skippedPaths : List String
  ingestPendingPaths : List String

/-- What a writer returns: it raises, it gives an outcome, or another value, which may be `False`. -/
inductive Result where
  | raised
  | outcome (o : ArchiveAppendOutcome)
  | plain (falsy : Bool)

/-- A call of `_append_worker` in the archive pool: its tar and its files. -/
abbrev Task := CallPool.Call String (List String) Result

/-- The locals of `_fill_append_slots`: `fill_cap`, `skipped` and `store_exhausted`. -/
structure Fill where
  cap : ℕ
  skipped : ℕ
  exhausted : Bool

/-- What `classify_closed_raw_path` says of a file that is handed to the ingest. -/
structure Plan where
  path : String
  size : ℕ
  mtimeNs : ℤ
  needsIngest : Bool
  needsAppend : Bool

/-- Where the thread is. -/
inductive Phase where
  | idle
  /-- In the loop of `_try_submit_pending_append_days` over the days. -/
  | submit (f : Fill) (days : List String)
  /-- Behind it, in the loop of `_fill_append_slots`. -/
  | claim (f : Fill)
  | look (f : Fill) (job : ClaimedJob)
  /-- The pool refused the batch of these claims, and the exception ends the thread. -/
  | giveBack (jobs : List ClaimedJob)
  /-- In the loop of `_drain_append_ready`. -/
  | drain (todo : List (String × ℕ))
  /-- The batch failed. -/
  | retry (jobs : List ClaimedJob) (todo : List (String × ℕ))
  /-- The failed attempt of the first of these jobs is counted. -/
  | bumped (attempt : ℤ) (job : ClaimedJob) (jobs : List ClaimedJob) (todo : List (String × ℕ))
  /-- The batch is to be tried again. -/
  | requeue (jobs : List ClaimedJob) (todo : List (String × ℕ))
  | handOff (paths : List String) (tar : String) (jobs : List ClaimedJob) (todo : List (String × ℕ))
  /-- The batch is done. -/
  | finish (tar : String) (jobs : List ClaimedJob) (todo : List (String × ℕ))
  | protect (since : ℚ) (todo : List String)
  | reap (since : ℚ)
  | crashed

/-- The maps of the coordinator beside the job store, and the calls that its pool has had. -/
structure Coordinator where
  store : Store
  parked : DayLists
  inflight : Dict String ℕ
  claims : Dict String (List ClaimedJob)
  tasks : List Task
  phase : Phase
  lost : List ClaimedJob
  handed : List String

def Coordinator.init (store : Store) : Coordinator where
  store := store
  parked := Dict.empty
  inflight := Dict.empty
  claims := Dict.empty
  tasks := []
  phase := .idle
  lost := []
  handed := []

def Coordinator.goto (c : Coordinator) (phase : Phase) : Coordinator := { c with phase := phase }

/-- `jq.ack_job`. -/
def Coordinator.ackJob (c : Coordinator) (job : ClaimedJob) : Coordinator :=
  { c with store := (JobStore.ack c.store (.list .append) job.identity job.ownerToken).2 }

/-- `jq.requeue_job`. -/
def Coordinator.requeueJob (c : Coordinator) (job : ClaimedJob) : Coordinator :=
  { c with store := (JobStore.requeue c.store (.list .append) job.identity job.ownerToken none).2 }

/-! ## `_fill_append_slots` -/

/-- The head of the loop. -/
def Coordinator.loopHead (c : Coordinator) (f : Fill) : Coordinator :=
  c.goto (if c.inflight.size < f.cap then .submit f c.parked.dayKeys else .idle)

/-- What memory says before the loop. -/
def beginFill (cfg : Config) (c : Coordinator) (headroomOk fileCacheOk : Bool) : Coordinator :=
  if !headroomOk then c.goto .idle
  else if fileCacheOk then c.loopHead ⟨cfg.cap, 0, false⟩
  else if 1 < c.inflight.size then c.goto .idle
  else c.loopHead ⟨min 2 (max 1 cfg.cap), 0, false⟩

/-- The batch of a day joins the local maps and the pool. -/
def Coordinator.record (c : Coordinator) (tar : String) (jobs : List ClaimedJob) : Coordinator :=
  { c with
    inflight := c.inflight.set tar c.tasks.length
    claims := c.claims.set tar jobs
    tasks := c.tasks ++ [⟨tar, jobs.map ClaimedJob.identity, none⟩] }

/-- A short batch of a day may go: nothing more is to come for it (`tail_ok`). -/
def tailOk (cfg : Config) (pending appendLeft ingestLeft : ℕ) (discoverBusy : Bool) : Bool :=
  decide (0 < appendLeft) && decide (appendLeft ≤ cfg.batchSize) && ingestLeft == 0 && !discoverBusy &&
    decide (appendLeft ≤ pending)

/-- A batch of a day goes to the writer of its tar, unless that one is busy. -/
def submitBatch (cfg : Config) (c : Coordinator) (f : Fill) (day : String) (days : List String) (tar : String)
    (submits : Bool) : Coordinator :=
  if (c.inflight.get tar).isSome then c.goto (.submit f days)
  else
    let (jobs, parked) := c.parked.popBatch day (min cfg.batchSize (c.parked.peekLen day))
    let c := { c with parked := parked }
    if jobs = [] then c.goto (.submit f days)
    else if !submits then c.goto (.giveBack jobs)
    else (c.record tar jobs).goto (.submit f days)

/-- One day of `_try_submit_pending_append_days`; `fileDate` is the date of its oldest claim. -/
def submitDay (cfg : Config) (c : Coordinator) (f : Fill) (day : String) (days : List String)
    (appendLeft ingestLeft : ℕ) (discoverBusy : Bool) (fileDate : Option Date) (submits : Bool) : Coordinator :=
  let pending := c.parked.peekLen day
  if c.inflight.size ≥ f.cap then c.goto (.claim f)
  else if pending = 0 then c.goto (.submit f days)
  else if !f.exhausted && decide (pending < cfg.batchSize) &&
      !tailOk cfg pending appendLeft ingestLeft discoverBusy then c.goto (.submit f days)
  else
    match dailyTarPath cfg.tgzArchiveDir fileDate with
    | none => c.goto (.submit f days)
    | some tar => submitBatch cfg c f day days tar submits

/-- The claim of the next job. -/
def claimNext (cfg : Config) (c : Coordinator) (f : Fill) (nonce : String) (deadline : ℚ) : Coordinator :=
  if c.inflight.size ≥ f.cap then c.goto .idle
  else if f.exhausted then c.goto .idle
  else if f.skipped ≥ appendFillSkipBudget then c.goto .idle
  else
    match claimList c.store .append (cfg.token nonce) deadline with
    | (.error _, store) => { c with store := store, phase := .crashed }
    | (.ok none, store) => { c with store := store }.loopHead { f with exhausted := true }
    | (.ok (some job), store) => { c with store := store, phase := .look f job }

/-- A claimed job is parked, unless its file is gone or has no day. -/
def lookAtClaim (cfg : Config) (c : Coordinator) (f : Fill) (job : ClaimedJob) (isFile : Bool)
    (fileDate : Option Date) : Coordinator :=
  let skip := (c.ackJob job).loopHead { f with skipped := f.skipped + 1 }
  if job.identity = "" ∨ isFile = false then skip
  else
    match dailyTarPath cfg.tgzArchiveDir fileDate with
    | none => skip
    | some tar =>
        match calendarDateFromDailyTarPath tar with
        | none => skip
        | some day =>
            if (c.inflight.get tar).isSome ∧ cfg.batchSize ≤ c.parked.peekLen day.isoformat then
              (c.requeueJob job).goto .idle
            else { c with parked := c.parked.add day.isoformat job }.loopHead f

/-! ## `_drain_append_ready` -/

/-- The files that the writer passed over because the database does not have them. -/
def handoffPaths : Result → List String
  | .outcome o => if o.gateSkipped then o.skippedPaths else o.ingestPendingPaths
  | _ => []

/-- The batch is done: it was appended, or its files are handed to the ingest. -/
def Result.isDone : Result → Bool
  | .raised => false
  | .outcome o => !o.softRequeue && (o.ok || o.gateSkipped)
  | .plain falsy => !falsy

/-- What is done with a batch. -/
def settleBatch (result : Result) (tar : String) (jobs : List ClaimedJob) (todo : List (String × ℕ)) : Phase :=
  match result with
  | .raised => .retry jobs todo
  | .plain true => .retry jobs todo
  | .plain false => .finish tar jobs todo
  | .outcome o =>
      if o.softRequeue then .requeue jobs todo
      else if !o.ok && !o.gateSkipped then .retry jobs todo
      else if handoffPaths (.outcome o) = [] then .finish tar jobs todo
      else .handOff (handoffPaths (.outcome o)) tar jobs todo

/-- The entry of one tar in the drain. -/
def collect (c : Coordinator) (tar : String) (n : ℕ) (todo : List (String × ℕ)) : Coordinator :=
  match (c.tasks[n]?).bind CallPool.Call.result with
  | none => c.goto (.drain todo)
  | some result =>
      let jobs := (c.claims.get tar).getD []
      { c with
        inflight := c.inflight.pop tar
        claims := c.claims.pop tar
        phase := settleBatch result tar jobs todo }

/-- `_retry_or_dead_letter` up to the count of the attempt; `int` may raise, which ends the thread. -/
def bumpAttempt (c : Coordinator) (job : ClaimedJob) (jobs : List ClaimedJob) (todo : List (String × ℕ)) :
    Coordinator :=
  match bumpJobAttempt c.store (.list .append) job.identity with
  | (none, store) => { c with store := store, phase := .crashed, lost := c.lost ++ job :: jobs }
  | (some attempt, store) => { c with store := store, phase := .bumped attempt job jobs todo }

/-- One file of `_handoff_retryable_paths_to_ingest`: `plan` is missing when it is no file or when it raised. -/
def handOffPath (cfg : Config) (s : Store) (tar : String) (today : ℤ) (plan : Option Plan) : Store :=
  match plan with
  | none => s
  | some plan =>
      if plan.needsIngest then
        match calendarDateFromDailyTarPath tar with
        | none => s
        | some day =>
            let day : ℤ := day.toordinal
            let band := IngestCoordinator.selectIngestBand day today cfg.hotDays
            let score := encodeIngestScore cfg.digest band day today plan.path
            let fingerprint := IngestCoordinator.ingestFingerprint plan.size plan.mtimeNs
            (zaddIngest s plan.path score (some fingerprint) cfg.ingestCapacity).2
      else if plan.needsAppend then (enqueueList s .append plan.path true cfg.queueCapacity).2
      else s

/-- `enqueue_cheap_day_close_if_needed`; `tooYoung` says that the day has not had its minimum age. -/
def enqueueCheapDayClose (cfg : Config) (s : Store) (tar : String) (tooYoung : Bool) : Store :=
  if tooYoung then s else (enqueueList s .dayClose tar true cfg.queueCapacity).2

/-! ## Steps -/

inductive Act where
  | other (op : Op)
  /-- A writer returns. -/
  | work (n : ℕ) (result : Result)
  | beginFill (headroomOk fileCacheOk : Bool)
  | submit (appendLeft ingestLeft : ℕ) (discoverBusy : Bool) (fileDate : Option Date) (submits : Bool)
  | claim (nonce : String) (deadline : ℚ)
  | look (isFile : Bool) (fileDate : Option Date)
  | giveBack
  | beginDrain
  | collect
  | retry
  /-- The end of `_retry_or_dead_letter`. -/
  | settle
  | requeue
  | handOff (today : ℤ) (plan : Option Plan)
  | finish (tooYoung : Bool)
  | beginReap (now : ℚ)
  | protect (now : ℚ)
  | reap (now : ℚ) (limit : ℤ)

/-- `_append_reap_skip_identities`, without repetitions and without the empty identity. -/
def appendReapSkipIdentities (c : Coordinator) : List String :=
  let held := c.claims.entries.flatMap fun e => e.2.map ClaimedJob.identity
  ((c.inflight.entries.map Prod.fst ++ c.claims.entries.map Prod.fst ++ held ++ c.parked.claimIdentities).dedup).filter
    (· != "")

/-- The coordinator after a step; `none` when it is elsewhere. -/
def step (cfg : Config) (c : Coordinator) : Act → Option Coordinator
  | .other op =>
      if isForeign cfg.toProcess (.list .append) op then
        (JobStore.step c.store op).map fun store => { c with store := store }
      else none
  | .work n result => (CallPool.finish c.tasks n result).map fun tasks => { c with tasks := tasks }
  | .beginFill headroomOk fileCacheOk =>
      match c.phase with
      | .idle => some (beginFill cfg c headroomOk fileCacheOk)
      | _ => none
  | .submit appendLeft ingestLeft discoverBusy fileDate submits =>
      match c.phase with
      | .submit f (day :: days) =>
          some (submitDay cfg c f day days appendLeft ingestLeft discoverBusy fileDate submits)
      | .submit f [] => some (c.goto (.claim f))
      | _ => none
  | .claim nonce deadline =>
      match c.phase with
      | .claim f => some (claimNext cfg c f nonce deadline)
      | _ => none
  | .look isFile fileDate =>
      match c.phase with
      | .look f job => some (lookAtClaim cfg c f job isFile fileDate)
      | _ => none
  | .giveBack =>
      match c.phase with
      | .giveBack (job :: jobs) => some ((c.requeueJob job).goto (.giveBack jobs))
      | .giveBack [] => some (c.goto .crashed)
      | _ => none
  | .beginDrain =>
      match c.phase with
      | .idle => some (c.goto (.drain c.inflight.entries))
      | _ => none
  | .collect =>
      match c.phase with
      | .drain ((tar, n) :: todo) => some (collect c tar n todo)
      | .drain [] => some (c.goto .idle)
      | _ => none
  | .retry =>
      match c.phase with
      | .retry (job :: jobs) todo => some (bumpAttempt c job jobs todo)
      | .retry [] todo => some (c.goto (.drain todo))
      | _ => none
  | .settle =>
      match c.phase with
      | .bumped attempt job jobs todo =>
          let store := retryOrDeadLetter c.store (.list .append) job attempt cfg.maxAttempts
          some { c with store := store, phase := .retry jobs todo }
      | _ => none
  | .requeue =>
      match c.phase with
      | .requeue (job :: jobs) todo => some ((c.requeueJob job).goto (.requeue jobs todo))
      | .requeue [] todo => some (c.goto (.drain todo))
      | _ => none
  | .handOff today plan =>
      match c.phase with
      | .handOff (path :: paths) tar jobs todo =>
          some { c with
            store := handOffPath cfg c.store tar today plan
            handed := c.handed ++ [path]
            phase := .handOff paths tar jobs todo }
      | .handOff [] tar jobs todo => some (c.goto (.finish tar jobs todo))
      | _ => none
  | .finish tooYoung =>
      match c.phase with
      | .finish tar (job :: jobs) todo => some ((c.ackJob job).goto (.finish tar jobs todo))
      | .finish tar [] todo =>
          some { c with store := enqueueCheapDayClose cfg c.store tar tooYoung, phase := .drain todo }
      | _ => none
  | .beginReap now =>
      match c.phase with
      | .idle => some (c.goto (.protect now (appendReapSkipIdentities c)))
      | _ => none
  | .protect now =>
      match c.phase with
      | .protect since (identity :: todo) =>
          let store := (extendInflightDeadline c.store (.list .append) identity (now + extendSeconds)).2
          some { c with store := store, phase := .protect since todo }
      | .protect since [] => some (c.goto (.reap since))
      | _ => none
  | .reap now limit =>
      match c.phase with
      | .reap _ => some { c with store := (reapExpiredInflight c.store (.list .append) now limit).2, phase := .idle }
      | _ => none

end AppendCoordinator
