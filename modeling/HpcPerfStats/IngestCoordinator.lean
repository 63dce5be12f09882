/-
# The ingest coordinator (`_ingest_coordinator_loop`)

One thread of the orchestrator feeds the ingest pool.  It claims ingest jobs in batches, looks at each claimed
file, asks whether memory admits it, and submits it to the pool (`_fill_ingest_band`).  It collects what the
workers return and acknowledges the job, gives it back or counts a failed attempt (`_drain_ingest_ready`).  From
time to time it gives back what a pool that is recycled was working on, drops local entries that the store does
not know, and takes back claims whose deadline is over, after it has moved the deadlines of its own
(`_reap_stale_inflight`).

A step does what the thread does up to its next operation of the job store, so that the other threads may come
in between any two of them (`Act.other`).  What the world answers is an argument of the step: the clock, the
state of a file, what a worker returned, whether memory admits a file.  `lost` has the claims that the thread let
go of without telling the store; nothing in the source reads it.

The counters for the logs and the telemetry are left out, and so is the sleep between two rounds.
-/
import HpcPerfStats.IngestRecovery
import HpcPerfStats.Custodians
import HpcPerfStats.DailyTarPaths

namespace IngestCoordinator

open OrderedDict PyText JobStore DailyTarPaths

/-! ## Data -/

/-- What stands in the local map for a job: the result of the pool, or `_IngestTimeoutSentinel`. -/
inductive Slot where
  | running
  | sentinel
  deriving DecidableEq

/-- What the coordinator is given when it starts. -/
structure Config extends Process where
  /-- `ingest_pool_size`. -/
  pool : ℕ
  /-- `job_max_attempts()`. -/
  maxAttempts : ℤ
  /-- `queue_capacity_limit()`. -/
  queueCapacity : ℕ
  digest : String → ℕ

/-- The arguments of `_fill_ingest_band` and its count of skips. -/
structure Fill where
  band : Band
  bandCap : Option ℕ
  budget : ℕ
  skipped : ℕ

/-- What `AsyncResult.ready` and `AsyncResult.get` say: a timeout is rich when it has a stage or an elapsed time,
and `marked` says that the marks of the file were recorded. -/
inductive Collected where
  | notReady
  | timeout (rich : Bool)
  | databaseError
  | error
  | result (ingestOk needArchival : Bool) (outcome : String) (marked : Bool)

/-- Where the thread is. -/
inductive Phase where
  | idle
  /-- At the head of the loop of `_fill_ingest_band`. -/
  | fill (f : Fill)
  /-- In its loop over the batch. -/
  | batch (f : Fill) (rest : List ClaimedJob)
  /-- The file of this claim is there; memory decides next. -/
  | gate (f : Fill) (job : ClaimedJob) (size : ℕ) (rest : List ClaimedJob)
  | drain (todo : List (String × Slot))
  /-- The failed attempt is counted. -/
  | retry (job : ClaimedJob) (attempt : ℤ) (todo : List (String × Slot))
  /-- The job is done and its append is queued. -/
  | finish (identity : String) (job : ClaimedJob) (todo : List (String × Slot))
  | recycle (todo : List String)
  | prune (todo : List String)
  | protect (since : ℚ) (todo : List String)
  | reap (since : ℚ)
  | drop (todo : List (String × Slot))
  | crashed

/-- The maps of the coordinator beside the job store. -/
structure Coordinator where
  store : Store
  inflight : Dict String Slot
  claims : Dict String ClaimedJob
  submitted : Dict String ℚ
  sizes : Dict String ℕ
  bandUsed : Band → ℕ
  phase : Phase
  lost : List ClaimedJob

def Coordinator.init (store : Store) : Coordinator where
  store := store
  inflight := Dict.empty
  claims := Dict.empty
  submitted := Dict.empty
  sizes := Dict.empty
  bandUsed := fun _ => 0
  phase := .idle
  lost := []

/-! ## Paths, bands and scores -/

/-- `_path_from_ingest_identity`. -/
def pathFromIngestIdentity (identity : String) : String :=
  let parts := splitSep '|' identity
  if parts.length ≤ 1 then identity
  else "|".intercalate (parts.take (max 1 (parts.length - 2)))

/-- `_is_ingest_lock_sidecar_path`. -/
def isIngestLockSidecarPath (path : String) : Bool :=
  ".fnctl.lock".toList.isSuffixOf (basename path).toList || ".lock".toList.isSuffixOf (basename path).toList

/-- `ingest_fingerprint`. -/
def ingestFingerprint (size : ℕ) (mtimeNs : ℤ) : String := toString size ++ "|" ++ toString mtimeNs

/-- `select_ingest_band`. -/
def selectIngestBand (day today hotDays : ℤ) : Band :=
  let age := today - day
  if age < 0 then .hot else if age < max 1 hotDays then .hot else .catchup

/-- `_penalized_ingest_requeue_score`. -/
def penalizedIngestRequeueScore (score : Option ℚ) : ℚ :=
  score.getD catchupScoreBase + leaseConflictScorePenalty

/-- The score with which `_reband_claimed_ingest_if_needed` gives a claim back; `none` when it keeps it. -/
def rebandScore (digest : String → ℕ) (job : ClaimedJob) (day : Option ℤ) (today hotDays : ℤ) : Option ℚ :=
  match day with
  | none => none
  | some day =>
      let band := selectIngestBand day today hotDays
      let claimedBand := (job.score.map decodeIngestBand).getD band
      if band = claimedBand then none
      else some (penalizedIngestRequeueScore (some (encodeIngestScore digest band day today job.identity)))

/-- `can_admit_ingest_raw_bytes`. -/
def canAdmitIngestRawBytes (inflightBytes size : ℕ) (budgetBytes : ℤ) : Bool :=
  if budgetBytes ≤ 0 then true
  else if ((inflightBytes + size : ℕ) : ℤ) ≤ budgetBytes then true
  else inflightBytes == 0 && decide (budgetBytes < size)

/-- `_ingest_claim_band_key`. -/
def ingestClaimBandKey (job : ClaimedJob) : Band := (job.score.map decodeIngestBand).getD .hot

/-- `_count_ingest_band_inflight`. -/
def countIngestBandInflight (claims : Dict String ClaimedJob) (band : Band) : ℕ :=
  claims.count fun job => ingestClaimBandKey job == band

/-- `sum(inflight_sizes.values())`. -/
def inflightSum (sizes : Dict String ℕ) : ℕ := (sizes.entries.map Prod.snd).sum

/-! ## The local maps and single operations -/

/-- The job leaves the local maps. -/
def Coordinator.forget (c : Coordinator) (identity : String) : Coordinator :=
  { c with
    inflight := c.inflight.pop identity
    claims := c.claims.pop identity
    submitted := c.submitted.pop identity
    sizes := c.sizes.pop identity }

/-- The job joins the local maps. -/
def Coordinator.record (c : Coordinator) (job : ClaimedJob) (now : ℚ) (size : ℕ) : Coordinator :=
  { c with
    inflight := c.inflight.set job.identity .running
    claims := c.claims.set job.identity job
    submitted := c.submitted.set job.identity now
    sizes := c.sizes.set job.identity size }

/-- `jq.ack_job`. -/
def Coordinator.ackJob (c : Coordinator) (identity : String) (job : ClaimedJob) : Coordinator :=
  { c with store := (JobStore.ack c.store .ingest identity job.ownerToken).2 }

/-- `jq.requeue_job`. -/
def Coordinator.requeueJob (c : Coordinator) (identity : String) (job : ClaimedJob) (score : Option ℚ) :
    Coordinator :=
  { c with store := (requeue c.store .ingest identity job.ownerToken score).2 }

def Coordinator.goto (c : Coordinator) (phase : Phase) : Coordinator := { c with phase := phase }

/-! ## `_fill_ingest_band` -/

/-- The end of the loop over the batch. -/
def Coordinator.leaveBatch (c : Coordinator) (f : Fill) : Coordinator :=
  c.goto (if f.skipped ≥ f.budget then .idle else .fill f)

/-- `continue`. -/
def Coordinator.nextClaim (c : Coordinator) (f : Fill) (rest : List ClaimedJob) : Coordinator :=
  match rest with
  | [] => c.leaveBatch f
  | _ :: _ => c.goto (.batch f rest)

/-- `break`: nothing is done with the rest of the batch. -/
def Coordinator.breakBatch (c : Coordinator) (f : Fill) (rest : List ClaimedJob) : Coordinator :=
  { c.leaveBatch f with lost := c.lost ++ rest }

/-- A claim is skipped, and the loop breaks when the budget is used up. -/
def Coordinator.skipClaim (c : Coordinator) (f : Fill) (rest : List ClaimedJob) : Coordinator :=
  let f := { f with skipped := f.skipped + 1 }
  if f.skipped ≥ f.budget then c.breakBatch f rest else c.nextClaim f rest

/-- The size of the batch. -/
def batchSize (cfg : Config) (c : Coordinator) (f : Fill) : ℕ :=
  let freeTotal := cfg.pool - c.inflight.size
  let freeBand := match f.bandCap with
    | some bandCap => bandCap - c.bandUsed f.band
    | none => freeTotal
  max 1 (min freeTotal (min freeBand (max 1 (f.budget - f.skipped))))

/-- One round of the outer loop: it ends, or a batch is claimed. -/
def claimBatch (cfg : Config) (c : Coordinator) (f : Fill) (queueFull : Bool) (nonce : String) (deadline : ℚ)
    (fuel : ℕ) : Option Coordinator :=
  if ¬ c.inflight.size < cfg.pool then some (c.goto .idle)
  else if queueFull then some (c.goto .idle)
  else if f.bandCap.any fun bandCap => bandCap ≤ c.bandUsed f.band then some (c.goto .idle)
  else
    let owner := cfg.token nonce
    match claimIngest c.store f.band owner deadline (batchSize cfg c f) fuel with
    | none => none
    | some (.error _, store) => some { c with store := store, phase := .crashed }
    | some (.ok [], store) => some { c with store := store, phase := .idle }
    | some (.ok (job :: jobs), store) => some { c with store := store, phase := .batch f (job :: jobs) }

/-- A claim of the batch up to the look at its file; `stat` has the size and the time of the last change. -/
def inspectClaim (cfg : Config) (c : Coordinator) (f : Fill) (job : ClaimedJob) (rest : List ClaimedJob)
    (day : Option ℤ) (today hotDays : ℤ) (stat : Option (ℕ × ℤ)) : Coordinator :=
  if c.inflight.size ≥ cfg.pool then (c.requeueJob job.identity job job.score).nextClaim f rest
  else if f.bandCap.any fun bandCap => bandCap ≤ c.bandUsed f.band then
    (c.requeueJob job.identity job job.score).breakBatch f rest
  else
    match rebandScore cfg.digest job day today hotDays with
    | some score => (c.requeueJob job.identity job (some score)).skipClaim f rest
    | none =>
        let path := pathFromIngestIdentity job.identity
        if isIngestLockSidecarPath (if path = "" then job.identity else path) then
          (c.ackJob job.identity job).skipClaim f rest
        else
          match if path = "" then none else stat with
          | none => (c.ackJob job.identity job).skipClaim f rest
          | some (size, mtimeNs) =>
              let fingerprint := ingestFingerprint size mtimeNs
              -- a file that has grown is admitted with its new fingerprint
              if job.fingerprint ≠ "" ∧ job.fingerprint ≠ fingerprint then
                { c with store := writeJobFingerprint c.store .ingest job.identity fingerprint
                         phase := .gate f job size rest }
              else c.goto (.gate f job size rest)

/-- What memory says to a claim, and its submission to the pool. -/
def admitClaim (c : Coordinator) (f : Fill) (job : ClaimedJob) (size : ℕ) (rest : List ClaimedJob)
    (budgetBytes : ℤ) (headroomOk fileCacheOk submits : Bool) (now : ℚ) : Coordinator :=
  let sum := inflightSum c.sizes
  let penalized := some (penalizedIngestRequeueScore job.score)
  let aloneOversized := sum == 0 && decide (0 < budgetBytes) && decide (budgetBytes < size)
  let aloneFileCache := decide (c.sizes.size ≤ 1) && (c.sizes.get job.identity).isNone
  if !canAdmitIngestRawBytes sum size budgetBytes then (c.requeueJob job.identity job penalized).skipClaim f rest
  else if !aloneOversized && !headroomOk then (c.requeueJob job.identity job penalized).skipClaim f rest
  else if !fileCacheOk && !aloneFileCache then (c.requeueJob job.identity job penalized).skipClaim f rest
  else if !submits then
    -- the exception ends the thread, and with it the process
    { c.requeueJob job.identity job job.score with phase := .crashed, lost := c.lost ++ rest }
  else
    let c := c.record job now size
    { c with bandUsed := Function.update c.bandUsed f.band (c.bandUsed f.band + 1) }.nextClaim f rest

/-! ## `_drain_ingest_ready` -/

/-- `_requeue_claimed_job_without_attempt_bump`. -/
def requeueWithoutBump (c : Coordinator) (claim : Option ClaimedJob) : Coordinator :=
  match claim with
  | none => c
  | some job => c.requeueJob job.identity job job.score

/-- `_retry_or_dead_letter` up to the count of the attempt; `int` may raise, which ends the thread. -/
def bumpAttempt (c : Coordinator) (claim : Option ClaimedJob) (todo : List (String × Slot)) : Coordinator :=
  match claim with
  | none => c.goto (.drain todo)
  | some job =>
      match bumpJobAttempt c.store .ingest job.identity with
      | (none, store) => { c with store := store, phase := .crashed, lost := c.lost ++ [job] }
      | (some attempt, store) => { c with store := store, phase := .retry job attempt todo }

/-- What is done with a result that was got. -/
def collectResult (cfg : Config) (c : Coordinator) (identity : String) (todo : List (String × Slot))
    (ingestOk needArchival : Bool) (outcome : String) (marked : Bool) : Coordinator :=
  let claim := c.claims.get identity
  let c := c.forget identity
  if !ingestOk then
    if outcome = "timeout" ∨ outcome = "lookup_budget" then
      (requeueWithoutBump c claim).goto (.drain todo)
    else bumpAttempt c claim todo
  else if !marked then bumpAttempt c claim todo
  else
    let path := pathFromIngestIdentity identity
    if needArchival && path ≠ "" then
      let store := (enqueueList c.store .append path true cfg.queueCapacity).2
      { c with store := store, phase := match claim with
          | some job => .finish identity job todo
          | none => .drain todo }
    else
      match claim with
      | some job => (c.ackJob identity job).goto (.drain todo)
      | none => c.goto (.drain todo)

/-- The entry of one job in the drain; a sentinel is always ready and raises its bare timeout again. -/
def collect (cfg : Config) (c : Coordinator) (identity : String) (slot : Slot) (todo : List (String × Slot))
    (answer : Collected) : Coordinator :=
  if slot = .sentinel then c.goto (.drain todo)
  else
    match answer with
    | .notReady => c.goto (.drain todo)
    | .timeout rich =>
        if !rich then { c with inflight := c.inflight.set identity .sentinel, phase := .drain todo }
        else (requeueWithoutBump (c.forget identity) (c.claims.get identity)).goto (.drain todo)
    | .databaseError =>
        -- the database refused, which is not the fault of the file
        match c.claims.get identity with
        | some job => ((c.forget identity).ackJob identity job).goto (.drain todo)
        | none => bumpAttempt (c.forget identity) none todo
    | .error => bumpAttempt (c.forget identity) (c.claims.get identity) todo
    | .result ingestOk needArchival outcome marked =>
        collectResult cfg c identity todo ingestOk needArchival outcome marked

/-! ## Recycle, reconciliation and reap -/

/-- One job of `_requeue_pool_collateral`. -/
def giveBackCollateral (c : Coordinator) (identity : String) : Coordinator :=
  match c.claims.get identity with
  | none => c.forget identity
  | some job => (c.forget identity).requeueJob identity job job.score

/-- One job of `_reconcile_local_ingest_maps_to_store`; `ready` is what its result says. -/
def pruneLocal (c : Coordinator) (identity : String) (ready : Bool) : Coordinator :=
  let isReady := match c.inflight.get identity with
    | some .running => ready
    | some .sentinel => true
    | none => false
  if isReady then c
  else if ((c.store.inflight .ingest).get identity).isSome || (c.store.leases.get (.ingest, identity)).isSome then c
  else c.forget identity

/-- One job of `_drop_expired_ingest_timeout_sentinels`. -/
def dropSentinel (c : Coordinator) (identity : String) (slot : Slot) : Coordinator :=
  if slot ≠ .sentinel then c
  else if ((c.store.inflight .ingest).get identity).isSome then c
  else c.forget identity

/-! ## Steps -/

inductive Act where
  | other (op : Op)
  /-- The start of `_ingest_coordinator_fill_tick`. -/
  | countBands
  | beginFill (band : Band) (bandCap : Option ℕ) (skipBudget : ℕ)
  | claim (queueFull : Bool) (nonce : String) (deadline : ℚ) (fuel : ℕ)
  | inspect (day : Option ℤ) (today hotDays : ℤ) (stat : Option (ℕ × ℤ))
  | offer (budgetBytes : ℤ) (headroomOk fileCacheOk submits : Bool) (now : ℚ)
  | beginDrain
  | collect (answer : Collected)
  | endDrain
  /-- `_retry_or_dead_letter` or the acknowledgement that a drained job waits for. -/
  | settle
  | beginRecycle
  | recycle
  | beginPrune
  | prune (ready : Bool)
  /-- The two halves of `_ingest_runtime_lease_hygiene`. -/
  | reconcileOrphans (nonce : String)
  | steal (here : Local)
  | beginReap (now : ℚ)
  | protect (now : ℚ)
  | reap (now : ℚ) (limit : ℤ)
  | drop

/-- `_ingest_reaper_skip_identities`, without repetitions and without the empty identity: the jobs whose deadlines
are moved before a reap. -/
def reaperSkipIdentities (c : Coordinator) : List String :=
  let results := (c.inflight.entries.filter fun e => e.2 != .sentinel).map Prod.fst
  let leases := (c.claims.entries.map Prod.fst).filter fun identity => c.inflight.get identity != some .sentinel
  (results ++ leases).dedup.filter (· != "")

/-- The coordinator after a step; `none` when it is elsewhere. -/
def step (cfg : Config) (c : Coordinator) : Act → Option Coordinator
  | .other op =>
      if isForeign cfg.toProcess .ingest op then
        (JobStore.step c.store op).map fun store => { c with store := store }
      else none
  | .countBands =>
      match c.phase with
      | .idle => some { c with bandUsed := countIngestBandInflight c.claims }
      | _ => none
  | .beginFill band bandCap skipBudget =>
      match c.phase with
      | .idle => some (c.goto (.fill ⟨band, bandCap, skipBudget, 0⟩))
      | _ => none
  | .claim queueFull nonce deadline fuel =>
      match c.phase with
      | .fill f => claimBatch cfg c f queueFull nonce deadline fuel
      | _ => none
  | .inspect day today hotDays stat =>
      match c.phase with
      | .batch f (job :: rest) => some (inspectClaim cfg c f job rest day today hotDays stat)
      | _ => none
  | .offer budgetBytes headroomOk fileCacheOk submits now =>
      match c.phase with
      | .gate f job size rest => some (admitClaim c f job size rest budgetBytes headroomOk fileCacheOk submits now)
      | _ => none
  | .beginDrain =>
      match c.phase with
      | .idle => some (c.goto (.drain c.inflight.entries))
      | _ => none
  | .collect answer =>
      match c.phase with
      | .drain ((identity, slot) :: todo) => some (collect cfg c identity slot todo answer)
      | _ => none
  | .endDrain =>
      match c.phase with
      | .drain [] => some (c.goto .idle)
      | _ => none
  | .settle =>
      match c.phase with
      | .retry job attempt todo =>
          let store := retryOrDeadLetter c.store .ingest job attempt cfg.maxAttempts
          some { c with store := store, phase := .drain todo }
      | .finish identity job todo => some ((c.ackJob identity job).goto (.drain todo))
      | _ => none
  | .beginRecycle =>
      match c.phase with
      | .idle => some (c.goto (.recycle (c.inflight.entries.map Prod.fst)))
      | _ => none
  | .recycle =>
      match c.phase with
      | .recycle (identity :: todo) => some ((giveBackCollateral c identity).goto (.recycle todo))
      | .recycle [] => some (c.goto .idle)
      | _ => none
  | .beginPrune =>
      match c.phase with
      | .idle =>
          let others := (c.claims.entries.map Prod.fst).filter fun identity => (c.inflight.get identity).isNone
          some (c.goto (.prune (c.inflight.entries.map Prod.fst ++ others)))
      | _ => none
  | .prune ready =>
      match c.phase with
      | .prune (identity :: todo) => some ((pruneLocal c identity ready).goto (.prune todo))
      | .prune [] => some (c.goto .idle)
      | _ => none
  | .reconcileOrphans nonce =>
      match c.phase with
      | .idle =>
          let known := c.inflight.entries.map Prod.fst ++ c.claims.entries.map Prod.fst
          let owner := cfg.token nonce
          some { c with store := (reconcileThisOwnerOrphanLeases c.store .ingest known owner).2 }
      | _ => none
  | .steal here =>
      match c.phase with
      | .idle =>
          if here.alive cfg.pid then some { c with store := (stealDeadOwnerLeases c.store here).2 } else none
      | _ => none
  | .beginReap now =>
      match c.phase with
      | .idle => some (c.goto (.protect now (reaperSkipIdentities c)))
      | _ => none
  | .protect now =>
      match c.phase with
      | .protect since (identity :: todo) =>
          let store := (extendInflightDeadline c.store .ingest identity (now + extendSeconds)).2
          some { c with store := store, phase := .protect since todo }
      | .protect since [] => some (c.goto (.reap since))
      | _ => none
  | .reap now limit =>
      match c.phase with
      | .reap _ =>
          let store := (reapExpiredInflight c.store .ingest now limit).2
          some { c with store := store, phase := .drop c.inflight.entries }
      | _ => none
  | .drop =>
      match c.phase with
      | .drop ((identity, slot) :: todo) => some ((dropSentinel c identity slot).goto (.drop todo))
      | .drop [] => some (c.goto .idle)
      | _ => none

end IngestCoordinator
