/-
# The sliding metrics session

`run_metrics_sliding_session` keeps up to a fixed number of jobs in the worker pool.  The primary refs go in
first; once they are all in flight, idle slots are filled from the ready queue.  A job passes through the
metrics phase, the persist call of the parent and, where that succeeded, a prewarm, inline or in the pool.

* `Event` is what one turn of the main loop meets: the shutdown flag, the results that are ready, the
  answers of the worker, of the persist call and of the prewarm, and whether the session has stalled;
* `turn` is one turn of the loop, `loop` the turns one after another, `session` the call;
* `Reports` says that every ref the session selected has exactly one result with the ok of its persist
  outcome, and that the ready queue lost only what was popped, each below the hard limit;
* `RunClean` says that no turn gives up while a primary ref waits or a persisted ref is in its prewarm.
-/
import HpcPerfStats.IdleSlotSupplement

namespace SlidingSession

open IdleSlotSupplement

/-! ## The session -/

/-- What `except Exception as exc` reads of an exception. -/
structure Raised where
  typeName : String
  text : String

/-- The outcome dict of a job. -/
structure Outcome where
  jid : String
  ok : Bool
  status : String
  errorType : String
  errorMessage : String

/-- The phase of a pending item.  Only an item whose persist outcome is ok goes on to the prewarm. -/
inductive Phase where
  | metrics
  | prewarm (baseOutcome : Outcome) (saved : baseOutcome.ok = true)

/-- An entry of `pending`. -/
structure Item where
  ref : Ref
  phase : Phase
  isOriginal : Bool

/-- An entry of `results`; only the exits after a prewarm set `prewarm_ok`. -/
structure Row where
  ref : Ref
  ok : Bool
  prewarmOk : Option Bool
  baseOutcome : Outcome

structure Config where
  maxInflight : ℤ
  softMax : ℤ
  hardMax : ℤ
  supplementEnabled : Bool
  prewarmMode : String
  hasPrewarmWorker : Bool

/-- `popped` and `persisted` are the history of the pops and of the persist outcomes. -/
structure Session where
  primary : List Ref
  pending : List Item
  ready : List Ref
  results : List Row
  popped : List Ref
  persisted : List (Ref × Bool)

/-- What the pool answers for a prewarm: it raises, a dict with its `ok`, or something that is no dict. -/
inductive PrewarmAnswer where
  | raised
  | dict (ok : Bool)
  | other

/-- What one turn of the main loop meets.  `stalledFor` is the text of the seconds without progress, where
these have reached the stall timeout. -/
structure Event where
  shutdown : Bool
  ready : ℕ → Bool
  stalledFor : Option String
  worker : Option Raised
  persist : Except Raised Outcome
  inlinePrewarmRaises : Bool
  prewarm : PrewarmAnswer

/-- `cap`. -/
def Config.cap (c : Config) : ℕ := (max 1 c.maxInflight).toNat

theorem Config.one_le_cap (c : Config) : 1 ≤ c.cap := by
  unfold Config.cap
  omega

/-- `_submit_metrics`. -/
def submitMetrics (isOriginal : Bool) (ref : Ref) : Item := ⟨ref, .metrics, isOriginal⟩

/-- `original_batch_work_inflight`. -/
def originalBatchWorkInflight (pending : List Item) : Bool := pending.any (·.isOriginal)

/-- The first loop of a turn: primary refs are submitted while there is room. -/
def fillPrimary (cap : ℕ) (pending : List Item) : List Ref → List Ref × List Item
  | [] => ([], pending)
  | ref :: primary =>
      if pending.length < cap then fillPrimary cap (pending ++ [submitMetrics true ref]) primary
      else (ref :: primary, pending)

/-- The condition of the loop that fills idle slots. -/
def wantsSupplements (c : Config) (s : Session) : Bool :=
  c.supplementEnabled && decide (s.pending.length < c.cap) && s.primary.isEmpty &&
    originalBatchWorkInflight s.pending

/-- `pop_idle_slot_supplements` for the free slots. -/
def popIdleSlotSupplements (c : Config) (s : Session) : List Ref × List Ref :=
  popSupplementRefsFromReadyQueue s.ready (c.cap - s.pending.length) c.softMax c.hardMax true

/-- A pop and the submission of what it took. -/
def takeSupplements (c : Config) (s : Session) : Session :=
  { s with
    ready := (popIdleSlotSupplements c s).2
    popped := s.popped ++ (popIdleSlotSupplements c s).1
    pending := s.pending ++ (popIdleSlotSupplements c s).1.map (submitMetrics false) }

/-- The second loop of a turn.  Every round but the last submits a ref, so that the free slots bound the
rounds (`fillSupplements_stops`). -/
def fillSupplements (c : Config) : ℕ → Session → Session
  | 0, s => s
  | rounds + 1, s =>
      if wantsSupplements c s then
        -- `break` when the pop gave nothing
        if (popIdleSlotSupplements c s).1.isEmpty then takeSupplements c s
        else fillSupplements c rounds (takeSupplements c s)
      else s

/-- Both loops that submit work. -/
def fill (c : Config) (s : Session) : Session :=
  let filled := fillPrimary c.cap s.pending s.primary
  fillSupplements c (c.cap - filled.2.length) { s with primary := filled.1, pending := filled.2 }

/-- The first pending item whose result is ready, and the others. -/
def takeReady (ready : ℕ → Bool) : List Item → Option (Item × List Item)
  | [] => none
  | item :: pending =>
      if ready 0 then some (item, pending)
      else (takeReady (fun idx => ready (idx + 1)) pending).map fun found => (found.1, item :: found.2)

def failure (ref : Ref) (status : String) (exc : Raised) : Outcome :=
  ⟨ref.jid, false, status, exc.typeName, exc.text⟩

/-- `_finalize_failed`. -/
def failedRow (ref : Ref) (base : Outcome) : Row := ⟨ref, false, none, base⟩

def finalizeFailed (s : Session) (ref : Ref) (base : Outcome) : Session :=
  { s with results := s.results ++ [failedRow ref base] }

/-- `_submit_prewarm`: the inline prewarm finishes the item, the pooled one keeps it pending. -/
def submitPrewarm (c : Config) (e : Event) (s : Session) (item : Item) (base : Outcome)
    (saved : base.ok = true) : Session :=
  if c.prewarmMode == "inline" || !c.hasPrewarmWorker then
    { s with results := s.results ++ [⟨item.ref, base.ok, some !e.inlinePrewarmRaises, base⟩] }
  -- the item goes to the end of `pending`, behind those submitted since
  else { s with pending := s.pending ++ [{ item with phase := .prewarm base saved }] }

/-- The outcome of the persist call, with the failure that stands for an exception. -/
def persistOutcome (e : Event) (ref : Ref) : Outcome :=
  match e.persist with
  | .ok base => base
  | .error exc => failure ref "sliding_persist_exception" exc

/-- `prewarm_ok` of a pooled prewarm. -/
def PrewarmAnswer.ok : PrewarmAnswer → Bool
  | raised => false
  | dict ok => ok
  | other => true

/-- The part of a turn behind `pending.pop(ready_idx)`. -/
def handle (c : Config) (e : Event) (item : Item) (s : Session) : Session :=
  match item.phase with
  | .metrics =>
      match e.worker with
      | some exc => finalizeFailed s item.ref (failure item.ref "sliding_worker_exception" exc)
      | none =>
          let base := persistOutcome e item.ref
          let s := { s with persisted := s.persisted ++ [(item.ref, base.ok)] }
          if saved : base.ok = true then submitPrewarm c e s item base saved
          else finalizeFailed s item.ref base
  | .prewarm base _ =>
      -- a prewarm that failed is noted beside the ok of the persist outcome
      { s with results := s.results ++ [⟨item.ref, base.ok, some e.prewarm.ok, base⟩] }

/-- The outcome of an item that is given up: the one it has, else `missing`. -/
def Item.baseOr (item : Item) (missing : Outcome) : Outcome :=
  match item.phase with
  | .metrics => missing
  | .prewarm base _ => base

/-- Every pending item is reported as failed. -/
def abandon (missing : Ref → Outcome) (s : Session) : Session :=
  { s with
    pending := []
    results := s.results ++ s.pending.map fun item =>
      failedRow item.ref (item.baseOr (missing item.ref)) }

def stallFailure (stalledFor : String) (ref : Ref) : Outcome :=
  failure ref "sliding_session_stall"
    ⟨"MetricsSlidingStall", "no progress for " ++ stalledFor ++ "s"⟩

def interrupted (ref : Ref) : Outcome :=
  failure ref "sliding_session_interrupted" ⟨"Shutdown", "sliding session interrupted"⟩

/-- How a turn ends: nothing was ready, a ready result was handled, or the loop is left. -/
inductive Turn where
  | waited (s : Session)
  | advanced (s : Session)
  | stopped (s : Session)

/-- One turn of the main loop, from the look at the shutdown flag. -/
def turn (c : Config) (e : Event) (s : Session) : Turn :=
  if e.shutdown then .stopped s
  else
    let s := fill c s
    -- the source guards against this; there is always something in flight here (`pending_fill_ne_nil`)
    if s.pending.isEmpty then .stopped s
    else
      match takeReady e.ready s.pending, e.stalledFor with
      | some (item, pending), _ => .advanced (handle c e item { s with pending := pending })
      | none, some stalledFor => .stopped (abandon (stallFailure stalledFor) s)
      | none, none => .waited s

/-- The condition of the main loop, the shutdown flag apart. -/
def Session.hasWork (s : Session) : Bool := !s.primary.isEmpty || !s.pending.isEmpty

/-- The main loop; `none` when the events end before it. -/
def loop (c : Config) : List Event → Session → Option Session
  | [], s => if s.hasWork then none else some s
  | e :: events, s =>
      if s.hasWork then
        match turn c e s with
        | .waited s => loop c events s
        | .advanced s => loop c events s
        | .stopped s => some s
      else some s

/-- The state in which the main loop starts. -/
def start (primaryRefs readyQueue : List Ref) : Session := ⟨primaryRefs, [], readyQueue, [], [], []⟩

/-- `run_metrics_sliding_session`: the last state, whose `results` are returned. -/
def session (c : Config) (primaryRefs readyQueue : List Ref) (events : List Event) : Option Session :=
  if primaryRefs.isEmpty then some (start primaryRefs readyQueue)
  else (loop c events (start primaryRefs readyQueue)).map (abandon interrupted)

/-! ## What the session promises -/

/-- Every ref that was selected has one result, with the ok of its persist outcome, false where it has none;
the ready queue is what it was without the popped refs, and no popped ref is too large. -/
structure Reports (c : Config) (primaryRefs readyQueue : List Ref) (s : Session) : Prop where
  rows : ∃ unpersisted : List Ref,
    (primaryRefs ++ s.popped).Perm (s.persisted.map Prod.fst ++ unpersisted) ∧
      (s.results.map fun row => (row.ref, row.ok)).Perm
        (s.persisted ++ unpersisted.map fun ref => (ref, false))
  order : s.ready.Sublist readyQueue
  shares : (s.ready ++ s.popped).Perm readyQueue
  small : c.softMax ≤ c.hardMax → ∀ ref ∈ s.popped, sampleCountForRef ref < c.hardMax

/-- Nothing is lost when the session gives up here: no primary ref waits, and every pending item is still in
its metrics phase. -/
def Settled (s : Session) : Prop :=
  s.primary = [] ∧ ∀ item ∈ s.pending, item.phase = .metrics

/-- The turn does not give up, or it does so in a settled state. -/
def TurnClean (c : Config) (e : Event) (s : Session) : Prop :=
  if e.shutdown then Settled s
  else takeReady e.ready (fill c s).pending = none → e.stalledFor.isSome → Settled (fill c s)

/-- Every turn of the loop is clean. -/
def RunClean (c : Config) : List Event → Session → Prop
  | [], _ => True
  | e :: events, s =>
      s.hasWork → TurnClean c e s ∧
        match turn c e s with
        | .waited s => RunClean c events s
        | .advanced s => RunClean c events s
        | .stopped _ => True

/-- The number of turns in which the session only waits. -/
def waits (c : Config) : List Event → Session → ℕ
  | [], _ => 0
  | e :: events, s =>
      if s.hasWork then
        match turn c e s with
        | .waited s => waits c events s + 1
        | .advanced s => waits c events s
        | .stopped _ => 0
      else 0

end SlidingSession
