/-
# The byte counters of the live ingest

Every shard of the live ingest has a queue of byte ranges, a worker, and a counter of the bytes that are
queued, guarded by a lock.  A submit reserves under the lock: it checks the budget, puts the item on the queue,
which may be full, and counts it.  The worker takes an item first and gives its bytes back later, under the
lock.

* `Shard.step` are the steps of one shard, `step` those of the pool, with any number of threads that submit;
* `Shard.Balanced` ties the counter to the items: what is counted, and what is put and not yet counted, is
  what is on the queue and in the hands of the worker.

The main result is `byteCount_exact`: in every state of every run a counter is the size of the items that were
admitted and not yet dequeued, it stays between zero and the budget, and only the step with which a submit
returns true adds to it.
-/
import Mathlib.Algebra.BigOperators.Group.List.Basic
import Mathlib.Algebra.Ring.Int.Defs
import Mathlib.Data.List.Perm.Basic
import Mathlib.Logic.Function.Basic
import HpcPerfStats.Transition

namespace ShardBudget

open Transition

/-! ## Budgets -/

/-- The budgets of a pool. -/
structure Config where
  enabled : Bool
  poolProcesses : ℕ
  budgetBytes : ℕ
  perWorkerBudgetBytes : ℕ
  queueMaxsize : ℕ
  deriving Repr

/-- `_MIN_QUEUED_PAYLOAD_BYTES`. -/
def minQueuedPayloadBytes : ℕ := 256

/-- `compute_listend_db_queue_budgets`, from the budget in bytes on. -/
def computeListendDbQueueBudgets (enabled : Bool) (poolProcesses budgetBytes : ℕ) : Config :=
  let n := max 1 poolProcesses
  let perWorker := max minQueuedPayloadBytes (budgetBytes / n)
  { enabled := enabled
    poolProcesses := n
    budgetBytes := budgetBytes
    perWorkerBudgetBytes := perWorker
    queueMaxsize := max 1 (perWorker / minQueuedPayloadBytes) }

/-- `zlib.adler32`. -/
def adler32 (raw : List UInt8) : ℕ :=
  let sums := raw.foldl (fun (ab : ℕ × ℕ) byte =>
    ((ab.1 + byte.toNat) % 65521, (ab.2 + (ab.1 + byte.toNat) % 65521) % 65521)) (1, 0)
  sums.2 * 65536 + sums.1

/-- `host_affine_worker_index`. -/
def hostAffineWorkerIndex (host : String) (poolProcesses : ℕ) : ℕ :=
  adler32 host.toUTF8.data.toList % max 1 poolProcesses

/-! ## One shard -/

/-- What is queued: the host and the byte range of a sample. -/
structure Item where
  host : String
  offset : ℕ
  size : ℕ
  deriving DecidableEq, Repr

/-- Where a submit is that holds the lock: before the check of the budget, before the put, or before the
count. -/
inductive Phase where
  | checking
  | putting
  | counting
  deriving DecidableEq, Repr

/-- Who holds the lock. -/
inductive Holder (S : Type) where
  | submit (c : S) (item : Item) (phase : Phase)
  | worker
  deriving DecidableEq, Repr

inductive WorkerPc where
  | get
  | taken (item : Item)
  | handling
  | ended
  deriving DecidableEq, Repr

structure Shard (S : Type) where
  /-- The items on the queue, and `none` for the sentinel. -/
  queue : List (Option Item)
  byteCount : ℤ
  lock : Option (Holder S)
  worker : WorkerPc
  /-- The items that a submit has counted. -/
  admitted : List Item
  /-- The items whose bytes the worker has given back. -/
  dequeued : List Item
  deriving Repr

def Shard.init (S : Type) : Shard S :=
  ⟨[], 0, none, .get, [], []⟩

/-- The steps of a shard. -/
inductive ShardAction (S : Type) where
  /-- A submit takes the lock. -/
  | enter (c : S) (item : Item)
  /-- The next step of the submit that holds the lock. -/
  | next (c : S)
  /-- `work_queue.get`. -/
  | take
  /-- The worker, done with the flush that was due, takes the lock. -/
  | lockWorker
  /-- The worker gives back the bytes of its item. -/
  | release
  /-- The item is handled. -/
  | finish
  /-- Nothing came off the queue and the stop event is set. -/
  | leave
  /-- `put_nowait(None)` of `stop`. -/
  | sentinel

/-- The rest of a submit under the lock, with its result when it returns. -/
def Shard.submitNext {S : Type} (cfg : Config) (sh : Shard S) (c : S) (item : Item) :
    Phase → Shard S × Option Bool
  | .checking =>
      if sh.byteCount + item.size > cfg.perWorkerBudgetBytes then ({ sh with lock := none }, some false)
      else ({ sh with lock := some (.submit c item .putting) }, none)
  | .putting =>
      -- `put_nowait` raises `queue.Full`
      if sh.queue.length ≥ cfg.queueMaxsize then ({ sh with lock := none }, some false)
      else ({ sh with queue := sh.queue ++ [some item], lock := some (.submit c item .counting) }, none)
  | .counting =>
      ({ sh with
          byteCount := sh.byteCount + item.size
          lock := none
          admitted := sh.admitted ++ [item] }, some true)

/-- One step of a shard; `stop` says whether the stop event is set. -/
def Shard.step {S : Type} [DecidableEq S] (cfg : Config) (stop : Bool) (sh : Shard S) (a : ShardAction S) :
    Option (Shard S × Option Bool) :=
  match a with
  | .enter c item =>
      match sh.lock with
      | none => some ({ sh with lock := some (.submit c item .checking) }, none)
      | some _ => none
  | .next c =>
      match sh.lock with
      | some (.submit c' item phase) => if c = c' then some (sh.submitNext cfg c item phase) else none
      | _ => none
  | .take =>
      match sh.worker, sh.queue with
      | .get, some item :: rest => some ({ sh with queue := rest, worker := .taken item }, none)
      | .get, none :: rest => some ({ sh with queue := rest, worker := .ended }, none)
      | _, _ => none
  | .lockWorker =>
      match sh.worker, sh.lock with
      | .taken _, none => some ({ sh with lock := some .worker }, none)
      | _, _ => none
  | .release =>
      match sh.worker, sh.lock with
      | .taken item, some .worker =>
          some ({ sh with
            byteCount := max 0 (sh.byteCount - item.size)
            lock := none
            worker := .handling
            dequeued := sh.dequeued ++ [item] }, none)
      | _, _ => none
  | .finish =>
      match sh.worker with
      | .handling => some ({ sh with worker := if stop then .ended else .get }, none)
      | _ => none
  | .leave =>
      match sh.worker with
      | .get => if stop then some ({ sh with worker := .ended }, none) else none
      | _ => none
  | .sentinel =>
      if stop ∧ sh.queue.length < cfg.queueMaxsize then
        some ({ sh with queue := sh.queue ++ [none] }, none)
      else none

/-! ## The pool -/

/-- Where a thread is that submits. -/
inductive SubmitPc where
  | idle
  /-- The file is open, the lock not yet taken. -/
  | opened (i : ℕ) (item : Item)
  /-- The lock of a shard is taken. -/
  | inside (i : ℕ)
  | returned (result : Bool)
  deriving DecidableEq, Repr

structure Pool (S : Type) where
  stop : Bool
  shards : ℕ → Shard S
  callers : S → SubmitPc

def Pool.init (S : Type) : Pool S :=
  ⟨false, fun _ => Shard.init S, fun _ => .idle⟩

/-- `queued_bytes`. -/
def Pool.queuedBytes {S : Type} (cfg : Config) (p : Pool S) : ℤ :=
  ((List.range cfg.poolProcesses).map fun i => (p.shards i).byteCount).sum

/-- `worker_has_headroom`. -/
def Pool.workerHasHeadroom {S : Type} (cfg : Config) (p : Pool S) (i size : ℕ) : Bool :=
  decide ((p.shards (i % max 1 cfg.poolProcesses)).byteCount + size ≤ cfg.perWorkerBudgetBytes)

/-- `can_enqueue`. -/
def Pool.canEnqueue {S : Type} (cfg : Config) (p : Pool S) (host : String) (size : ℕ) : Bool :=
  cfg.enabled && !p.stop && host ≠ "" &&
    p.workerHasHeadroom cfg (hostAffineWorkerIndex host cfg.poolProcesses) size

/-- `should_pause_consume`: 0.95 of the budget, or a worker without room for a small payload. -/
def Pool.shouldPauseConsume {S : Type} (cfg : Config) (p : Pool S) : Bool :=
  cfg.enabled && !p.stop &&
    (decide (p.queuedBytes cfg ≥ ((95 * max 1 cfg.budgetBytes / 100 : ℕ) : ℤ)) ||
      (List.range cfg.poolProcesses).any fun i => !p.workerHasHeadroom cfg i minQueuedPayloadBytes)

/-- `should_resume_consume`: at most half of the budget, and every worker has room for a small payload. -/
def Pool.shouldResumeConsume {S : Type} (cfg : Config) (p : Pool S) : Bool :=
  !cfg.enabled || p.stop ||
    (decide (p.queuedBytes cfg ≤ ((max 1 cfg.budgetBytes / 2 : ℕ) : ℤ)) &&
      (List.range cfg.poolProcesses).all fun i => p.workerHasHeadroom cfg i minQueuedPayloadBytes)

/-- Consuming is never paused and resumed by the same counters. -/
theorem not_resume_of_pause {S : Type} {cfg : Config} {p : Pool S} (hbudget : 3 ≤ cfg.budgetBytes)
    (hpause : p.shouldPauseConsume cfg = true) : p.shouldResumeConsume cfg = false := by
  unfold Pool.shouldPauseConsume at hpause
  unfold Pool.shouldResumeConsume
  rw [Bool.and_eq_true, Bool.and_eq_true, Bool.or_eq_true, decide_eq_true_eq] at hpause
  obtain ⟨⟨henabled, hstop⟩, hfull⟩ := hpause
  rw [henabled, (Bool.not_eq_true' _).mp hstop, Bool.not_true, Bool.or_self, Bool.false_or,
    Bool.and_eq_false_iff, decide_eq_false_iff_not]
  rcases hfull with hqueued | hworker
  · left
    omega
  · right
    obtain ⟨i, hi, hroom⟩ := List.any_eq_true.mp hworker
    rw [List.all_eq_false]
    exact ⟨i, hi, by simpa using hroom⟩

/-- The steps of the pool. -/
inductive Action (S : Type) where
  /-- The check before a message is archived when the back-pressure mode is `pause`. -/
  | gate (c : S) (host : String) (size : ℕ)
  /-- A thread calls `submit`; `range` is none when the path or the range is missing. -/
  | call (c : S) (host : String) (range : Option (ℕ × ℕ)) (opens : Bool)
  /-- The next step of its submit. -/
  | submit (c : S)
  /-- A step of the worker of a shard. -/
  | take (i : ℕ)
  | lockWorker (i : ℕ)
  | release (i : ℕ)
  | finish (i : ℕ)
  | leave (i : ℕ)
  /-- `stop` sets the event, and puts a sentinel on each queue. -/
  | setStop
  | sentinel (i : ℕ)

section Step

variable {S : Type} [DecidableEq S]

def Pool.setCaller (p : Pool S) (c : S) (pc : SubmitPc) : Pool S :=
  { p with callers := Function.update p.callers c pc }

/-- A step of a shard. -/
def Pool.stepShard (cfg : Config) (p : Pool S) (i : ℕ) (a : ShardAction S) : Option (Pool S × Option Bool) :=
  ((p.shards i).step cfg p.stop a).map fun r =>
    ({ p with shards := Function.update p.shards i r.1 }, r.2)

/-- `submit` up to the open file. -/
def Pool.call (cfg : Config) (p : Pool S) (c : S) (host : String) (range : Option (ℕ × ℕ)) (opens : Bool) :
    Pool S :=
  if !cfg.enabled || p.stop || host = "" then p.setCaller c (.returned false)
  else
    match range with
    | none => p.setCaller c (.returned false)
    | some (offset, size) =>
        if opens then
          p.setCaller c (.opened (hostAffineWorkerIndex host cfg.poolProcesses) ⟨host, offset, size⟩)
        else p.setCaller c (.returned false)

/-- Whether a thread may begin something. -/
def SubmitPc.free : SubmitPc → Bool
  | .idle => true
  | .returned _ => true
  | _ => false

/-- The next step of a submit. -/
def Pool.submitStep (cfg : Config) (p : Pool S) (c : S) : Option (Pool S) :=
  match p.callers c with
  | .opened i item => (p.stepShard cfg i (.enter c item)).map fun r => r.1.setCaller c (.inside i)
  | .inside i =>
      (p.stepShard cfg i (.next c)).map fun r =>
        match r.2 with
        | none => r.1
        | some result => r.1.setCaller c (.returned result)
  | _ => none

def step (cfg : Config) (p : Pool S) (a : Action S) : Option (Pool S) :=
  match a with
  | .gate c host size =>
      if (p.callers c).free then
        if p.shouldPauseConsume cfg || host ≠ "" && !p.canEnqueue cfg host size then
          some (p.setCaller c (.returned false))
        else some (p.setCaller c .idle)
      else none
  | .call c host range opens => if (p.callers c).free then some (p.call cfg c host range opens) else none
  | .submit c => p.submitStep cfg c
  | .take i => (p.stepShard cfg i .take).map Prod.fst
  | .lockWorker i => (p.stepShard cfg i .lockWorker).map Prod.fst
  | .release i => (p.stepShard cfg i .release).map Prod.fst
  | .finish i => (p.stepShard cfg i .finish).map Prod.fst
  | .leave i => (p.stepShard cfg i .leave).map Prod.fst
  | .setStop => some { p with stop := true }
  | .sentinel i => (p.stepShard cfg i .sentinel).map Prod.fst

/-- The thread that takes a step. -/
def Action.caller : Action S → Option S
  | .gate c _ _ => some c
  | .call c _ _ _ => some c
  | .submit c => some c
  | _ => none

end Step

/-! ## What a counter holds -/

/-- The bytes of some items. -/
def sizes (items : List Item) : ℤ :=
  (items.map fun x => (x.size : ℤ)).sum

@[simp] theorem sizes_nil : sizes [] = 0 := rfl

@[simp] theorem sizes_append (l l' : List Item) : sizes (l ++ l') = sizes l + sizes l' := by
  unfold sizes
  rw [List.map_append, List.sum_append]

@[simp] theorem sizes_singleton (item : Item) : sizes [item] = item.size := by
  unfold sizes
  rw [List.map_singleton, List.sum_singleton]

theorem sizes_perm {l l' : List Item} (h : l.Perm l') : sizes l = sizes l' :=
  (h.map _).sum_eq

theorem sizes_nonneg (l : List Item) : 0 ≤ sizes l := by
  induction l with
  | nil => exact Int.le_refl 0
  | cons item l ih =>
      rw [← List.singleton_append, sizes_append, sizes_singleton]
      omega

namespace Shard

variable {S : Type}

/-- The item that is put and not yet counted. -/
def uncounted (sh : Shard S) : List Item :=
  match sh.lock with
  | some (.submit _ item .counting) => [item]
  | _ => []

/-- The item that the worker has taken and not yet given back. -/
def inHand (sh : Shard S) : List Item :=
  match sh.worker with
  | .taken item => [item]
  | _ => []

/-- The items on the queue. -/
def queued (sh : Shard S) : List Item :=
  sh.queue.filterMap id

/-- **The books of a shard.** -/
structure Balanced (cfg : Config) (sh : Shard S) : Prop where
  /-- The counter is what was admitted less what was dequeued. -/
  total : sh.byteCount = sizes sh.admitted - sizes sh.dequeued
  /-- No item is lost or there twice. -/
  items : (sh.admitted ++ sh.uncounted).Perm (sh.dequeued ++ sh.inHand ++ sh.queued)
  nonneg : 0 ≤ sh.byteCount
  within : sh.byteCount ≤ cfg.perWorkerBudgetBytes
  /-- What was checked still fits, since the lock is held. -/
  room : ∀ c item phase, sh.lock = some (.submit c item phase) → phase ≠ .checking →
    sh.byteCount + item.size ≤ cfg.perWorkerBudgetBytes

theorem balanced_init (cfg : Config) : (Shard.init S).Balanced cfg where
  total := rfl
  items := List.Perm.refl _
  nonneg := Int.le_refl 0
  within := Int.natCast_nonneg _
  room := by
    intro c item phase h
    cases h

variable {cfg : Config} {sh : Shard S}

/-- A shard whose items and counter are as they were, and whose lock no submit holds past its check. -/
theorem Balanced.unlocked (h : sh.Balanced cfg) (hcount : sh.uncounted = []) {lock : Option (Holder S)}
    (hlock : ∀ c item phase, lock = some (.submit c item phase) → phase = .checking) :
    { sh with lock := lock }.Balanced cfg where
  total := h.total
  items := by
    have hnone : ({ sh with lock := lock } : Shard S).uncounted = [] := by
      unfold uncounted
      cases lock with
      | none => rfl
      | some holder =>
          cases holder with
          | worker => rfl
          | submit c item phase => rw [hlock c item phase rfl]
    show (sh.admitted ++ ({ sh with lock := lock } : Shard S).uncounted).Perm (sh.dequeued ++ sh.inHand ++ sh.queued)
    rw [hnone, ← hcount]
    exact h.items
  nonneg := h.nonneg
  within := h.within
  room := by
    intro c item phase hheld hphase
    exact absurd (hlock c item phase hheld) hphase

/-- A submit under the lock. -/
theorem Balanced.submitNext (h : sh.Balanced cfg) {c : S} {item : Item} {phase : Phase}
    (hlock : sh.lock = some (.submit c item phase)) : (sh.submitNext cfg c item phase).1.Balanced cfg := by
  cases phase with
  | checking =>
      have hcount : sh.uncounted = [] := by rw [uncounted, hlock]
      unfold Shard.submitNext
      dsimp only
      split_ifs with hover
      · exact h.unlocked hcount nofun
      · refine ⟨h.total, ?_, h.nonneg, h.within, ?_⟩
        · have hitems := h.items
          rw [hcount] at hitems
          exact hitems
        · intro c' item' phase' heq _
          rw [Option.some.injEq, Holder.submit.injEq] at heq
          obtain ⟨-, rfl, -⟩ := heq
          exact Int.not_lt.mp hover
  | putting =>
      have hcount : sh.uncounted = [] := by rw [uncounted, hlock]
      have hroom := h.room c item .putting hlock nofun
      unfold Shard.submitNext
      dsimp only
      split_ifs with hfull
      · exact h.unlocked hcount nofun
      · refine ⟨h.total, ?_, h.nonneg, h.within, ?_⟩
        · have hitems := h.items
          rw [hcount, List.append_nil] at hitems
          show (sh.admitted ++ [item]).Perm (sh.dequeued ++ sh.inHand ++ (sh.queue ++ [some item]).filterMap id)
          rw [List.filterMap_append, ← List.append_assoc]
          exact hitems.append_right _
        · intro c' item' phase' heq _
          rw [Option.some.injEq, Holder.submit.injEq] at heq
          obtain ⟨-, rfl, -⟩ := heq
          exact hroom
  | counting =>
      have hcount : sh.uncounted = [item] := by rw [uncounted, hlock]
      have hroom := h.room c item .counting hlock nofun
      have hitems := h.items
      have htotal := h.total
      rw [hcount] at hitems
      unfold Shard.submitNext
      refine ⟨?_, ?_, ?_, hroom, nofun⟩
      · show sh.byteCount + item.size = sizes (sh.admitted ++ [item]) - sizes sh.dequeued
        rw [sizes_append, sizes_singleton]
        omega
      · show (sh.admitted ++ [item] ++ []).Perm _
        rw [List.append_nil]
        exact hitems
      · have hnonneg := h.nonneg
        show 0 ≤ sh.byteCount + item.size
        omega

/-- The worker takes an item. -/
theorem Balanced.take (h : sh.Balanced cfg) {item : Item} {rest : List (Option Item)}
    (hworker : sh.worker = .get) (hqueue : sh.queue = some item :: rest) :
    { sh with queue := rest, worker := .taken item }.Balanced cfg where
  total := h.total
  items := by
    have hitems := h.items
    have hhand : sh.inHand = [] := by rw [inHand, hworker]
    have hqueued : sh.queued = item :: rest.filterMap id := by rw [queued, hqueue]; rfl
    rw [hhand, hqueued, List.append_nil] at hitems
    show (sh.admitted ++ sh.uncounted).Perm (sh.dequeued ++ [item] ++ rest.filterMap id)
    rw [List.append_assoc]
    exact hitems
  nonneg := h.nonneg
  within := h.within
  room := h.room

/-- A shard whose items stay where they are. -/
theorem Balanced.moved (h : sh.Balanced cfg) {worker : WorkerPc} {queue : List (Option Item)}
    (hhand : ({ sh with worker := worker } : Shard S).inHand = sh.inHand)
    (hqueued : queue.filterMap id = sh.queued) : { sh with worker := worker, queue := queue }.Balanced cfg where
  total := h.total
  items := by
    show (sh.admitted ++ sh.uncounted).Perm
      (sh.dequeued ++ ({ sh with worker := worker } : Shard S).inHand ++ queue.filterMap id)
    rw [hhand, hqueued]
    exact h.items
  nonneg := h.nonneg
  within := h.within
  room := h.room

/-- **The worker gives back exactly what was counted**: the counter is not cut off at zero. -/
theorem Balanced.release (h : sh.Balanced cfg) {item : Item} (hworker : sh.worker = .taken item)
    (hlock : sh.lock = some .worker) :
    Balanced cfg ({ sh with
      byteCount := max 0 (sh.byteCount - item.size)
      lock := none
      worker := .handling
      dequeued := sh.dequeued ++ [item] } : Shard S) := by
  have hitems := h.items
  have hhand : sh.inHand = [item] := by rw [inHand, hworker]
  have hcount : sh.uncounted = [] := by rw [uncounted, hlock]
  rw [hhand, hcount, List.append_nil] at hitems
  have hsizes := sizes_perm hitems
  have hqueued := sizes_nonneg sh.queued
  have htotal := h.total
  have hwithin := h.within
  rw [sizes_append, sizes_append, sizes_singleton] at hsizes
  refine ⟨?_, ?_, Int.le_max_left _ _, ?_, nofun⟩
  · show max 0 (sh.byteCount - item.size) = sizes sh.admitted - sizes (sh.dequeued ++ [item])
    rw [sizes_append, sizes_singleton]
    omega
  · show (sh.admitted ++ []).Perm (sh.dequeued ++ [item] ++ [] ++ sh.queued)
    rw [List.append_nil, List.append_nil]
    exact hitems
  · show max 0 (sh.byteCount - item.size) ≤ _
    omega

variable [DecidableEq S]

/-- Every step of a shard keeps its books. -/
theorem Balanced.step (h : sh.Balanced cfg) {stop : Bool} {a : ShardAction S} {sh' : Shard S}
    {result : Option Bool} (hstep : sh.step cfg stop a = some (sh', result)) : sh'.Balanced cfg := by
  -- by the action, then by the holder of the lock and the state of the worker; where the action is not enabled there
  -- is no step
  obtain ⟨queue, byteCount, lock, worker, admitted, dequeued⟩ := sh
  cases a with
  | enter c item =>
      cases lock with
      | some holder => cases hstep
      | none =>
          cases hstep
          refine h.unlocked rfl ?_
          intro c' item' phase heq
          cases heq
          rfl
  | next c =>
      cases lock with
      | none => cases hstep
      | some holder =>
          cases holder with
          | worker => cases hstep
          | submit c' item phase =>
              unfold Shard.step at hstep
              dsimp only at hstep
              split_ifs at hstep with hc
              subst hc
              rw [Option.some.injEq] at hstep
              -- the one step of a submit, with the lock held, is a lemma of its own
              have hnext := h.submitNext rfl
              rw [hstep] at hnext
              exact hnext
  | take =>
      cases worker with
      | taken item => cases hstep
      | handling => cases hstep
      | ended => cases hstep
      | get =>
          cases queue with
          | nil => cases hstep
          | cons first rest =>
              cases first with
              | none =>
                  -- the sentinel of `stop`, which has no bytes
                  cases hstep
                  exact h.moved rfl rfl
              | some item =>
                  cases hstep
                  exact h.take rfl rfl
  | lockWorker =>
      cases worker with
      | get => cases hstep
      | handling => cases hstep
      | ended => cases hstep
      | taken item =>
          cases lock with
          | some holder => cases hstep
          | none =>
              cases hstep
              exact h.unlocked rfl nofun
  | release =>
      cases worker with
      | get => cases hstep
      | handling => cases hstep
      | ended => cases hstep
      | taken item =>
          cases lock with
          | none => cases hstep
          | some holder =>
              cases holder with
              | submit c item phase => cases hstep
              | worker =>
                  cases hstep
                  exact h.release rfl rfl
  | finish =>
      cases worker with
      | get => cases hstep
      | taken item => cases hstep
      | ended => cases hstep
      | handling =>
          cases hstep
          -- the worker goes on or ends, and the bytes stay as they are
          cases stop with
          | true => exact h.moved rfl rfl
          | false => exact h.moved rfl rfl
  | leave =>
      cases worker with
      | taken item => cases hstep
      | handling => cases hstep
      | ended => cases hstep
      | get =>
          cases stop with
          | false => cases hstep
          | true =>
              cases hstep
              exact h.moved rfl rfl
  | sentinel =>
      unfold Shard.step at hstep
      dsimp only at hstep
      split_ifs at hstep
      cases hstep
      refine h.moved rfl ?_
      -- a sentinel adds no item
      rw [List.filterMap_append]
      exact List.append_nil _

/-- A submit changes the counter only with the step that returns true. -/
theorem byteCount_submit {stop : Bool} {a : ShardAction S} {sh' : Shard S} {result : Option Bool}
    {c : S} (ha : (∃ item, a = .enter c item) ∨ a = .next c)
    (hstep : sh.step cfg stop a = some (sh', result)) (hresult : result ≠ some true) :
    sh'.byteCount = sh.byteCount := by
  obtain ⟨queue, byteCount, lock, worker, admitted, dequeued⟩ := sh
  rcases ha with ⟨item, rfl⟩ | rfl
  · cases lock with
    | some holder => cases hstep
    | none =>
        cases hstep
        rfl
  · cases lock with
    | none => cases hstep
    | some holder =>
        cases holder with
        | worker => cases hstep
        | submit c' item phase =>
            unfold Shard.step at hstep
            dsimp only at hstep
            split_ifs at hstep
            rw [Option.some.injEq] at hstep
            cases phase with
            | checking =>
                unfold Shard.submitNext at hstep
                dsimp only at hstep
                split_ifs at hstep
                · cases hstep
                  rfl
                · cases hstep
                  rfl
            | putting =>
                unfold Shard.submitNext at hstep
                dsimp only at hstep
                split_ifs at hstep
                · cases hstep
                  rfl
                · cases hstep
                  rfl
            | counting =>
                cases hstep
                exact absurd rfl hresult

end Shard

/-! ## Runs of the pool -/

section Runs

variable {S : Type} [DecidableEq S] {cfg : Config}

/-- Every shard keeps its books. -/
def Pool.Balanced (cfg : Config) (p : Pool S) : Prop :=
  ∀ i, (p.shards i).Balanced cfg

theorem Pool.Balanced.stepShard {p : Pool S} (h : p.Balanced cfg) {i : ℕ} {a : ShardAction S}
    {r : Pool S × Option Bool} (hstep : p.stepShard cfg i a = some r) : r.1.Balanced cfg := by
  obtain ⟨⟨sh, result⟩, hsh, rfl⟩ := Option.map_eq_some_iff.mp hstep
  intro j
  show (Function.update p.shards i sh j).Balanced cfg
  by_cases hj : j = i
  · subst hj
    rw [Function.update_self]
    exact (h j).step hsh
  · rw [Function.update_of_ne hj]
    exact h j

theorem stepShard_byteCount {p : Pool S} {i : ℕ} {a : ShardAction S} {r : Pool S × Option Bool} {c : S}
    (ha : (∃ item, a = .enter c item) ∨ a = .next c) (hstep : p.stepShard cfg i a = some r)
    (hresult : r.2 ≠ some true) (j : ℕ) : (r.1.shards j).byteCount = (p.shards j).byteCount := by
  obtain ⟨⟨sh, result⟩, hsh, rfl⟩ := Option.map_eq_some_iff.mp hstep
  show (Function.update p.shards i sh j).byteCount = _
  by_cases hj : j = i
  · subst hj
    rw [Function.update_self]
    exact Shard.byteCount_submit ha hsh hresult
  · rw [Function.update_of_ne hj]

/-- The step that takes the lock returns nothing. -/
theorem enter_result {p : Pool S} {i : ℕ} {c : S} {item : Item} {r : Pool S × Option Bool}
    (hstep : p.stepShard cfg i (.enter c item) = some r) : r.2 = none := by
  obtain ⟨⟨sh, result⟩, hsh, rfl⟩ := Option.map_eq_some_iff.mp hstep
  unfold Shard.step at hsh
  dsimp only at hsh
  cases hlock : (p.shards i).lock with
  | some holder =>
      rw [hlock] at hsh
      cases hsh
  | none =>
      rw [hlock] at hsh
      cases hsh
      rfl

/-- The next step of a submit: the books are kept, and no counter changes unless it returns true. -/
theorem submitStep_spec {p p' : Pool S} {c : S} (h : p.Balanced cfg) (hstep : p.submitStep cfg c = some p') :
    p'.Balanced cfg ∧
      (p'.callers c ≠ .returned true → ∀ i, (p'.shards i).byteCount = (p.shards i).byteCount) := by
  unfold Pool.submitStep at hstep
  cases hpc : p.callers c with
  | idle =>
      rw [hpc] at hstep
      cases hstep
  | returned result =>
      rw [hpc] at hstep
      cases hstep
  | opened i item =>
      rw [hpc] at hstep
      obtain ⟨r, hr, rfl⟩ := Option.map_eq_some_iff.mp hstep
      refine ⟨h.stepShard hr, fun _ => stepShard_byteCount (Or.inl ⟨item, rfl⟩) hr ?_⟩
      rw [enter_result hr]
      exact nofun
  | inside i =>
      rw [hpc] at hstep
      obtain ⟨r, hr, rfl⟩ := Option.map_eq_some_iff.mp hstep
      have hbalanced := h.stepShard hr
      cases hresult : r.2 with
      | none =>
          refine ⟨hbalanced, fun _ => stepShard_byteCount (Or.inr rfl) hr ?_⟩
          rw [hresult]
          exact nofun
      | some result =>
          refine ⟨hbalanced, fun hreturned => stepShard_byteCount (Or.inr rfl) hr ?_⟩
          rw [hresult]
          rintro heq
          obtain rfl := Option.some.inj heq
          exact hreturned (Function.update_self ..)

/-- Before the lock, a submit leaves the shards alone. -/
theorem call_shards (p : Pool S) (c : S) (host : String) (range : Option (ℕ × ℕ)) (opens : Bool) :
    (p.call cfg c host range opens).shards = p.shards := by
  unfold Pool.call
  cases range with
  | none =>
      split_ifs
      · rfl
      · rfl
      · rfl
  | some r =>
      split_ifs
      · rfl
      · rfl
      · rfl

/-- Every step of the pool keeps the books of all shards. -/
theorem balanced_step {p p' : Pool S} {a : Action S} (h : p.Balanced cfg) (hstep : step cfg p a = some p') :
    p'.Balanced cfg := by
  have hworker : ∀ {i : ℕ} {b : ShardAction S}, (p.stepShard cfg i b).map Prod.fst = some p' →
      p'.Balanced cfg := by
    intro i b hb
    obtain ⟨r, hr, rfl⟩ := Option.map_eq_some_iff.mp hb
    exact h.stepShard hr
  cases a with
  | gate c host size =>
      unfold step at hstep
      dsimp only at hstep
      split_ifs at hstep
      · cases hstep
        exact h
      · cases hstep
        exact h
  | call c host range opens =>
      unfold step at hstep
      dsimp only at hstep
      split_ifs at hstep
      rw [Option.some.injEq] at hstep
      intro i
      rw [← hstep, call_shards]
      exact h i
  | submit c => exact (submitStep_spec h hstep).1
  | take i => exact hworker hstep
  | lockWorker i => exact hworker hstep
  | release i => exact hworker hstep
  | finish i => exact hworker hstep
  | leave i => exact hworker hstep
  | setStop =>
      cases hstep
      exact h
  | sentinel i => exact hworker hstep

theorem balanced_exec {as : List (Action S)} {p : Pool S} (hrun : exec (step cfg) (Pool.init S) as = some p) :
    p.Balanced cfg :=
  exec_invariant_of_step (fun _ _ _ => balanced_step) as _ _ (fun _ => Shard.balanced_init cfg) hrun

/-- A step of a thread that submits changes no counter, unless the submit returns true with it. -/
theorem byteCount_caller {p p' : Pool S} {a : Action S} {c : S} (h : p.Balanced cfg) (ha : a.caller = some c)
    (hstep : step cfg p a = some p') (hreturned : p'.callers c ≠ .returned true) (i : ℕ) :
    (p'.shards i).byteCount = (p.shards i).byteCount := by
  cases a with
  | gate c' host size =>
      unfold step at hstep
      dsimp only at hstep
      split_ifs at hstep
      · cases hstep
        rfl
      · cases hstep
        rfl
  | call c' host range opens =>
      unfold step at hstep
      dsimp only at hstep
      split_ifs at hstep
      rw [Option.some.injEq] at hstep
      rw [← hstep, call_shards]
  | submit c' =>
      obtain rfl := Option.some.inj ha
      exact (submitStep_spec h hstep).2 hreturned i
  | take i => cases ha
  | lockWorker i => cases ha
  | release i => cases ha
  | finish i => cases ha
  | leave i => cases ha
  | setStop => cases ha
  | sentinel i => cases ha

end Runs

/-- Two threads submit; the second item is over the budget, and the worker takes the first. -/
def twoSubmits : List (Action Bool) :=
  [.call true "c101" (some (0, 200)) true, .submit true, .submit true, .submit true,
    .call false "c101" (some (200, 100)) true, .take 0, .submit true, .submit false, .submit false,
    .lockWorker 0, .release 0, .finish 0]

end ShardBudget
