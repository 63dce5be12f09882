/-
# The reorder heaps of an archive worker

With more than one AMQP consumer the payloads of one host can come to its archive worker out of order.
`_archive_worker_main` therefore keeps a heap for each host, ordered by the sample second, `$` payloads
first, then the order in which they came, and appends a payload when it is popped from the heap.  A
payload without a timestamp, and every payload when there is one consumer, is appended at once.

`_drain_host` pops the first payload of a heap when it was received a second ago, when the heap has two
payloads or when another one was popped before it.  So a heap never keeps more than one payload: the
second one that comes releases both.  `held` says, of the events alone, which payload waits after them,
and `archivedInOrder_iff` that the file of a host is in order exactly when every payload that should
have come before an earlier one finds just that one still waiting.
-/
import HpcPerfStats.OrderedDict
import Mathlib.Data.List.Induction
import Mathlib.Data.List.Sort
import Mathlib.Data.Prod.Lex
import Mathlib.Data.Rat.Defs
import Mathlib.Algebra.Order.Ring.Rat
import Mathlib.Tactic.Linarith

namespace ArchiveReorder

open OrderedDict

/-! ## Payloads and their order -/

/-- `_MIN_PLAUSIBLE_UNIX_SECONDS`: smaller numbers are not taken for a timestamp. -/
def minPlausibleUnixSeconds : ℕ := 1000000000

/-- `_ARCHIVE_REORDER_HOLD_SECONDS`. -/
def archiveReorderHoldSeconds : ℚ := 1

/-- A sample second as the peek at a payload returns it. -/
def UnixSecond : Type := {n : ℕ // minPlausibleUnixSeconds ≤ n}

instance : DecidableEq UnixSecond := inferInstanceAs (DecidableEq {n : ℕ // minPlausibleUnixSeconds ≤ n})

/-- `_ArchiveWorkItem`, without the fields of the acknowledgement. -/
structure ArchiveWorkItem where
  message : String
  host : String
  unixSecond : Option UnixSecond
  isDollar : Bool
  recvMonotonic : ℚ
  deriving DecidableEq

/-- `int(unix_second or 0)`. -/
def secondOrZero : Option UnixSecond → ℕ
  | none => 0
  | some second => second.val

/-- `_archive_reorder_sort_key`. -/
def archiveReorderSortKey (unixSecond : Option UnixSecond) (isDollar : Bool) (recvSeq : ℕ) :
    ℕ ×ₗ ℕ ×ₗ ℕ :=
  toLex (secondOrZero unixSecond, toLex (if isDollar = true then 0 else 1, recvSeq))

/-- A payload with its number among those the worker has taken from its queue. -/
structure Receipt where
  number : ℕ
  work : ArchiveWorkItem
  deriving DecidableEq

/-- The order that the file of a host should have. -/
def Receipt.key (r : Receipt) : ℕ ×ₗ ℕ ×ₗ ℕ :=
  archiveReorderSortKey r.work.unixSecond r.work.isDollar r.number

/-- A payload stands no later than another in that order. -/
def Receipt.Before (r s : Receipt) : Prop := r.key ≤ s.key

instance : DecidableRel Receipt.Before := fun r s => inferInstanceAs (Decidable (r.key ≤ s.key))

instance : Std.Total Receipt.Before := ⟨fun r s => le_total r.key s.key⟩

instance : IsTrans Receipt Receipt.Before := ⟨fun _ _ _ h h' => le_trans h h'⟩

/-- The second of a payload and whether it is a `$` payload. -/
def ArchiveWorkItem.sampleKey (work : ArchiveWorkItem) : ℕ ×ₗ ℕ :=
  toLex (secondOrZero work.unixSecond, if work.isDollar = true then 0 else 1)

/-- Of two payloads the later one comes first in the order only by its second or its `$`. -/
theorem sortKey_lt_iff_of_lt (a b : ArchiveWorkItem) {m n : ℕ} (h : m < n) :
    archiveReorderSortKey b.unixSecond b.isDollar n <
        archiveReorderSortKey a.unixSecond a.isDollar m ↔ b.sampleKey < a.sampleKey := by
  unfold archiveReorderSortKey ArchiveWorkItem.sampleKey
  rw [Prod.Lex.toLex_lt_toLex, Prod.Lex.toLex_lt_toLex, Prod.Lex.toLex_lt_toLex]
  have hnot : ¬ n < m := by omega
  simp [hnot]

/-- The last part of a sort key is the number that was put in. -/
theorem seq_eq_of_sortKey_eq {a b : ArchiveWorkItem} {m n : ℕ}
    (h : archiveReorderSortKey a.unixSecond a.isDollar m =
      archiveReorderSortKey b.unixSecond b.isDollar n) : m = n :=
  congrArg (fun k => (ofLex (ofLex k).2).2) h

/-- Of two payloads the earlier one stands first unless the sample of the later one does. -/
theorem before_iff_of_lt {y r : Receipt} (h : y.number < r.number) :
    y.Before r ↔ ¬ r.work.sampleKey < y.work.sampleKey := by
  rw [← sortKey_lt_iff_of_lt y.work r.work h, not_lt]
  rfl

theorem before_of_sampleKey_lt {y r : Receipt} (h : y.number < r.number)
    (hkey : r.work.sampleKey < y.work.sampleKey) : r.Before y :=
  le_of_lt ((sortKey_lt_iff_of_lt y.work r.work h).mpr hkey)

/-- A payload without a timestamp belongs before every payload that has one. -/
theorem sampleKey_lt_of_none {a b : ArchiveWorkItem} (hb : b.unixSecond = none)
    (ha : a.unixSecond ≠ none) : b.sampleKey < a.sampleKey := by
  obtain ⟨second, hsecond⟩ := Option.ne_none_iff_exists'.mp ha
  unfold ArchiveWorkItem.sampleKey
  rw [hb, hsecond, Prod.Lex.toLex_lt_toLex]
  left
  show 0 < second.val
  have hmin := second.property
  unfold minPlausibleUnixSeconds at hmin
  omega

/-! ## The worker -/

/-- An entry of a heap. -/
structure HeapItem where
  key : ℕ ×ₗ ℕ ×ₗ ℕ
  recvMono : ℚ
  receipt : Receipt
  deriving DecidableEq

/-- `heapq.heappush`; a heap is the list of its items in the order in which they are popped.  No two
keys are the same. -/
def heappush (heap : List HeapItem) (item : HeapItem) : List HeapItem :=
  heap.orderedInsert (fun a b => a.key ≤ b.key) item

/-- The state of a worker: `recv_seq`, `heaps` and the payloads appended so far; `taken` counts the
payloads taken from the queue. -/
structure Worker where
  recvSeq : ℕ
  taken : ℕ
  heaps : Dict String (List HeapItem)
  appended : List Receipt

def Worker.init : Worker := ⟨0, 0, Dict.empty, []⟩

/-- The heap of a host. -/
def Worker.heap (s : Worker) (host : String) : List HeapItem := (s.heaps.get host).getD []

/-- What was appended to the file of a host. -/
def Worker.hostFile (s : Worker) (host : String) : List Receipt :=
  s.appended.filter fun r => r.work.host = host

/-- The loop of `_drain_host`: what it flushes and what it leaves in the heap. -/
def drainLoop (now : ℚ) (force : Bool) : Bool → List HeapItem → List Receipt × List HeapItem
  | _, [] => ([], [])
  | flushedAny, item :: rest =>
      if force = true ∨ flushedAny = true ∨ archiveReorderHoldSeconds ≤ now - item.recvMono ∨
          2 ≤ (item :: rest).length then
        let d := drainLoop now force true rest
        (item.receipt :: d.1, d.2)
      else ([], item :: rest)

/-- `_drain_host`; `now` is the clock it reads. -/
def drainHost (s : Worker) (host : String) (now : ℚ) (force : Bool) : Worker :=
  if s.heap host = [] then s
  else
    let d := drainLoop now force false (s.heap host)
    { s with
      appended := s.appended ++ d.1
      heaps := if d.2 = [] then s.heaps.pop host else s.heaps.set host d.2 }

/-- `_drain_all`. -/
def drainAll (s : Worker) (now : String → ℚ) (force : Bool) : Worker :=
  (s.heaps.entries.map Prod.fst).foldl (fun s host => drainHost s host (now host) force) s

/-- One turn of the loop of `_archive_worker_main`: a payload was in the queue, or the queue stayed
empty for the time of the `get`.  The clocks are those that `_drain_host` reads. -/
inductive Event where
  | get (work : ArchiveWorkItem) (now : ℚ)
  | empty (now : String → ℚ)

def step (consumers : ℕ) (s : Worker) : Event → Worker
  | .get work now =>
      let receipt : Receipt := ⟨s.taken, work⟩
      if consumers ≤ 1 ∨ work.unixSecond = none then
        { s with taken := s.taken + 1, appended := s.appended ++ [receipt] }
      else
        let key := archiveReorderSortKey work.unixSecond work.isDollar s.recvSeq
        let heap := heappush (s.heap work.host) ⟨key, work.recvMonotonic, receipt⟩
        drainHost { s with
          taken := s.taken + 1
          recvSeq := s.recvSeq + 1
          heaps := s.heaps.set work.host heap } work.host now false
  | .empty now => drainAll s now false

/-- `_archive_worker_main`: the events until it is stopped, then the heaps are drained by force. -/
def archiveWorkerMain (consumers : ℕ) (events : List Event) (now : String → ℚ) : Worker :=
  drainAll (events.foldl (step consumers) Worker.init) now true

/-! ## What the events say -/

/-- The payload that an event brings. -/
def Event.work? : Event → Option ArchiveWorkItem
  | .get work _ => some work
  | .empty _ => none

/-- The payloads that came, numbered. -/
def receipts (events : List Event) : List Receipt :=
  (events.filterMap Event.work?).zipIdx.map fun p => ⟨p.2, p.1⟩

/-- The payloads of a host that came. -/
def arrivals (host : String) (events : List Event) : List Receipt :=
  (receipts events).filter fun r => r.work.host = host

/-- How an event changes the payload of a host that waits: the next one with a timestamp waits when
none does and it was received less than the hold time ago, and releases one that does; the hold time
releases it, too, when the queue is empty.  The number counts the payloads that came. -/
def heldStep (host : String) (s : ℕ × Option Receipt) : Event → ℕ × Option Receipt
  | .get work now =>
      (s.1 + 1,
        if work.host = host ∧ work.unixSecond ≠ none then
          if s.2 = none ∧ now - work.recvMonotonic < archiveReorderHoldSeconds then
            some ⟨s.1, work⟩
          else none
        else s.2)
  | .empty now =>
      (s.1, s.2.filter fun r => now host - r.work.recvMonotonic < archiveReorderHoldSeconds)

/-- The payload of a host that waits after the events. -/
def held (host : String) (events : List Event) : Option Receipt :=
  (events.foldl (heldStep host) (0, none)).2

/-- **The condition.**  When a payload comes that belongs before an earlier one of its host, the earlier
one is the payload that waits. -/
def OvertakesOnlyHeld (host : String) (events : List Event) : Prop :=
  ∀ pre work now post, events = pre ++ Event.get work now :: post → work.host = host →
    ∀ r ∈ arrivals host pre, work.sampleKey < r.work.sampleKey → held host pre = some r

/-- **The property.**  The file of a host has its payloads in the order of their second, `$` payloads
first, then in the order in which they came. -/
def ArchivedInOrder (consumers : ℕ) (host : String) (events : List Event) (now : String → ℚ) : Prop :=
  (archiveWorkerMain consumers events now).hostFile host =
    (arrivals host events).insertionSort Receipt.Before

theorem receipts_snoc_get (events : List Event) (work : ArchiveWorkItem) (now : ℚ) :
    receipts (events ++ [Event.get work now]) = receipts events ++ [⟨(receipts events).length, work⟩] := by
  unfold receipts
  rw [List.filterMap_append, List.zipIdx_append, List.map_append]
  simp [Event.work?]

theorem receipts_snoc_empty (events : List Event) (now : String → ℚ) :
    receipts (events ++ [Event.empty now]) = receipts events := by
  have hnone : [Event.empty now].filterMap Event.work? = [] := rfl
  unfold receipts
  rw [List.filterMap_append, hnone, List.append_nil]

theorem arrivals_snoc_get (host : String) (events : List Event) (work : ArchiveWorkItem) (now : ℚ) :
    arrivals host (events ++ [Event.get work now]) =
      arrivals host events ++
        if work.host = host then [⟨(receipts events).length, work⟩] else [] := by
  unfold arrivals
  rw [receipts_snoc_get, List.filter_append]
  by_cases hhost : work.host = host
  · simp [hhost]
  · simp [hhost]

theorem arrivals_snoc_empty (host : String) (events : List Event) (now : String → ℚ) :
    arrivals host (events ++ [Event.empty now]) = arrivals host events := by
  unfold arrivals
  rw [receipts_snoc_empty]

/-- Every payload that came has a number below the next one. -/
theorem number_lt_of_mem_receipts {events : List Event} {r : Receipt} (h : r ∈ receipts events) :
    r.number < (receipts events).length := by
  unfold receipts at h ⊢
  obtain ⟨p, hp, rfl⟩ := List.mem_map.mp h
  obtain ⟨work, i⟩ := p
  obtain ⟨hi, -⟩ := List.mem_zipIdx' hp
  rw [List.length_map, List.length_zipIdx]
  exact hi

theorem number_lt_of_mem_arrivals {host : String} {events : List Event} {r : Receipt}
    (h : r ∈ arrivals host events) : r.number < (receipts events).length :=
  number_lt_of_mem_receipts (List.mem_of_mem_filter h)

theorem fst_foldl_heldStep (host : String) (events : List Event) :
    (events.foldl (heldStep host) (0, none)).1 = (receipts events).length := by
  induction events using List.reverseRecOn with
  | nil => rfl
  | append_singleton events e ih =>
      rw [List.foldl_append]
      cases e with
      | get work now =>
          rw [receipts_snoc_get, List.length_append]
          exact congrArg (· + 1) ih
      | empty now =>
          rw [receipts_snoc_empty]
          exact ih

theorem held_snoc_get (host : String) (events : List Event) (work : ArchiveWorkItem) (now : ℚ) :
    held host (events ++ [Event.get work now]) =
      if work.host = host ∧ work.unixSecond ≠ none then
        if held host events = none ∧ now - work.recvMonotonic < archiveReorderHoldSeconds then
          some ⟨(receipts events).length, work⟩
        else none
      else held host events := by
  rw [← fst_foldl_heldStep host events]
  unfold held
  rw [List.foldl_append]
  rfl

theorem held_snoc_empty (host : String) (events : List Event) (now : String → ℚ) :
    held host (events ++ [Event.empty now]) =
      (held host events).filter fun r =>
        now host - r.work.recvMonotonic < archiveReorderHoldSeconds := by
  unfold held
  rw [List.foldl_append]
  rfl

/-- The condition for one more event is about that event. -/
theorem overtakesOnlyHeld_snoc (host : String) (events : List Event) (e : Event) :
    OvertakesOnlyHeld host (events ++ [e]) ↔
      OvertakesOnlyHeld host events ∧ ∀ work now, e = .get work now → work.host = host →
        ∀ r ∈ arrivals host events, work.sampleKey < r.work.sampleKey →
          held host events = some r := by
  constructor
  · intro h
    constructor
    · intro pre w t post heq
      apply h pre w t (post ++ [e])
      rw [heq, List.append_assoc, List.cons_append]
    · rintro work now rfl
      exact h events work now [] rfl
  · rintro ⟨hold, hnew⟩ pre w t post heq
    rcases List.eq_nil_or_concat post with rfl | ⟨post, e', rfl⟩
    · obtain ⟨rfl, hget⟩ := List.append_inj' heq rfl
      exact hnew w t (List.singleton_inj.mp hget)
    · rw [List.concat_eq_append, ← List.cons_append, ← List.append_assoc] at heq
      exact hold pre w t post (List.append_inj' heq rfl).1

/-! ## Draining -/

theorem drainLoop_nil (now : ℚ) (force flushedAny : Bool) :
    drainLoop now force flushedAny [] = ([], []) := rfl

theorem drainLoop_cons (now : ℚ) (force flushedAny : Bool) (item : HeapItem) (rest : List HeapItem) :
    drainLoop now force flushedAny (item :: rest) =
      if force = true ∨ flushedAny = true ∨ archiveReorderHoldSeconds ≤ now - item.recvMono ∨
          2 ≤ (item :: rest).length then
        (item.receipt :: (drainLoop now force true rest).1, (drainLoop now force true rest).2)
      else ([], item :: rest) := rfl

/-- After one item was flushed, and under force, the whole heap is. -/
theorem drainLoop_all (now : ℚ) {force flushedAny : Bool} (h : force = true ∨ flushedAny = true)
    (heap : List HeapItem) :
    drainLoop now force flushedAny heap = (heap.map HeapItem.receipt, []) := by
  induction heap generalizing flushedAny with
  | nil => rfl
  | cons item heap ih =>
      rw [drainLoop_cons, if_pos (by rcases h with h | h <;> simp [h]), ih (Or.inr rfl)]
      rfl

theorem drainLoop_single (now : ℚ) (item : HeapItem) :
    drainLoop now false false [item] =
      if now - item.recvMono < archiveReorderHoldSeconds then ([], [item])
      else ([item.receipt], []) := by
  rw [drainLoop_cons, drainLoop_nil]
  by_cases hage : now - item.recvMono < archiveReorderHoldSeconds
  · rw [if_pos hage, if_neg (by simpa using hage)]
  · rw [if_neg hage, if_pos (by simpa using hage)]

/-- Two items release each other. -/
theorem drainLoop_pair (now : ℚ) (a b : HeapItem) :
    drainLoop now false false [a, b] = ([a.receipt, b.receipt], []) := by
  rw [drainLoop_cons, if_pos (by simp), drainLoop_all now (Or.inr rfl)]
  rfl

/-- The loop takes a first part of the heap. -/
theorem drainLoop_append (now : ℚ) (force flushedAny : Bool) (heap : List HeapItem) :
    (drainLoop now force flushedAny heap).1 ++
      (drainLoop now force flushedAny heap).2.map HeapItem.receipt =
        heap.map HeapItem.receipt := by
  induction heap generalizing flushedAny with
  | nil => rfl
  | cons item heap ih =>
      rw [drainLoop_cons]
      split
      · exact congrArg (item.receipt :: ·) (ih true)
      · rfl

@[simp] theorem drainHost_taken (s : Worker) (host : String) (now : ℚ) (force : Bool) :
    (drainHost s host now force).taken = s.taken := by
  unfold drainHost
  split <;> rfl

@[simp] theorem drainHost_recvSeq (s : Worker) (host : String) (now : ℚ) (force : Bool) :
    (drainHost s host now force).recvSeq = s.recvSeq := by
  unfold drainHost
  split <;> rfl

theorem appended_drainHost (s : Worker) (host : String) (now : ℚ) (force : Bool) :
    (drainHost s host now force).appended =
      s.appended ++ (drainLoop now force false (s.heap host)).1 := by
  unfold drainHost
  by_cases hnil : s.heap host = []
  · rw [if_pos hnil, hnil, drainLoop_nil, List.append_nil]
  · rw [if_neg hnil]

theorem heap_drainHost (s : Worker) (host : String) (now : ℚ) (force : Bool) (q : String) :
    (drainHost s host now force).heap q =
      if q = host then (drainLoop now force false (s.heap host)).2 else s.heap q := by
  unfold drainHost
  by_cases hnil : s.heap host = []
  · rw [if_pos hnil]
    by_cases hq : q = host
    · rw [if_pos hq, hq, hnil, drainLoop_nil]
    · rw [if_neg hq]
  · rw [if_neg hnil]
    by_cases hleft : (drainLoop now force false (s.heap host)).2 = []
    · dsimp only [Worker.heap] at hleft ⊢
      rw [if_pos hleft, get_pop]
      by_cases hq : q = host
      · rw [if_pos hq, if_pos hq, hleft]
        rfl
      · rw [if_neg hq, if_neg hq]
    · dsimp only [Worker.heap] at hleft ⊢
      rw [if_neg hleft, get_set]
      by_cases hq : q = host
      · rw [if_pos hq, if_pos hq]
        rfl
      · rw [if_neg hq, if_neg hq]

/-- Every heap has only payloads of its host. -/
def HeapsOk (s : Worker) : Prop :=
  ∀ host, ∀ item ∈ s.heap host, item.receipt.work.host = host

theorem host_of_mem_drainLoop {now : ℚ} {force : Bool} {heap : List HeapItem} {host : String}
    (h : ∀ item ∈ heap, item.receipt.work.host = host) {r : Receipt}
    (hr : r ∈ (drainLoop now force false heap).1 ++
      (drainLoop now force false heap).2.map HeapItem.receipt) : r.work.host = host := by
  rw [drainLoop_append] at hr
  obtain ⟨item, hitem, rfl⟩ := List.mem_map.mp hr
  exact h item hitem

theorem HeapsOk.drainHost {s : Worker} (h : HeapsOk s) (host : String) (now : ℚ) (force : Bool) :
    HeapsOk (drainHost s host now force) := by
  intro q item hitem
  rw [heap_drainHost] at hitem
  by_cases hq : q = host
  · rw [if_pos hq] at hitem
    rw [hq]
    exact host_of_mem_drainLoop (h host)
      (List.mem_append_right _ (List.mem_map_of_mem hitem))
  · rw [if_neg hq] at hitem
    exact h q item hitem

/-- Draining the heap of a host appends to the file of that host. -/
theorem hostFile_drainHost {s : Worker} {host : String}
    (h : ∀ item ∈ s.heap host, item.receipt.work.host = host) (now : ℚ) (force : Bool) (q : String) :
    (drainHost s host now force).hostFile q =
      s.hostFile q ++ if q = host then (drainLoop now force false (s.heap host)).1 else [] := by
  unfold Worker.hostFile
  rw [appended_drainHost, List.filter_append]
  congr 1
  have hhost : ∀ r ∈ (drainLoop now force false (s.heap host)).1, r.work.host = host := by
    intro r hr
    exact host_of_mem_drainLoop h (List.mem_append_left _ hr)
  by_cases hq : q = host
  · rw [if_pos hq, List.filter_eq_self]
    intro r hr
    simp [hhost r hr, hq]
  · rw [if_neg hq, List.filter_eq_nil_iff]
    intro r hr
    simp [hhost r hr, Ne.symm hq]

/-- The hosts are drained one after another, each by itself. -/
theorem foldl_drainHost (now : String → ℚ) (force : Bool) (hosts : List String) (s : Worker)
    (hok : HeapsOk s) (hnodup : hosts.Nodup) (q : String) :
    (hosts.foldl (fun s host => drainHost s host (now host) force) s).heap q =
        (if q ∈ hosts then (drainLoop (now q) force false (s.heap q)).2 else s.heap q) ∧
      (hosts.foldl (fun s host => drainHost s host (now host) force) s).hostFile q =
        s.hostFile q ++ if q ∈ hosts then (drainLoop (now q) force false (s.heap q)).1 else [] := by
  induction hosts generalizing s with
  | nil => simp
  | cons host hosts ih =>
      obtain ⟨hnot, hnodup⟩ := List.nodup_cons.mp hnodup
      obtain ⟨hheap, hfile⟩ := ih (drainHost s host (now host) force) (hok.drainHost _ _ _) hnodup
      rw [List.foldl_cons, hheap, hfile, heap_drainHost, hostFile_drainHost (hok host)]
      by_cases hq : q = host
      · subst hq
        simp [hnot]
      · simp [hq]

/-- What `_drain_all` does to each host. -/
theorem drainAll_spec {s : Worker} (hok : HeapsOk s) (now : String → ℚ) (force : Bool) (q : String) :
    (drainAll s now force).heap q = (drainLoop (now q) force false (s.heap q)).2 ∧
      (drainAll s now force).hostFile q =
        s.hostFile q ++ (drainLoop (now q) force false (s.heap q)).1 := by
  obtain ⟨hheap, hfile⟩ := foldl_drainHost now force _ s hok s.heaps.nodup q
  unfold drainAll
  rw [hheap, hfile]
  by_cases hq : q ∈ s.heaps.entries.map Prod.fst
  · rw [if_pos hq, if_pos hq]
    exact ⟨rfl, rfl⟩
  · have hnone : s.heap q = [] := by
      unfold Worker.heap
      rw [← isSome_get_iff, Option.not_isSome_iff_eq_none] at hq
      rw [hq]
      rfl
    rw [if_neg hq, if_neg hq, hnone, drainLoop_nil]
    exact ⟨rfl, rfl⟩

theorem drainAll_taken (s : Worker) (now : String → ℚ) (force : Bool) :
    (drainAll s now force).taken = s.taken ∧ (drainAll s now force).recvSeq = s.recvSeq := by
  unfold drainAll
  generalize s.heaps.entries.map Prod.fst = hosts
  induction hosts generalizing s with
  | nil => exact ⟨rfl, rfl⟩
  | cons host hosts ih =>
      rw [List.foldl_cons]
      obtain ⟨htaken, hseq⟩ := ih (drainHost s host (now host) force)
      exact ⟨htaken.trans (drainHost_taken _ _ _ _), hseq.trans (drainHost_recvSeq _ _ _ _)⟩

/-! ## The heaps hold what the events say -/

/-- The heap entry of a payload. -/
def heapItem (r : Receipt) (recvSeq : ℕ) : HeapItem :=
  ⟨archiveReorderSortKey r.work.unixSecond r.work.isDollar recvSeq, r.work.recvMonotonic, r⟩

/-- The heap of a host has the one payload that waits, if one does. -/
def HeapIs (s : Worker) (host : String) : Option Receipt → Prop
  | none => s.heap host = []
  | some r => ∃ recvSeq < s.recvSeq, s.heap host = [heapItem r recvSeq] ∧ r.work.unixSecond ≠ none

/-- What the file of a host has once the payload that waits is appended. -/
def wholeFile (s : Worker) (host : String) (events : List Event) : List Receipt :=
  s.hostFile host ++ (held host events).toList

/-- A worker after some events. -/
structure Mirrors (s : Worker) (events : List Event) : Prop where
  taken : s.taken = (receipts events).length
  heap : ∀ host, HeapIs s host (held host events)
  file : ∀ host, (wholeFile s host events).Perm (arrivals host events)

/-- Where a new payload comes in the file of its host: before the one that waits when it belongs
there, else at the end. -/
def placed (file : List Receipt) (waits : Option Receipt) (r : Receipt) : List Receipt :=
  match waits with
  | none => file ++ [r]
  | some y => if r.work.sampleKey < y.work.sampleKey then file ++ [r, y] else file ++ [y, r]

theorem placed_perm (file : List Receipt) (waits : Option Receipt) (r : Receipt) :
    (placed file waits r).Perm (file ++ waits.toList ++ [r]) := by
  unfold placed
  cases waits with
  | none =>
      rw [Option.toList_none, List.append_nil]
  | some y =>
      dsimp only
      rw [Option.toList_some, List.append_assoc]
      split
      · exact (List.Perm.swap y r []).append_left file
      · exact List.Perm.refl _

theorem Mirrors.init : Mirrors Worker.init [] where
  taken := rfl
  heap := fun _ => rfl
  file := fun _ => List.Perm.refl _

theorem Mirrors.held_mem {s : Worker} {events : List Event} (h : Mirrors s events) {host : String}
    {r : Receipt} (hr : held host events = some r) : r ∈ arrivals host events := by
  apply (h.file host).mem_iff.mp
  unfold wholeFile
  rw [hr]
  simp

theorem Mirrors.heapsOk {s : Worker} {events : List Event} (h : Mirrors s events) : HeapsOk s := by
  intro host item hitem
  have hheap := h.heap host
  rcases hheld : held host events with _ | r
  · rw [hheld] at hheap
    rw [show s.heap host = [] from hheap] at hitem
    exact absurd hitem List.not_mem_nil
  · rw [hheld] at hheap
    obtain ⟨recvSeq, -, heq, -⟩ := hheap
    rw [heq, List.mem_singleton] at hitem
    have hmem := h.held_mem hheld
    rw [hitem]
    show r.work.host = host
    simpa using (List.mem_filter.mp hmem).2

/-- When the queue stays empty the worker appends what has waited long enough. -/
theorem Mirrors.step_empty {s : Worker} {events : List Event} (h : Mirrors s events)
    (now : String → ℚ) (host : String) :
    HeapIs (drainAll s now false) host (held host (events ++ [Event.empty now])) ∧
      wholeFile (drainAll s now false) host (events ++ [Event.empty now]) = wholeFile s host events := by
  obtain ⟨hheap, hfile⟩ := drainAll_spec h.heapsOk now false host
  have hseq := (drainAll_taken s now false).2
  have hold := h.heap host
  unfold wholeFile
  rw [held_snoc_empty, hfile]
  rcases hheld : held host events with _ | r
  · rw [hheld] at hold
    rw [show s.heap host = [] from hold, drainLoop_nil] at hheap ⊢
    refine ⟨hheap, ?_⟩
    simp
  · rw [hheld] at hold
    obtain ⟨recvSeq, hlt, heq, hsecond⟩ := hold
    rw [heq, drainLoop_single] at hheap ⊢
    by_cases hage : now host - r.work.recvMonotonic < archiveReorderHoldSeconds
    · have hage' : now host - (heapItem r recvSeq).recvMono < archiveReorderHoldSeconds := hage
      rw [if_pos hage'] at hheap ⊢
      rw [Option.filter_some_pos (by simpa using hage)]
      refine ⟨⟨recvSeq, by rw [hseq]; exact hlt, hheap, hsecond⟩, ?_⟩
      rw [List.append_nil]
    · have hage' : ¬ now host - (heapItem r recvSeq).recvMono < archiveReorderHoldSeconds := hage
      rw [if_neg hage'] at hheap ⊢
      rw [Option.filter_some_neg (by simpa using hage)]
      refine ⟨hheap, ?_⟩
      simp [heapItem]

theorem hostFile_append (s : Worker) (taken : ℕ) (r : Receipt) (host : String) :
    { s with taken := taken, appended := s.appended ++ [r] }.hostFile host =
      s.hostFile host ++ if r.work.host = host then [r] else [] := by
  unfold Worker.hostFile
  rw [List.filter_append]
  by_cases hhost : r.work.host = host
  · simp [hhost]
  · simp [hhost]

/-- The worker after a payload was pushed on the heap of its host and before the heap is drained. -/
def pushed (s : Worker) (work : ArchiveWorkItem) : Worker :=
  { s with
    taken := s.taken + 1
    recvSeq := s.recvSeq + 1
    heaps := s.heaps.set work.host
      (heappush (s.heap work.host) (heapItem ⟨s.taken, work⟩ s.recvSeq)) }

theorem heap_pushed (s : Worker) (work : ArchiveWorkItem) (q : String) :
    (pushed s work).heap q =
      if q = work.host then heappush (s.heap work.host) (heapItem ⟨s.taken, work⟩ s.recvSeq)
      else s.heap q := by
  unfold pushed Worker.heap
  dsimp only
  rw [get_set]
  by_cases hq : q = work.host
  · rw [if_pos hq, if_pos hq]
    rfl
  · rw [if_neg hq, if_neg hq]

theorem HeapsOk.pushed {s : Worker} (h : HeapsOk s) (work : ArchiveWorkItem) :
    ∀ item ∈ (pushed s work).heap work.host, item.receipt.work.host = work.host := by
  intro item hitem
  rw [heap_pushed, if_pos rfl, heappush, List.mem_orderedInsert] at hitem
  rcases hitem with rfl | hitem
  · rfl
  · exact h work.host item hitem

theorem step_get_skip {consumers : ℕ} (s : Worker) {work : ArchiveWorkItem} (now : ℚ)
    (hnone : work.unixSecond = none) :
    step consumers s (.get work now) =
      { s with taken := s.taken + 1, appended := s.appended ++ [⟨s.taken, work⟩] } := by
  unfold step
  exact if_pos (Or.inr hnone)

theorem step_get_push {consumers : ℕ} (hc : 1 < consumers) (s : Worker) {work : ArchiveWorkItem}
    (now : ℚ) (hsome : work.unixSecond ≠ none) :
    step consumers s (.get work now) = drainHost (pushed s work) work.host now false := by
  unfold step
  apply if_neg
  rintro (hle | hnone)
  · omega
  · exact hsome hnone

/-- A payload of another host changes neither the heap nor the file of a host. -/
theorem Mirrors.step_get_other {consumers : ℕ} (hc : 1 < consumers) {s : Worker} {events : List Event}
    (h : Mirrors s events) (work : ArchiveWorkItem) (now : ℚ) {host : String}
    (hne : work.host ≠ host) :
    HeapIs (step consumers s (.get work now)) host (held host (events ++ [Event.get work now])) ∧
      wholeFile (step consumers s (.get work now)) host (events ++ [Event.get work now]) =
        wholeFile s host events := by
  have hheap := h.heap host
  unfold wholeFile
  rw [held_snoc_get, if_neg (fun hw => hne hw.1)]
  by_cases hnone : work.unixSecond = none
  · rw [step_get_skip s now hnone, hostFile_append, if_neg hne, List.append_nil]
    exact ⟨hheap, rfl⟩
  · have hne' : ¬ host = work.host := fun heq => hne heq.symm
    rw [step_get_push hc s now hnone, hostFile_drainHost (h.heapsOk.pushed work), if_neg hne',
      List.append_nil]
    refine ⟨?_, rfl⟩
    rcases hheld : held host events with _ | r
    · rw [hheld] at hheap
      show (drainHost (pushed s work) work.host now false).heap host = []
      rw [heap_drainHost, if_neg hne', heap_pushed, if_neg hne']
      exact hheap
    · rw [hheld] at hheap
      obtain ⟨recvSeq, hlt, heq, hsecond⟩ := hheap
      refine ⟨recvSeq, ?_, ?_, hsecond⟩
      · rw [drainHost_recvSeq]
        show recvSeq < s.recvSeq + 1
        omega
      · rw [heap_drainHost, if_neg hne', heap_pushed, if_neg hne']
        exact heq

/-- A payload without a timestamp is appended before the one that waits. -/
theorem Mirrors.step_get_untimed {consumers : ℕ} {s : Worker} {events : List Event}
    (h : Mirrors s events) {work : ArchiveWorkItem} (now : ℚ) (hnone : work.unixSecond = none) :
    HeapIs (step consumers s (.get work now)) work.host
        (held work.host (events ++ [Event.get work now])) ∧
      wholeFile (step consumers s (.get work now)) work.host (events ++ [Event.get work now]) =
        placed (s.hostFile work.host) (held work.host events) ⟨s.taken, work⟩ := by
  have hheap := h.heap work.host
  unfold wholeFile
  rw [held_snoc_get, if_neg (fun hw => hw.2 hnone), step_get_skip s now hnone, hostFile_append,
    if_pos rfl]
  refine ⟨hheap, ?_⟩
  unfold placed
  rcases hheld : held work.host events with _ | y
  · exact List.append_nil _
  · rw [hheld] at hheap
    obtain ⟨-, -, -, hsecond⟩ := hheap
    dsimp only
    rw [if_pos (sampleKey_lt_of_none hnone hsecond), List.append_assoc]
    rfl

/-- In the heap a new payload stands before the one that waits exactly when its sample does. -/
theorem heappush_heapItem (r y : Receipt) {m n : ℕ} (h : m < n) :
    heappush [heapItem y m] (heapItem r n) =
      if r.work.sampleKey < y.work.sampleKey then [heapItem r n, heapItem y m]
      else [heapItem y m, heapItem r n] := by
  have hlt := sortKey_lt_iff_of_lt y.work r.work h
  unfold heappush
  by_cases hkey : r.work.sampleKey < y.work.sampleKey
  · rw [if_pos hkey, List.orderedInsert_cons_of_le]
    exact le_of_lt (hlt.mpr hkey)
  · rw [if_neg hkey, List.orderedInsert_of_not_le, List.orderedInsert_nil]
    intro hle
    -- the keys differ in their sequence numbers
    rcases lt_or_eq_of_le hle with hlt' | heq
    · exact hkey (hlt.mp hlt')
    · have hseq := seq_eq_of_sortKey_eq heq
      omega

/-- A payload with a timestamp waits when none does, and else is appended with the one that does. -/
theorem Mirrors.step_get_timed {consumers : ℕ} (hc : 1 < consumers) {s : Worker}
    {events : List Event} (h : Mirrors s events) {work : ArchiveWorkItem} (now : ℚ)
    (hsome : work.unixSecond ≠ none) :
    HeapIs (step consumers s (.get work now)) work.host
        (held work.host (events ++ [Event.get work now])) ∧
      wholeFile (step consumers s (.get work now)) work.host (events ++ [Event.get work now]) =
        placed (s.hostFile work.host) (held work.host events) ⟨s.taken, work⟩ := by
  have hheap := h.heap work.host
  have hfile : (pushed s work).hostFile work.host = s.hostFile work.host := rfl
  unfold wholeFile
  rw [held_snoc_get, if_pos ⟨rfl, hsome⟩, step_get_push hc s now hsome,
    hostFile_drainHost (h.heapsOk.pushed work), if_pos rfl, hfile, heap_pushed, if_pos rfl,
    ← h.taken]
  have hafter : (drainHost (pushed s work) work.host now false).heap work.host =
      (drainLoop now false false
        (heappush (s.heap work.host) (heapItem ⟨s.taken, work⟩ s.recvSeq))).2 := by
    rw [heap_drainHost, if_pos rfl, heap_pushed, if_pos rfl]
  unfold placed
  rcases hheld : held work.host events with _ | y
  · rw [hheld] at hheap
    rw [show s.heap work.host = [] from hheap] at hafter ⊢
    rw [show heappush [] (heapItem ⟨s.taken, work⟩ s.recvSeq) =
      [heapItem ⟨s.taken, work⟩ s.recvSeq] from rfl, drainLoop_single] at hafter ⊢
    by_cases hage : now - work.recvMonotonic < archiveReorderHoldSeconds
    · have hage' : now - (heapItem ⟨s.taken, work⟩ s.recvSeq).recvMono <
          archiveReorderHoldSeconds := hage
      rw [if_pos hage'] at hafter ⊢
      rw [if_pos ⟨rfl, hage⟩]
      refine ⟨⟨s.recvSeq, ?_, hafter, hsome⟩, ?_⟩
      · rw [drainHost_recvSeq]
        exact Nat.lt_succ_self s.recvSeq
      · rw [List.append_nil]
        rfl
    · have hage' : ¬ now - (heapItem ⟨s.taken, work⟩ s.recvSeq).recvMono <
          archiveReorderHoldSeconds := hage
      rw [if_neg hage'] at hafter ⊢
      rw [if_neg (fun hw => hage hw.2)]
      exact ⟨hafter, List.append_nil _⟩
  · rw [hheld] at hheap
    obtain ⟨recvSeq, hlt, heq, -⟩ := hheap
    rw [heq, heappush_heapItem _ _ hlt] at hafter ⊢
    rw [if_neg (fun hw => absurd hw.1 (by simp)), Option.toList_none, List.append_nil]
    dsimp only
    by_cases hkey : work.sampleKey < y.work.sampleKey
    · rw [if_pos hkey] at hafter ⊢
      rw [if_pos hkey]
      rw [drainLoop_pair] at hafter ⊢
      exact ⟨hafter, rfl⟩
    · rw [if_neg hkey] at hafter ⊢
      rw [if_neg hkey]
      rw [drainLoop_pair] at hafter ⊢
      exact ⟨hafter, rfl⟩

/-- What one event does to the file of a host. -/
theorem Mirrors.wholeFile_step {consumers : ℕ} (hc : 1 < consumers) {s : Worker}
    {events : List Event} (h : Mirrors s events) (e : Event) (host : String) :
    HeapIs (step consumers s e) host (held host (events ++ [e])) ∧
      wholeFile (step consumers s e) host (events ++ [e]) =
        match e with
        | .get work _ =>
            if work.host = host then
              placed (s.hostFile host) (held host events) ⟨(receipts events).length, work⟩
            else wholeFile s host events
        | .empty _ => wholeFile s host events := by
  cases e with
  | empty now => exact h.step_empty now host
  | get work now =>
      dsimp only
      by_cases hhost : work.host = host
      · subst hhost
        rw [if_pos rfl, ← h.taken]
        by_cases hnone : work.unixSecond = none
        · exact h.step_get_untimed now hnone
        · exact h.step_get_timed hc now hnone
      · rw [if_neg hhost]
        exact h.step_get_other hc work now hhost

theorem Mirrors.step {consumers : ℕ} (hc : 1 < consumers) {s : Worker} {events : List Event}
    (h : Mirrors s events) (e : Event) :
    Mirrors (step consumers s e) (events ++ [e]) where
  taken := by
    cases e with
    | empty now =>
        rw [receipts_snoc_empty]
        exact (drainAll_taken s now false).1.trans h.taken
    | get work now =>
        rw [receipts_snoc_get, List.length_append, ← h.taken]
        by_cases hnone : work.unixSecond = none
        · rw [step_get_skip s now hnone]
          rfl
        · rw [step_get_push hc s now hnone, drainHost_taken]
          rfl
  heap host := (h.wholeFile_step hc e host).1
  file host := by
    rw [(h.wholeFile_step hc e host).2]
    cases e with
    | empty now =>
        rw [arrivals_snoc_empty]
        exact h.file host
    | get work now =>
        dsimp only
        rw [arrivals_snoc_get]
        by_cases hhost : work.host = host
        · rw [if_pos hhost, if_pos hhost]
          exact (placed_perm _ _ _).trans ((h.file host).append_right _)
        · rw [if_neg hhost, if_neg hhost, List.append_nil]
          exact h.file host

/-- **The heaps hold what the events say**, after every list of events. -/
theorem mirrors_run {consumers : ℕ} (hc : 1 < consumers) (events : List Event) :
    Mirrors (events.foldl (ArchiveReorder.step consumers) Worker.init) events := by
  induction events using List.reverseRecOn with
  | nil => exact Mirrors.init
  | append_singleton events e ih =>
      rw [List.foldl_append]
      exact ih.step hc e

/-- At the end the payload that waits is appended, too. -/
theorem hostFile_archiveWorkerMain {consumers : ℕ} (hc : 1 < consumers) (events : List Event)
    (now : String → ℚ) (host : String) :
    (archiveWorkerMain consumers events now).hostFile host =
      wholeFile (events.foldl (ArchiveReorder.step consumers) Worker.init) host events := by
  have h := mirrors_run hc events
  have hheap := h.heap host
  unfold archiveWorkerMain wholeFile
  rw [(drainAll_spec h.heapsOk now true host).2, drainLoop_all _ (Or.inl rfl)]
  congr 1
  rcases hheld : held host events with _ | r
  · rw [hheld] at hheap
    rw [show Worker.heap _ host = [] from hheap]
    rfl
  · rw [hheld] at hheap
    obtain ⟨recvSeq, -, heq, -⟩ := hheap
    rw [heq]
    rfl

/-! ## When the file is in order -/

theorem nodup_map_number (events : List Event) : ((receipts events).map Receipt.number).Nodup := by
  unfold receipts
  rw [List.map_map]
  have hmap : (Receipt.number ∘ fun p : ArchiveWorkItem × ℕ => ⟨p.2, p.1⟩) = Prod.snd := rfl
  rw [hmap, List.zipIdx_map_snd]
  exact List.nodup_range'

/-- A new payload keeps the file in order exactly when it belongs after all that were appended. -/
theorem pairwise_placed {file : List Receipt} {waits : Option Receipt} {r : Receipt}
    (hnumber : ∀ y ∈ file ++ waits.toList, y.number < r.number)
    (hnodup : (file ++ waits.toList).Nodup) :
    (placed file waits r).Pairwise Receipt.Before ↔
      (file ++ waits.toList).Pairwise Receipt.Before ∧
        ∀ y ∈ file ++ waits.toList, r.work.sampleKey < y.work.sampleKey → waits = some y := by
  cases waits with
  | none =>
      rw [Option.toList_none, List.append_nil] at hnumber ⊢
      show (file ++ [r]).Pairwise Receipt.Before ↔ _
      rw [List.pairwise_append]
      constructor
      · rintro ⟨hfile, -, hlast⟩
        refine ⟨hfile, ?_⟩
        intro y hy hlt
        exact absurd hlt ((before_iff_of_lt (hnumber y hy)).mp (hlast y hy r (by simp)))
      · rintro ⟨hfile, hover⟩
        refine ⟨hfile, List.pairwise_singleton _ _, ?_⟩
        intro y hy z hz
        rw [List.mem_singleton.mp hz, before_iff_of_lt (hnumber y hy)]
        intro hlt
        exact absurd (hover y hy hlt) (by simp)
  | some x =>
      rw [Option.toList_some] at hnumber hnodup ⊢
      have hx : x.number < r.number := hnumber x (by simp)
      have hfresh : ∀ y ∈ file, some x ≠ some y := by
        intro y hy heq
        rw [← Option.some.inj heq] at hy
        exact List.disjoint_of_nodup_append hnodup hy (by simp)
      -- what is in the file already has to belong before the new payload in both cases
      have hover : (∀ y ∈ file ++ [x], r.work.sampleKey < y.work.sampleKey → some x = some y) ↔
          ∀ y ∈ file, y.Before r := by
        constructor
        · intro h y hy
          rw [before_iff_of_lt (hnumber y (List.mem_append_left _ hy))]
          intro hlt
          exact hfresh y hy (h y (List.mem_append_left _ hy) hlt)
        · intro h y hy hlt
          rcases List.mem_append.mp hy with hy | hy
          · exact absurd hlt ((before_iff_of_lt (hnumber y (List.mem_append_left _ hy))).mp (h y hy))
          · rw [List.mem_singleton.mp hy]
      rw [hover]
      unfold placed
      dsimp only
      by_cases hkey : r.work.sampleKey < x.work.sampleKey
      · rw [if_pos hkey]
        have hrx := before_of_sampleKey_lt hx hkey
        simp only [List.pairwise_append, List.pairwise_cons, List.mem_cons, List.not_mem_nil]
        grind
      · rw [if_neg hkey]
        have hxr := (before_iff_of_lt hx).mpr hkey
        simp only [List.pairwise_append, List.pairwise_cons, List.mem_cons, List.not_mem_nil]
        grind

/-- The file of a host with the payload that waits is in order exactly under the condition. -/
theorem pairwise_wholeFile_iff {consumers : ℕ} (hc : 1 < consumers) (host : String)
    (events : List Event) :
    (wholeFile (events.foldl (ArchiveReorder.step consumers) Worker.init) host events).Pairwise
        Receipt.Before ↔ OvertakesOnlyHeld host events := by
  induction events using List.reverseRecOn with
  | nil =>
      constructor
      · intro _ pre work now post heq
        exact absurd heq (by simp)
      · intro _
        exact List.Pairwise.nil
  | append_singleton events e ih =>
      have h := mirrors_run hc events
      rw [List.foldl_append, List.foldl_cons, List.foldl_nil, overtakesOnlyHeld_snoc, ← ih,
        (h.wholeFile_step hc e host).2]
      cases e with
      | empty now => simp
      | get work now =>
          dsimp only
          by_cases hhost : work.host = host
          · rw [if_pos hhost, pairwise_placed]
            · constructor
              · rintro ⟨hfile, hover⟩
                refine ⟨hfile, ?_⟩
                intro w t heq _ r hr
                obtain ⟨rfl, -⟩ : work = w ∧ now = t := by simpa using heq
                exact hover r ((h.file host).mem_iff.mpr hr)
              · rintro ⟨hfile, hover⟩
                refine ⟨hfile, ?_⟩
                intro y hy
                exact hover work now rfl hhost y ((h.file host).mem_iff.mp hy)
            · intro y hy
              exact number_lt_of_mem_arrivals ((h.file host).mem_iff.mp hy)
            · apply (h.file host).nodup_iff.mpr
              exact (nodup_map_number events).of_map.filter _
          · rw [if_neg hhost]
            constructor
            · intro hfile
              refine ⟨hfile, ?_⟩
              intro w t heq hw
              obtain ⟨rfl, -⟩ : work = w ∧ now = t := by simpa using heq
              exact absurd hw hhost
            · exact And.left

/-- **With more than one consumer the file of a host is in order exactly when every payload that belongs
before an earlier one finds that one waiting.** -/
theorem archivedInOrder_iff {consumers : ℕ} (hc : 1 < consumers) (host : String)
    (events : List Event) (now : String → ℚ) :
    ArchivedInOrder consumers host events now ↔ OvertakesOnlyHeld host events := by
  have h := mirrors_run hc events
  rw [← pairwise_wholeFile_iff hc]
  unfold ArchivedInOrder
  rw [hostFile_archiveWorkerMain hc]
  constructor
  · intro heq
    rw [heq]
    exact List.pairwise_insertionSort _ _
  · intro hsorted
    have hperm := (h.file host).trans (List.perm_insertionSort Receipt.Before _).symm
    refine hperm.eq_of_pairwise ?_ hsorted (List.pairwise_insertionSort _ _)
    intro r s hr hs hrs hsr
    have hr' := List.mem_of_mem_filter ((h.file host).mem_iff.mp hr)
    have hs' := List.mem_of_mem_filter ((List.mem_insertionSort _).mp hs)
    exact List.inj_on_of_nodup_map (nodup_map_number events) hr' hs'
      (seq_eq_of_sortKey_eq (le_antisymm hrs hsr))

/-- A sample of a host at a second, received `tenths` tenths of a second after the first. -/
def sampleAt (second : UnixSecond) (tenths : ℕ) : ArchiveWorkItem :=
  ⟨"", "c001", some second, false, tenths / 10⟩

/-- Two samples of which the later one came first. -/
def twoDescending : List Event :=
  [.get (sampleAt ⟨1710000002, by decide⟩ 0) 0, .get (sampleAt ⟨1710000001, by decide⟩ 1) (1 / 10)]

theorem archivedInOrder_iff_twoDescending :
    ArchivedInOrder 2 "c001" twoDescending (fun _ => 1 / 10) ∧
      OvertakesOnlyHeld "c001" twoDescending := by
  have horder : ArchivedInOrder 2 "c001" twoDescending (fun _ => 1 / 10) := by
    unfold ArchivedInOrder
    decide +kernel
  exact ⟨horder, (archivedInOrder_iff (by decide) _ _ _).mp horder⟩

/-- Three samples, each later than the next one, within a fifth of a second. -/
def threeDescending : List Event :=
  [.get (sampleAt ⟨1710000003, by decide⟩ 0) 0, .get (sampleAt ⟨1710000002, by decide⟩ 1) (1 / 10),
    .get (sampleAt ⟨1710000001, by decide⟩ 2) (1 / 5)]

/-- The third of three samples that came within the hold time is written after two that are later. -/
theorem not_archivedInOrder_threeDescending :
    (∀ r ∈ arrivals "c001" threeDescending, ∀ s ∈ arrivals "c001" threeDescending,
        r.work.recvMonotonic - s.work.recvMonotonic < archiveReorderHoldSeconds) ∧
      ¬ ArchivedInOrder 2 "c001" threeDescending (fun _ => 1 / 5) := by
  unfold ArchivedInOrder
  decide +kernel

end ArchiveReorder
