/-
# Readers that remove the lock's sidecar (`_remove_read_lock_sidecar`)

The archive readers (`get_existing_archive_members`, `get_mutable_tar_authority_member_map`,
`read_stats_file_head_identity`) read under `file_read_lock_wait` and then remove the sidecar
`<path>.fnctl.lock` by name, whether they got the lock or not.  They run here beside any number of
other users of `FileLocking`.

A process that is in an archive reader has `reading`; it starts with a call of `file_read_lock_wait`, may
try again after a refusal, and leaves with `cleanup` when it is between two calls: after it has
released its lock, or after the time limit.

* `LibrarySafe` is what is taken for granted of `file_locking`: its own removals find no caller that has
  the named inode open for its own lock.  Under it alone the functions exclude one another
  (`FileLocking.exclusive_of_unlinkSafe`).
* `CleanupSafe` is the same for the removals of the readers, which nothing in the source ensures.
-/
import HpcPerfStats.FileLocking

namespace ReadCleanup

open FileLocking Transition

variable {n : ℕ}

/-- The lock file, and which processes are in an archive reader. -/
structure State (n : ℕ) where
  lock : FileLocking.State n
  reading : Fin n → Bool

/-- No sidecar file, every process idle. -/
def State.init (n : ℕ) : State n := ⟨FileLocking.State.init n, fun _ => false⟩

/-- The steps of the processes. -/
inductive Act where
  /-- an archive reader starts and calls `file_read_lock_wait` -/
  | read
  /-- a step of `file_locking` -/
  | lock (act : FileLocking.Act)
  /-- `_remove_read_lock_sidecar`, in the `finally` block of an archive reader -/
  | cleanup
  deriving DecidableEq, Repr

/-- A process in an archive reader makes no other call than that of its lock. -/
def ownCall : FileLocking.Act → Bool
  | .call c _ => c == .reader
  | .next => true

/-- One step of the system. -/
def step (s : State n) : Fin n × Act → Option (State n)
  | (p, .read) =>
      if s.reading p = false then
        (FileLocking.step s.lock (p, .call .reader true)).map fun lock =>
          ⟨lock, Function.update s.reading p true⟩
      else none
  | (p, .lock act) =>
      if s.reading p = true → ownCall act = true then
        (FileLocking.step s.lock (p, act)).map fun lock => { s with lock := lock }
      else none
  | (p, .cleanup) =>
      if s.reading p = true ∧ s.lock.pc p = .idle then
        some ⟨s.lock.unlink, Function.update s.reading p false⟩
      else none

/-! ## The conditions -/

/-- The removals of `file_locking` itself are safe. -/
def LibrarySafe (s : State n) : Fin n × Act → Prop
  | (p, .read) => UnlinkSafe s.lock (p, .call .reader true)
  | (p, .lock act) => UnlinkSafe s.lock (p, act)
  | (_, .cleanup) => True

/-- An archive reader removes the sidecar only while no process has opened, or holds, its own lock on
the inode the name refers to. -/
def CleanupSafe (s : State n) : Fin n × Act → Prop
  | (_, .cleanup) => ∀ q, (s.lock.pc q).engaged ≠ none → s.lock.sidecar ≠ (s.lock.pc q).engaged
  | _ => True

instance (s : State n) : (a : Fin n × Act) → Decidable (LibrarySafe s a)
  | (p, .read) => inferInstanceAs (Decidable (UnlinkSafe s.lock (p, .call .reader true)))
  | (p, .lock act) => inferInstanceAs (Decidable (UnlinkSafe s.lock (p, act)))
  | (_, .cleanup) => isTrue trivial

instance (s : State n) : (a : Fin n × Act) → Decidable (CleanupSafe s a)
  | (_, .cleanup) =>
      inferInstanceAs (Decidable
        (∀ q, (s.lock.pc q).engaged ≠ none → s.lock.sidecar ≠ (s.lock.pc q).engaged))
  | (_, .read) => isTrue trivial
  | (_, .lock _) => isTrue trivial

/-! ## Mutual exclusion along runs -/

/-- A safe removal leaves every engaged caller on the named inode: there is none. -/
theorem engagedOnSidecar_unlink {s : FileLocking.State n} (hs : EngagedOnSidecar s)
    (hsafe : ∀ q, (s.pc q).engaged ≠ none → s.sidecar ≠ (s.pc q).engaged) :
    EngagedOnSidecar s.unlink := by
  intro q i hq
  rw [unlink_pc] at hq
  have hne : (s.pc q).engaged ≠ none := by
    rw [hq]
    exact Option.some_ne_none i
  have := hsafe q hne
  rw [hq] at this
  exact absurd (hs q i hq) this

/-- **The step lemma.** -/
theorem invariant_step (s : State n) (a : Fin n × Act) (s' : State n)
    (h : FlocksCompatible s.lock ∧ EngagedOnSidecar s.lock)
    (hsafe : LibrarySafe s a ∧ CleanupSafe s a) (hstep : step s a = some s') :
    FlocksCompatible s'.lock ∧ EngagedOnSidecar s'.lock := by
  obtain ⟨p, act⟩ := a
  cases act with
  | read =>
      rw [step] at hstep
      split_ifs at hstep
      obtain ⟨lock, hlock, rfl⟩ := Option.map_eq_some_iff.mp hstep
      exact ⟨flocksCompatible_step h.1 hlock, engagedOnSidecar_step h.2 hsafe.1 hlock⟩
  | lock act =>
      rw [step] at hstep
      split_ifs at hstep
      obtain ⟨lock, hlock, rfl⟩ := Option.map_eq_some_iff.mp hstep
      exact ⟨flocksCompatible_step h.1 hlock, engagedOnSidecar_step h.2 hsafe.1 hlock⟩
  | cleanup =>
      rw [step] at hstep
      split_ifs at hstep
      rw [Option.some.injEq] at hstep
      subst hstep
      exact ⟨h.1, engagedOnSidecar_unlink h.2 hsafe.2⟩

/-- **Mutual exclusion with archive readers.**  For any number of processes: in every state reached by a
run in which `file_locking` removes the sidecar safely and so do the readers, no two writers hold the
lock and no reader holds it together with a writer. -/
theorem exclusive_of_cleanupSafe (n : ℕ) (as : List (Fin n × Act)) (s : State n)
    (hsafe : Respects step (fun s a => LibrarySafe s a ∧ CleanupSafe s a) (State.init n) as)
    (hrun : exec step (State.init n) as = some s) : Exclusive s.lock := by
  have hinit : FlocksCompatible (State.init n).lock ∧ EngagedOnSidecar (State.init n).lock := by
    constructor
    · intro p q _ i m m' hp _
      cases hp
    · intro q i hq
      cases hq
  have h := exec_invariant (I := fun s : State n => FlocksCompatible s.lock ∧ EngagedOnSidecar s.lock)
    invariant_step as (State.init n) s hinit hsafe hrun
  exact exclusive_of_invariant h.1 h.2

/-- One process performs its next `k` system calls. -/
def nextCalls (p : Fin n) (k : ℕ) : List (Fin n × Act) := List.replicate k (p, .lock .next)

/-- An archive reader reads, releases its lock and removes the sidecar; then a writer locks. -/
def readThenWrite : List (Fin 2 × Act) :=
  [(0, Act.read)] ++ nextCalls 0 4 ++ [(0, Act.cleanup), (1, Act.lock (.call .writer true))] ++ nextCalls 1 2

theorem exclusive_of_cleanupSafe_readThenWrite :
    ∃ s, exec step (State.init 2) readThenWrite = some s ∧
      s.lock.pc 1 = .holding .writer 1 ∧ Exclusive s.lock := by
  have hpc : (exec step (State.init 2) readThenWrite).map (fun s => s.lock.pc 1) =
      some (.holding .writer 1) := by
    decide
  obtain ⟨s, hs, hread⟩ := Option.map_eq_some_iff.mp hpc
  refine ⟨s, hs, hread, exclusive_of_cleanupSafe 2 readThenWrite s ?_ hs⟩
  decide

/-- Writer 0 holds the lock; an archive reader is refused until its time limit and removes the sidecar;
writer 2 creates and locks a new file. -/
def refusedReader : List (Fin 3 × Act) :=
  [(0, Act.lock (.call .writer true))] ++ nextCalls 0 2 ++ [(1, Act.read)] ++ nextCalls 1 6 ++
    [(1, Act.cleanup), (2, Act.lock (.call .writer true))] ++ nextCalls 2 2

/-- **Two holders.**  The removals of `file_locking` are safe, and still two writers hold the lock. -/
theorem not_exclusive_refusedReader :
    ∃ s, Respects step LibrarySafe (State.init 3) refusedReader ∧
      exec step (State.init 3) refusedReader = some s ∧ ¬ Exclusive s.lock := by
  have hpc : (exec step (State.init 3) refusedReader).map (fun s => (s.lock.pc 0, s.lock.pc 2)) =
      some (.holding .writer 0, .holding .writer 1) := by
    decide
  obtain ⟨s, hs, hread⟩ := Option.map_eq_some_iff.mp hpc
  rw [Prod.mk.injEq] at hread
  refine ⟨s, by decide, hs, ?_⟩
  intro hex
  exact hex 0 2 (by decide) 0 1 .writer hread.1 hread.2

end ReadCleanup
