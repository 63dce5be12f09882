/-
# The sidecar file lock (`file_locking.py`)

`file_write_lock`, `try_file_write_lock`, `file_read_lock_wait` and the
stale-lock reset take an advisory `flock` on a sidecar file
`<path>.fnctl.lock`.  A `flock` belongs to an INODE, while the callers meet
through a NAME: a writer unlinks the name after it has released its lock, and
`_maybe_reset_stale_lock_file` unlinks it after a successful probe, so one name
can stand for several inodes over time.

The model has any number `n` of processes.  Each process is at a program point
`PC n` of one of the three call bodies, one program point per system call of the
source (`open`, `flock`, `close`, `os.remove`), and `step` performs the next
system call of one process, so a run is an arbitrary interleaving.  `flock` is
modelled as the operating system documents it: with `LOCK_NB` a request for
`LOCK_EX` succeeds iff no other open descriptor of the inode is locked, and one
for `LOCK_SH` iff no other is locked `LOCK_EX`.

Times and retries: a contended caller closes its descriptor and either starts
its loop again or raises `TimeoutError`; both are a return to `idle`, from where
any call can start.  `try_file_write_lock` is `file_write_lock` with timeout 0.

Main results: `exclusive_of_unlinkSafe` (mutual exclusion along every run whose
unlinks find no process that has the named inode open for its own lock) and
`not_exclusive_three_writers` (without that condition it fails).
-/
import Mathlib.Data.Fintype.Basic
import HpcPerfStats.Transition

namespace FileLocking

open scoped Transition

/-! ## Callers and program points -/

/-- Who runs: `file_write_lock` (with `try_file_write_lock`), `file_read_lock_wait`,
or a bare stale-lock reset from the sidecar clean-up functions. -/
inductive Caller where
  | writer
  | reader
  | cleaner
  deriving DecidableEq, Repr

/-- `flock` modes. -/
inductive LockMode where
  | LOCK_SH
  | LOCK_EX
  deriving DecidableEq, Repr

/-- The mode a caller requests on its own descriptor. -/
def Caller.mode : Caller → LockMode
  | writer => .LOCK_EX
  | reader => .LOCK_SH
  | cleaner => .LOCK_EX

/-- An inode number; a new sidecar file gets a number never used before. -/
abbrev Inode := ℕ

/-- Program points.  The `reset…` points lie inside `_maybe_reset_stale_lock_file`,
the others in the body of the caller. -/
inductive PC where
  /-- between two calls (also: sleeping before a retry) -/
  | idle
  /-- `os.path.exists` was true and the age gate passed; next: `open(lock_path, "a+")` -/
  | resetExists (c : Caller)
  /-- next: `flock(lock_fd, LOCK_EX | LOCK_NB)` of the probe -/
  | resetOpened (c : Caller) (i : Inode)
  /-- the probe failed; next: `lock_fd.close()` of the `finally` block -/
  | resetFailed (c : Caller) (i : Inode)
  /-- the probe holds the lock; next: `flock(lock_fd, LOCK_UN)` -/
  | resetLocked (c : Caller) (i : Inode)
  /-- next: `lock_fd.close()` -/
  | resetUnlocked (c : Caller) (i : Inode)
  /-- next: `os.remove(lock_path)` -/
  | resetClosed (c : Caller)
  /-- the reset has returned; next: `_open_lock_file` -/
  | acquire (c : Caller)
  /-- next: `flock(lock_fd, LOCK_EX | LOCK_NB)` or `LOCK_SH | LOCK_NB` -/
  | opened (c : Caller) (i : Inode)
  /-- the lock was refused; next: `lock_fd.close()` -/
  | contended (c : Caller) (i : Inode)
  /-- inside the `with` body; next: `flock(lock_fd, LOCK_UN)` -/
  | holding (c : Caller) (i : Inode)
  /-- next: `lock_fd.close()` -/
  | unlocked (c : Caller) (i : Inode)
  /-- only a writer; next: `os.remove(lock_path)` -/
  | closed
  deriving DecidableEq, Repr

/-- The `flock` a process holds at a program point. -/
def PC.flock : PC → Option (Inode × LockMode)
  | .resetLocked _ i => some (i, .LOCK_EX)
  | .holding c i => some (i, c.mode)
  | _ => none

/-- The inode on which the caller itself (not the probe) is about to take, or
holds, its lock. -/
def PC.engaged : PC → Option Inode
  | .opened _ i => some i
  | .holding _ i => some i
  | _ => none

/-- The program points from which the next system call is `os.remove(lock_path)`. -/
def PC.unlinks : PC → Bool
  | .resetClosed _ => true
  | .closed => true
  | _ => false

/-! ## States and system calls -/

/-- The sidecar's directory entry and where each process is. -/
structure State (n : ℕ) where
  /-- the inode the name `<path>.fnctl.lock` refers to, if it exists -/
  sidecar : Option Inode
  /-- the inode number of the next file to be created -/
  nextInode : Inode
  pc : Fin n → PC

variable {n : ℕ}

/-- No sidecar file, every process idle. -/
def State.init (n : ℕ) : State n := ⟨none, 0, fun _ => .idle⟩

def State.setPc (s : State n) (p : Fin n) (c : PC) : State n :=
  { s with pc := Function.update s.pc p c }

/-- The inode `open(lock_path, "a+")` returns: the named one, or a new file. -/
def State.openInode (s : State n) : Inode := s.sidecar.getD s.nextInode

/-- The directory after `open(lock_path, "a+")`. -/
def State.openLockFile (s : State n) : State n :=
  match s.sidecar with
  | some _ => s
  | none => { s with sidecar := some s.nextInode, nextInode := s.nextInode + 1 }

/-- `os.remove(lock_path)`; a missing file is ignored by every caller. -/
def State.unlink (s : State n) : State n := { s with sidecar := none }

/-- A held lock refuses a request for mode `m` on inode `i`: same inode, and one of
the two modes is exclusive. -/
def blocks (held : Option (Inode × LockMode)) (i : Inode) (m : LockMode) : Bool :=
  match held with
  | some (j, m') => j == i && (m == .LOCK_EX || m' == .LOCK_EX)
  | none => false

/-- `flock(fd, m | LOCK_NB)` succeeds for process `p` on inode `i`. -/
def State.flockFree (s : State n) (p : Fin n) (i : Inode) (m : LockMode) : Bool :=
  decide (∀ q, q ≠ p → blocks (s.pc q).flock i m = false)

/-- Where a call continues when `_maybe_reset_stale_lock_file` returns. -/
def afterReset : Caller → PC
  | .cleaner => .idle
  | c => .acquire c

/-- Either an idle process starts a call (`expired` is the outcome of the age
gate, which only the clean-up functions with a positive expiry evaluate), or a
process performs its next system call. -/
inductive Act where
  | call (c : Caller) (expired : Bool)
  | next
  deriving DecidableEq, Repr

/-- The next system call of a process at the program point `c`. -/
def State.sysCall (s : State n) (p : Fin n) : PC → Option (State n)
  | .idle => none
  | .resetExists c => some (s.openLockFile.setPc p (.resetOpened c s.openInode))
  | .resetOpened c i =>
      if s.flockFree p i .LOCK_EX then some (s.setPc p (.resetLocked c i))
      else some (s.setPc p (.resetFailed c i))
  | .resetFailed c _ => some (s.setPc p (afterReset c))
  | .resetLocked c i => some (s.setPc p (.resetUnlocked c i))
  | .resetUnlocked c _ => some (s.setPc p (.resetClosed c))
  | .resetClosed c => some (s.unlink.setPc p (afterReset c))
  | .acquire c => some (s.openLockFile.setPc p (.opened c s.openInode))
  | .opened c i =>
      if s.flockFree p i c.mode then some (s.setPc p (.holding c i))
      else some (s.setPc p (.contended c i))
  | .contended _ _ => some (s.setPc p .idle)
  | .holding c i => some (s.setPc p (.unlocked c i))
  | .unlocked c _ =>
      match c with
      | .writer => some (s.setPc p .closed)
      | _ => some (s.setPc p .idle)
  | .closed => some (s.unlink.setPc p .idle)

/-- One step of the system. -/
def step (s : State n) : Fin n × Act → Option (State n)
  | (p, .call c expired) =>
      if s.pc p = .idle then
        -- `os.path.exists`, then the age gate of a clean-up with a positive expiry
        if s.sidecar = none then some (s.setPc p (afterReset c))
        else if c = .cleaner ∧ expired = false then some (s.setPc p .idle)
        else some (s.setPc p (.resetExists c))
      else none
  | (p, .next) => s.sysCall p (s.pc p)

/-! ## The property and the condition -/

/-- Two writers never hold the lock at once, and no reader holds it with a writer. -/
def Exclusive (s : State n) : Prop :=
  ∀ p q, p ≠ q → ∀ i j c, s.pc p = .holding .writer i → s.pc q ≠ .holding c j

/-- An `os.remove(lock_path)` is taken only while no process has opened, or holds,
its own lock on the inode the name refers to. -/
def UnlinkSafe (s : State n) (a : Fin n × Act) : Prop :=
  a.2 = .next → (s.pc a.1).unlinks = true →
    ∀ q, (s.pc q).engaged ≠ none → s.sidecar ≠ (s.pc q).engaged

instance (s : State n) (a : Fin n × Act) : Decidable (UnlinkSafe s a) :=
  inferInstanceAs (Decidable (_ → _ → _))

/-! ## What a step can do -/

@[simp] theorem setPc_sidecar (s : State n) (p : Fin n) (c : PC) :
    (s.setPc p c).sidecar = s.sidecar := rfl

@[simp] theorem setPc_pc_self (s : State n) (p : Fin n) (c : PC) : (s.setPc p c).pc p = c := by
  simp [State.setPc]

theorem setPc_pc_of_ne (s : State n) {p q : Fin n} (h : q ≠ p) (c : PC) :
    (s.setPc p c).pc q = s.pc q := by
  simp [State.setPc, Function.update_of_ne h]

@[simp] theorem openLockFile_pc (s : State n) : s.openLockFile.pc = s.pc := by
  unfold State.openLockFile
  split <;> rfl

@[simp] theorem openLockFile_sidecar (s : State n) :
    s.openLockFile.sidecar = some s.openInode := by
  unfold State.openLockFile State.openInode
  split <;> simp_all

@[simp] theorem unlink_pc (s : State n) : s.unlink.pc = s.pc := rfl

@[simp] theorem unlink_sidecar (s : State n) : s.unlink.sidecar = none := rfl

/-- A program point without a lock and without a descriptor of its own on the sidecar. -/
def PC.Quiet (c : PC) : Prop := c.flock = none ∧ c.engaged = none

theorem afterReset_quiet (c : Caller) : (afterReset c).Quiet := by
  cases c <;> exact ⟨rfl, rfl⟩

/-- **Inversion of a step.**  A step moves one process; apart from that it opens the
sidecar, takes a free `flock` on a descriptor opened before, unlinks the name, or
touches nothing shared. -/
theorem step_cases {s s' : State n} {a : Fin n × Act} (h : step s a = some s') :
    (∃ c, c.Quiet ∧ s' = s.setPc a.1 c)
    ∨ (∃ c, c.flock = none ∧ (c.engaged = none ∨ c.engaged = some s.openInode)
        ∧ s' = s.openLockFile.setPc a.1 c)
    ∨ (∃ c i m, c.flock = some (i, m) ∧ s.flockFree a.1 i m = true
        ∧ (c.engaged = none ∨ c.engaged = some i ∧ (s.pc a.1).engaged = some i)
        ∧ s' = s.setPc a.1 c)
    ∨ (∃ c, c.Quiet ∧ a.2 = .next ∧ (s.pc a.1).unlinks = true
        ∧ s' = s.unlink.setPc a.1 c) := by
  obtain ⟨p, act⟩ := a
  cases act with
  | call c expired =>
      simp only [step] at h
      split_ifs at h <;> injection h with h
      · exact Or.inl ⟨_, afterReset_quiet c, h.symm⟩
      · exact Or.inl ⟨_, ⟨rfl, rfl⟩, h.symm⟩
      · exact Or.inl ⟨_, ⟨rfl, rfl⟩, h.symm⟩
  | next =>
      simp only [step] at h
      -- every program point makes one system call: an open, a lock, an unlink, or one nobody else sees
      cases hpc : s.pc p with
      | idle => simp [hpc, State.sysCall] at h
      | resetExists c =>
          simp only [hpc, State.sysCall, Option.some.injEq] at h
          exact Or.inr (Or.inl ⟨_, rfl, Or.inl rfl, h.symm⟩)
      | resetOpened c i =>
          simp only [hpc, State.sysCall] at h
          split_ifs at h with hfree <;> injection h with h
          · exact Or.inr (Or.inr (Or.inl ⟨_, i, .LOCK_EX, rfl, hfree, Or.inl rfl, h.symm⟩))
          · exact Or.inl ⟨_, ⟨rfl, rfl⟩, h.symm⟩
      | resetFailed c i =>
          simp only [hpc, State.sysCall, Option.some.injEq] at h
          exact Or.inl ⟨_, afterReset_quiet c, h.symm⟩
      | resetLocked c i =>
          simp only [hpc, State.sysCall, Option.some.injEq] at h
          exact Or.inl ⟨_, ⟨rfl, rfl⟩, h.symm⟩
      | resetUnlocked c i =>
          simp only [hpc, State.sysCall, Option.some.injEq] at h
          exact Or.inl ⟨_, ⟨rfl, rfl⟩, h.symm⟩
      | resetClosed c =>
          simp only [hpc, State.sysCall, Option.some.injEq] at h
          exact Or.inr (Or.inr (Or.inr
            ⟨_, afterReset_quiet c, rfl, rfl, h.symm⟩))
      | acquire c =>
          simp only [hpc, State.sysCall, Option.some.injEq] at h
          exact Or.inr (Or.inl ⟨_, rfl, Or.inr rfl, h.symm⟩)
      | opened c i =>
          simp only [hpc, State.sysCall] at h
          split_ifs at h with hfree <;> injection h with h
          · exact Or.inr (Or.inr (Or.inl
              ⟨_, i, c.mode, rfl, hfree, Or.inr ⟨rfl, rfl⟩, h.symm⟩))
          · exact Or.inl ⟨_, ⟨rfl, rfl⟩, h.symm⟩
      | contended c i =>
          simp only [hpc, State.sysCall, Option.some.injEq] at h
          exact Or.inl ⟨_, ⟨rfl, rfl⟩, h.symm⟩
      | holding c i =>
          simp only [hpc, State.sysCall, Option.some.injEq] at h
          exact Or.inl ⟨_, ⟨rfl, rfl⟩, h.symm⟩
      | unlocked c i =>
          cases c <;> simp only [hpc, State.sysCall, Option.some.injEq] at h <;>
            exact Or.inl ⟨_, ⟨rfl, rfl⟩, h.symm⟩
      | closed =>
          simp only [hpc, State.sysCall, Option.some.injEq] at h
          exact Or.inr (Or.inr (Or.inr
            ⟨_, ⟨rfl, rfl⟩, rfl, rfl, h.symm⟩))

/-! ## The invariant -/

/-- No two processes hold conflicting `flock`s on one inode: the guarantee of the
operating system, as an invariant of the states. -/
def FlocksCompatible (s : State n) : Prop :=
  ∀ p q, p ≠ q → ∀ i m m', (s.pc p).flock = some (i, m) → (s.pc q).flock = some (i, m') →
    m = .LOCK_SH ∧ m' = .LOCK_SH

/-- Every caller that has opened, or holds, its own lock did so on the inode the name
still refers to. -/
def EngagedOnSidecar (s : State n) : Prop :=
  ∀ q i, (s.pc q).engaged = some i → s.sidecar = some i

/-- A granted request meets no conflicting lock. -/
theorem flockFree_compatible {s : State n} {p q : Fin n} {i : Inode} {m m' : LockMode}
    (hfree : s.flockFree p i m = true) (hne : q ≠ p) (hq : (s.pc q).flock = some (i, m')) :
    m = .LOCK_SH ∧ m' = .LOCK_SH := by
  have hb : blocks (s.pc q).flock i m = false := of_decide_eq_true hfree q hne
  rw [hq] at hb
  cases m <;> cases m' <;> simp_all [blocks]

/-- Moving one process to a point without a lock keeps the locks compatible. -/
theorem FlocksCompatible.setPc {s : State n} (hs : FlocksCompatible s) (p : Fin n) {c : PC}
    (hc : c.flock = none) : FlocksCompatible (s.setPc p c) := by
  intro q r hqr i m m' hq hr
  by_cases hqp : q = p
  · subst hqp
    rw [setPc_pc_self, hc] at hq
    cases hq
  · by_cases hrp : r = p
    · subst hrp
      rw [setPc_pc_self, hc] at hr
      cases hr
    · rw [setPc_pc_of_ne s hqp] at hq
      rw [setPc_pc_of_ne s hrp] at hr
      exact hs q r hqr i m m' hq hr

/-- Granting a free lock keeps the locks compatible. -/
theorem FlocksCompatible.grant {s : State n} (hs : FlocksCompatible s) (p : Fin n) {c : PC}
    {i : Inode} {m : LockMode} (hc : c.flock = some (i, m))
    (hfree : s.flockFree p i m = true) : FlocksCompatible (s.setPc p c) := by
  intro q r hqr j m₁ m₂ hq hr
  by_cases hqp : q = p
  · subst hqp
    rw [setPc_pc_self, hc] at hq
    rw [setPc_pc_of_ne s hqr.symm] at hr
    cases hq
    exact flockFree_compatible hfree hqr.symm hr
  · rw [setPc_pc_of_ne s hqp] at hq
    by_cases hrp : r = p
    · subst hrp
      rw [setPc_pc_self, hc] at hr
      cases hr
      exact (flockFree_compatible hfree hqp hq).symm
    · rw [setPc_pc_of_ne s hrp] at hr
      exact hs q r hqr j m₁ m₂ hq hr

theorem flocksCompatible_step {s s' : State n} {a : Fin n × Act} (hs : FlocksCompatible s)
    (h : step s a = some s') : FlocksCompatible s' := by
  obtain ⟨c, hc, rfl⟩ | ⟨c, hc, -, rfl⟩ | ⟨c, i, m, hc, hfree, -, rfl⟩ | ⟨c, hc, -, -, rfl⟩ :=
    step_cases h
  · exact hs.setPc a.1 hc.1
  · have ho : FlocksCompatible s.openLockFile := by
      intro p q hpq i m m' hp hq
      rw [openLockFile_pc] at hp hq
      exact hs p q hpq i m m' hp hq
    exact ho.setPc a.1 hc
  · exact hs.grant a.1 hc hfree
  · have hu : FlocksCompatible s.unlink := hs
    exact hu.setPc a.1 hc.1

/-- Under the unlink condition every engaged caller stays on the named inode. -/
theorem engagedOnSidecar_step {s s' : State n} {a : Fin n × Act} (hs : EngagedOnSidecar s)
    (hok : UnlinkSafe s a) (h : step s a = some s') : EngagedOnSidecar s' := by
  intro q i hq
  obtain ⟨c, hc, rfl⟩ | ⟨c, -, hc, rfl⟩ | ⟨c, j, m, -, -, hc, rfl⟩ | ⟨c, hc, hnext, hun, rfl⟩ :=
    step_cases h
  · by_cases hqa : q = a.1
    · subst hqa
      rw [setPc_pc_self, hc.2] at hq
      cases hq
    · rw [setPc_pc_of_ne s hqa] at hq
      exact hs q i hq
  · rw [setPc_sidecar, openLockFile_sidecar]
    by_cases hqa : q = a.1
    · subst hqa
      rw [setPc_pc_self] at hq
      rcases hc with hc | hc <;> rw [hc] at hq
      · cases hq
      · exact hq
    · rw [setPc_pc_of_ne _ hqa, openLockFile_pc] at hq
      simp [State.openInode, hs q i hq]
  · by_cases hqa : q = a.1
    · subst hqa
      rw [setPc_pc_self] at hq
      rcases hc with hc | ⟨hc, hold⟩ <;> rw [hc] at hq
      · cases hq
      · cases hq
        exact hs _ _ hold
    · rw [setPc_pc_of_ne s hqa] at hq
      exact hs q i hq
  · by_cases hqa : q = a.1
    · subst hqa
      rw [setPc_pc_self, hc.2] at hq
      cases hq
    · -- an engaged caller would have forbidden this unlink
      rw [setPc_pc_of_ne _ hqa, unlink_pc] at hq
      have hsafe := hok hnext hun q (by rw [hq]; exact Option.some_ne_none i)
      rw [hq] at hsafe
      exact absurd (hs q i hq) hsafe

/-- Compatible locks on one named inode exclude a second holder beside a writer. -/
theorem exclusive_of_invariant {s : State n} (hf : FlocksCompatible s)
    (he : EngagedOnSidecar s) : Exclusive s := by
  intro p q hpq i j c hp hq
  have hi : s.sidecar = some i := he p i (by rw [hp]; rfl)
  have hj : s.sidecar = some j := he q j (by rw [hq]; rfl)
  have hij : i = j := by
    rw [hi] at hj
    exact Option.some.inj hj
  subst hij
  have hw := hf p q hpq i .LOCK_EX c.mode (by rw [hp]; rfl) (by rw [hq]; rfl)
  exact absurd hw.1 (by decide)

/-! ## Mutual exclusion along runs -/

/-- **Mutual exclusion.**  For any number of processes: in every state reached by a
run whose unlinks all find no caller engaged on the named inode, no two writers hold
the lock and no reader holds it together with a writer. -/
theorem exclusive_of_unlinkSafe (n : ℕ) (as : List (Fin n × Act)) (s : State n)
    (hrun : Transition.exec step (State.init n) as = some s)
    (hok : Transition.Respects step UnlinkSafe (State.init n) as) : Exclusive s := by
  have hinv : FlocksCompatible s ∧ EngagedOnSidecar s := by
    refine Transition.exec_invariant (I := fun s => FlocksCompatible s ∧ EngagedOnSidecar s)
      ?_ as (State.init n) s ⟨?_, ?_⟩ hok hrun
    · intro s a s' hs hsafe hstep
      exact ⟨flocksCompatible_step hs.1 hstep, engagedOnSidecar_step hs.2 hsafe hstep⟩
    · intro p q _ i m m' hp _
      cases hp
    · intro q i hq
      cases hq
  exact exclusive_of_invariant hinv.1 hinv.2

/-- One process performs its next `k` system calls. -/
def calls (p : Fin n) (k : ℕ) : List (Fin n × Act) := List.replicate k (p, .next)

/-- Writer 0 locks, releases and unlinks; reader 1 then locks, and writer 0 is refused. -/
def handOver : List (Fin 2 × Act) :=
  [(0, Act.call .writer true)] ++ calls 0 5 ++ [(1, Act.call .reader true)] ++ calls 1 2
    ++ [(0, Act.call .writer true)] ++ calls 0 5

theorem exclusive_of_unlinkSafe_handOver :
    ∃ s, Transition.exec step (State.init 2) handOver = some s
      ∧ s.pc 1 = .holding .reader 1 ∧ Exclusive s := by
  have hsome : (Transition.exec step (State.init 2) handOver).isSome = true := by decide
  obtain ⟨s, hs⟩ := Option.isSome_iff_exists.mp hsome
  refine ⟨s, hs, ?_, exclusive_of_unlinkSafe 2 handOver s hs (by decide)⟩
  have hpc : (Transition.exec step (State.init 2) handOver).map (fun s => s.pc 1)
      = some (.holding .reader 1) := by decide
  rw [hs] at hpc
  exact Option.some.inj hpc

/-- Writer 0 has released its lock and closed its descriptor but not yet removed the
name; writer 1, which had opened the same inode, locks it; then writer 0 removes the
name and writer 2 creates and locks a new file. -/
def threeWriters : List (Fin 3 × Act) :=
  [(0, Act.call .writer true)] ++ calls 0 2 ++ [(1, Act.call .writer true)] ++ calls 1 4
    ++ calls 0 2 ++ calls 1 1 ++ calls 0 1 ++ [(2, Act.call .writer true)] ++ calls 2 2

/-- **Two holders.**  Three writers reach a state in which two of them hold the lock. -/
theorem not_exclusive_three_writers :
    ∃ s, Transition.exec step (State.init 3) threeWriters = some s ∧ ¬ Exclusive s := by
  have hsome : (Transition.exec step (State.init 3) threeWriters).isSome = true := by decide
  obtain ⟨s, hs⟩ := Option.isSome_iff_exists.mp hsome
  have hpc : (Transition.exec step (State.init 3) threeWriters).map
      (fun s => (s.pc 1, s.pc 2)) = some (.holding .writer 0, .holding .writer 1) := by decide
  rw [hs, Option.map_some, Option.some.injEq, Prod.mk.injEq] at hpc
  exact ⟨s, hs, fun hex => hex 1 2 (by decide) 0 1 .writer hpc.1 hpc.2⟩

end FileLocking
