/-
# Restoring the daily tar from its sealed archive

`ensure_daily_tar_restored_for_append` and `replace_corrupt_tar_from_compressed_backup`, run for one day by
any number of threads of any number of processes, one file operation at a time.  Both go through
`decompress_compressed_to_tar(sealed, dest)`, which writes `dest.decomp.tmp`, verifies it and renames it to
`dest`:

    ensure:   dest = the tar              written file = the tar's `.decomp.tmp`
    replace:  dest = the tar's `.decomp.tmp` (`rebuild`), written file = `rebuild`'s `.decomp.tmp` (`scratch`),
              and `rebuild` is then renamed to the tar

* A name stands for an inode, and a writer keeps its inode when the name is renamed or removed.  `zstd -f`
  writes a new inode under the name.
* `Key` is what a decompression has to own: the restore lease in the members store of its process when the
  destination is named after a day and the process has a store, otherwise the file lock `dest.decomp`.
  Locks are perfect.  A rename under a write lock is one step, and a lock that is not granted in time is a
  rename that fails.
* Every operation may fail: removals, decompressions, verifications, renames.
* `complete` and `verified` of an inode say what happened to it; no step reads them.

`unlinkCompressed` is `_decompress_should_unlink_compressed`: false while a sealed archive is there.
-/
import HpcPerfStats.ArchiveMembers
import HpcPerfStats.Transition
import Mathlib.Data.Fintype.Basic
import Mathlib.Logic.Function.Basic

set_option linter.unusedSectionVars false

namespace TarRestore

open ArchiveMembers Transition

/-! ## Files -/

/-- The sealed archives of the day. -/
inductive Source where
  | zst
  | gz
  deriving DecidableEq, Repr

/-- The other names: `<day>.tar`, `<day>.tar.decomp.tmp` and `<day>.tar.decomp.tmp.decomp.tmp`. -/
inductive Name where
  | tar
  | rebuild
  | scratch
  deriving DecidableEq, Repr

/-- A sealed archive. -/
structure Archive where
  members : Content
  readable : Bool
  deriving DecidableEq, Repr

/-- What is behind one of the other names. -/
structure Inode where
  members : Content
  readable : Bool
  nonempty : Bool
  complete : Bool
  verified : Bool
  deriving DecidableEq, Repr

/-- A file that has just been created. -/
def Inode.created : Inode := ⟨[], false, false, false, false⟩

/-- The complete copy of a sealed archive. -/
def Inode.copyOf (a : Archive) : Inode := ⟨a.members, true, true, true, false⟩

/-! ## Calls -/

/-- The two functions. -/
inductive Call where
  | ensure (waitForOtherOwner : Bool)
  | replace
  deriving DecidableEq, Repr

/-- The destination of the decompression. -/
def Call.dest : Call → Name
  | .ensure _ => .tar
  | .replace => .rebuild

/-- The file that the decompression writes. -/
def Call.tmp : Call → Name
  | .ensure _ => .rebuild
  | .replace => .scratch

/-- A call, and whether it unlinks a sealed archive once it is restored. -/
structure Job where
  call : Call
  removeCompressed : Bool
  deriving DecidableEq, Repr

/-- Where a thread stands.  `rest` are the sealed archives that are still to be tried. -/
inductive Pc where
  | idle
  | trying (job : Job) (sources : List Source)
  /-- `decompress_compressed_to_tar` has found the sealed archive and no destination -/
  | asking (job : Job) (src : Source) (rest : List Source)
  /-- the lease is with another thread -/
  | waiting (job : Job) (rest : List Source)
  | owning (job : Job) (src : Source) (rest : List Source)
  /-- next: remove a file that was left under the name to be written -/
  | clearing (job : Job) (src : Source) (rest : List Source)
  /-- next: `zstd` opens its output -/
  | opening (job : Job) (src : Source) (rest : List Source)
  | writing (job : Job) (src : Source) (rest : List Source) (ino : ℕ)
  /-- next: `_verify_uncompressed_tar_readable` -/
  | verifying (job : Job) (src : Source) (rest : List Source) (ino : ℕ)
  /-- next: `os.replace(tmp_path, tar_path)` -/
  | installing (job : Job) (src : Source) (rest : List Source) (ino : ℕ)
  /-- next: unlink the sealed archive -/
  | unlinking (job : Job) (src : Source) (rest : List Source)
  /-- next: remove the written file after a failure -/
  | cleaning (job : Job) (rest : List Source)
  /-- next: give the lease or the lock back -/
  | releasing (job : Job) (rest : List Source) (ok : Bool)
  /-- `replace` has restored; next: `os.replace(rebuild, tar_path)` -/
  | final
  /-- `replace` has not restored; next: remove `rebuild` -/
  | giveUp
  deriving DecidableEq, Repr

/-- What a decompression owns: the lease of a process' members store, or a file lock. -/
inductive Key (P : Type*) where
  | lease (process : P)
  | decompLock (dest : Name)
  deriving DecidableEq, Repr

/-- The files, the owners and the threads. -/
structure State (P T : Type*) where
  sealedArchive : Source → Option Archive
  names : Name → Option ℕ
  inodes : ℕ → Inode
  nextInode : ℕ
  owner : Key P → Option T
  pc : T → Pc

/-- The steps of the threads.  The flag says whether the operation succeeds. -/
inductive Action (T : Type*) where
  | ensure (t : T) (waitForOtherOwner : Bool)
  | replace (t : T) (removed : Bool)
  | look (t : T)
  | acquire (t : T)
  | refuse (t : T)
  | waited (t : T)
  | own (t : T)
  | clear (t : T) (removed : Bool)
  | openOutput (t : T)
  | write (t : T)
  | written (t : T) (ok : Bool)
  | verify (t : T) (ok : Bool)
  | install (t : T) (ok : Bool)
  | unlinkSealed (t : T) (ok : Bool)
  | clean (t : T) (removed : Bool)
  | release (t : T)
  | finish (t : T) (ok : Bool)
  | abandon (t : T) (removed : Bool)
  deriving DecidableEq, Repr

variable {P T : Type*} [DecidableEq P] [DecidableEq T]

/-- What a thread has to own for a call. -/
def key (store : T → Option P) (t : T) : Call → Key P
  | .ensure _ =>
      match store t with
      | some p => .lease p
      | none => .decompLock .tar
  -- `rebuild` is not named after a day, so there is no lease for it
  | .replace => .decompLock .rebuild

namespace State

/-- `_tar_dest_is_nonempty`. -/
def nonempty (s : State P T) (name : Name) : Bool :=
  (s.names name).any fun i => (s.inodes i).nonempty

/-- `_decompress_should_unlink_compressed`. -/
def unlinkCompressed (s : State P T) : Bool :=
  !((s.sealedArchive .zst).isSome || (s.sealedArchive .gz).isSome)

/-- A thread goes on. -/
def goto (s : State P T) (t : T) (pc : Pc) : State P T := { s with pc := Function.update s.pc t pc }

/-- `os.remove` that may fail. -/
def remove (s : State P T) (name : Name) (removed : Bool) : State P T :=
  { s with names := if removed then Function.update s.names name none else s.names }

/-- `os.replace`. -/
def rename (s : State P T) (source target : Name) (i : ℕ) : State P T :=
  { s with names := Function.update (Function.update s.names source none) target (some i) }

/-- Another value for one inode. -/
def setInode (s : State P T) (i : ℕ) (data : Inode) : State P T :=
  { s with inodes := Function.update s.inodes i data }

/-- A new file under a name. -/
def create (s : State P T) (name : Name) : State P T :=
  { s with
    names := Function.update s.names name (some s.nextInode)
    inodes := Function.update s.inodes s.nextInode Inode.created
    nextInode := s.nextInode + 1 }

end State

/-- The decompression has returned true. -/
def restored (job : Job) : Pc :=
  match job.call with
  | .ensure _ => .idle
  | .replace => .final

/-- One step. -/
def step (store : T → Option P) (s : State P T) : Action T → Option (State P T)
  | .ensure t wait =>
      match s.pc t with
      | .idle =>
          if s.nonempty .tar then some s
          else some (s.goto t (.trying ⟨.ensure wait, s.unlinkCompressed⟩ [.zst, .gz]))
      | _ => none
  | .replace t removed =>
      match s.pc t with
      | .idle =>
          some ((s.remove .rebuild removed).goto t
            (.trying ⟨.replace, s.unlinkCompressed⟩ [.zst, .gz]))
      | _ => none
  | .look t =>
      match s.pc t with
      | .trying job [] =>
          match job.call with
          | .ensure _ => some (s.goto t .idle)
          | .replace => some (s.goto t .giveUp)
      | .trying job (src :: rest) =>
          if (s.sealedArchive src).isNone then some (s.goto t (.trying job rest))
          else if s.nonempty job.call.dest then some (s.goto t (restored job))
          else some (s.goto t (.asking job src rest))
      | _ => none
  | .acquire t =>
      match s.pc t with
      | .asking job src rest =>
          if (s.owner (key store t job.call)).isNone then
            some ({ s with owner := Function.update s.owner (key store t job.call) (some t) }.goto t
              (.owning job src rest))
          else none
      | _ => none
  | .refuse t =>
      match s.pc t with
      | .asking job _ rest =>
          if (s.owner (key store t job.call)).isSome then
            match key store t job.call, job.call with
            | .lease _, .ensure true => some (s.goto t (.waiting job rest))
            | _, _ => some (s.goto t (.trying job rest))
          else none
      | _ => none
  | .waited t =>
      match s.pc t with
      | .waiting job rest =>
          if s.nonempty job.call.dest then some (s.goto t (restored job))
          else some (s.goto t (.trying job rest))
      | _ => none
  | .own t =>
      match s.pc t with
      | .owning job src rest =>
          if s.nonempty job.call.dest then some (s.goto t (.releasing job rest true))
          else some (s.goto t (.clearing job src rest))
      | _ => none
  | .clear t removed =>
      match s.pc t with
      | .clearing job src rest => some ((s.remove job.call.tmp removed).goto t (.opening job src rest))
      | _ => none
  | .openOutput t =>
      match s.pc t with
      | .opening job src rest =>
          some ((s.create job.call.tmp).goto t (.writing job src rest s.nextInode))
      | _ => none
  | .write t =>
      match s.pc t with
      | .writing _ _ _ ino => some (s.setInode ino { s.inodes ino with nonempty := true })
      | _ => none
  | .written t ok =>
      match s.pc t with
      | .writing job src rest ino =>
          match ok, s.sealedArchive src with
          | true, some archive =>
              if archive.readable then
                some ((s.setInode ino (Inode.copyOf archive)).goto t (.verifying job src rest ino))
              else none
          | true, none => none
          | false, _ => some (s.goto t (.cleaning job rest))
      | _ => none
  | .verify t ok =>
      match s.pc t with
      | .verifying job src rest ino =>
          match ok, s.names job.call.tmp with
          -- the file is read under its name
          | true, some i =>
              some ((s.setInode i { s.inodes i with verified := true }).goto t
                (.installing job src rest ino))
          | true, none => none
          | false, _ => some (s.goto t (.cleaning job rest))
      | _ => none
  | .install t ok =>
      match s.pc t with
      | .installing job src rest _ =>
          match ok, s.names job.call.tmp with
          | true, some i =>
              some ((s.rename job.call.tmp job.call.dest i).goto t
                (if job.removeCompressed then .unlinking job src rest else .releasing job rest true))
          | true, none => none
          | false, _ => some (s.goto t (.cleaning job rest))
      | _ => none
  | .unlinkSealed t ok =>
      match s.pc t with
      | .unlinking job src rest =>
          if ok then
            some ({ s with sealedArchive := Function.update s.sealedArchive src none }.goto t
              (.releasing job rest true))
          else some (s.goto t (.releasing job rest false))
      | _ => none
  | .clean t removed =>
      match s.pc t with
      | .cleaning job rest => some ((s.remove job.call.tmp removed).goto t (.releasing job rest false))
      | _ => none
  | .release t =>
      match s.pc t with
      | .releasing job rest ok =>
          let s₁ := { s with owner := Function.update s.owner (key store t job.call) none }
          if ok then some (s₁.goto t (restored job)) else some (s₁.goto t (.trying job rest))
      | _ => none
  | .finish t ok =>
      match s.pc t with
      | .final =>
          match ok, s.names .rebuild with
          | true, some i => some ((s.rename .rebuild .tar i).goto t .idle)
          | _, _ => some (s.goto t .idle)
      | _ => none
  | .abandon t removed =>
      match s.pc t with
      | .giveUp => some ((s.remove .rebuild removed).goto t .idle)
      | _ => none

/-! ## What a thread has in hand -/

namespace Pc

/-- The call that a thread is in, as far as it decompresses. -/
def job : Pc → Option Job
  | .trying job _ => some job
  | .asking job _ _ => some job
  | .waiting job _ => some job
  | .owning job _ _ => some job
  | .clearing job _ _ => some job
  | .opening job _ _ => some job
  | .writing job _ _ _ => some job
  | .verifying job _ _ _ => some job
  | .installing job _ _ _ => some job
  | .unlinking job _ _ => some job
  | .cleaning job _ => some job
  | .releasing job _ _ => some job
  | _ => none

/-- The call for which a thread owns the lease or the lock. -/
def owns : Pc → Option Call
  | .owning job _ _ => some job.call
  | .clearing job _ _ => some job.call
  | .opening job _ _ => some job.call
  | .writing job _ _ _ => some job.call
  | .verifying job _ _ _ => some job.call
  | .installing job _ _ _ => some job.call
  | .unlinking job _ _ => some job.call
  | .cleaning job _ => some job.call
  | .releasing job _ _ => some job.call
  | _ => none

/-- The inode that a thread has written, under the name its call writes. -/
def file : Pc → Option (Call × ℕ)
  | .writing job _ _ ino => some (job.call, ino)
  | .verifying job _ _ ino => some (job.call, ino)
  | .installing job _ _ ino => some (job.call, ino)
  | _ => none

/-- The thread owns a restore of the tar by `ensure`. -/
def restoring (pc : Pc) : Bool :=
  match pc.owns with
  | some (.ensure _) => true
  | _ => false

/-- The thread is in `replace`. -/
def replacing : Pc → Bool
  | .final => true
  | .giveUp => true
  | pc =>
      match pc.job with
      | some ⟨.replace, _⟩ => true
      | _ => false

end Pc

/-! ## The sealed archives stay -/

/-- A call that unlinks has found no sealed archive. -/
structure Unlinks (s : State P T) : Prop where
  none_sealed : ∀ t job, (s.pc t).job = some job → job.removeCompressed = true →
    ∀ src, s.sealedArchive src = none
  removes : ∀ t job src rest, s.pc t = .unlinking job src rest → job.removeCompressed = true

theorem restored_job (job : Job) : (restored job).job = none := by
  obtain ⟨call, remove⟩ := job
  cases call <;> rfl

/-- What a step does to the calls: its thread stays in its call, leaves it or starts one, and only a thread
that is about to unlink a sealed archive changes the sealed archives. -/
structure StepOfCall (s s' : State P T) (t : T) (pc : Pc) : Prop where
  pc_eq : s'.pc = Function.update s.pc t pc
  sealed_eq : s'.sealedArchive = s.sealedArchive ∨ ∃ job src rest, s.pc t = .unlinking job src rest ∧
    s'.sealedArchive = Function.update s.sealedArchive src none
  job_eq : ∀ job, pc.job = some job → (s.pc t).job = some job ∨ job.removeCompressed = s.unlinkCompressed
  removes : ∀ job src rest, pc = .unlinking job src rest → job.removeCompressed = true

/-- A thread goes on while the sealed archives are left alone. -/
theorem StepOfCall.goto {s s₁ : State P T} {t : T} {pc : Pc} (hpc : s₁.pc = s.pc)
    (hsealed : s₁.sealedArchive = s.sealedArchive)
    (hjob : ∀ job, pc.job = some job →
      (s.pc t).job = some job ∨ job.removeCompressed = s.unlinkCompressed)
    (hremoves : ∀ job src rest, pc = .unlinking job src rest → job.removeCompressed = true) :
    StepOfCall s (s₁.goto t pc) t pc := by
  refine ⟨?_, Or.inl hsealed, hjob, hremoves⟩
  rw [State.goto, hpc]

/-- A thread that goes on in its call, to a point other than that of the unlinking. -/
theorem StepOfCall.stay {s s₁ : State P T} {t : T} {pc : Pc} {job : Job} (hpc : s₁.pc = s.pc)
    (hsealed : s₁.sealedArchive = s.sealedArchive) (hold : (s.pc t).job = some job)
    (hnew : pc.job = some job ∨ pc.job = none)
    (hremoves : ∀ job src rest, pc ≠ .unlinking job src rest) :
    StepOfCall s (s₁.goto t pc) t pc := by
  apply StepOfCall.goto hpc hsealed
  · intro job' hjob'
    rcases hnew with hnew | hnew
    · rw [hjob', Option.some.injEq] at hnew
      subst hnew
      exact Or.inl hold
    · rw [hjob'] at hnew
      cases hnew
  · intro job' src rest h
    exact absurd h (hremoves job' src rest)

theorem restored_ne_unlinking (job : Job) : ∀ job' src rest, restored job ≠ .unlinking job' src rest := by
  intro job' src rest
  obtain ⟨call, remove⟩ := job
  cases call <;> intro h <;> cases h

/-- A thread at the point `c` goes on in its call. -/
theorem exists_stay {s s₁ : State P T} {t : T} {c pc : Pc} {job : Job} (hat : s.pc t = c)
    (hpc : s₁.pc = s.pc) (hsealed : s₁.sealedArchive = s.sealedArchive) (hold : c.job = some job)
    (hnew : pc.job = some job) (hremoves : ∀ job src rest, pc ≠ .unlinking job src rest) :
    ∃ t' pc', StepOfCall s (s₁.goto t pc) t' pc' := by
  rw [← hat] at hold
  exact ⟨t, pc, StepOfCall.stay hpc hsealed hold (Or.inl hnew) hremoves⟩

theorem stepOfCall {store : T → Option P} {s s' : State P T} {a : Action T}
    (hstep : step store s a = some s') : ∃ t pc, StepOfCall s s' t pc := by
  cases a with
  | ensure t wait =>
      -- `ensure` returns at once when the tar is there, else it begins with every compressed source
      cases hpc : s.pc t <;> simp only [step, hpc] at hstep <;> try cases hstep
      split_ifs at hstep <;> cases hstep
      · refine ⟨t, s.pc t, (Function.update_eq_self ..).symm, Or.inl rfl, fun job h => Or.inl h, ?_⟩
        intro job src rest h
        rw [hpc] at h
        cases h
      · refine ⟨t, _, StepOfCall.goto rfl rfl ?_ ?_⟩
        · rintro job ⟨⟩
          exact Or.inr rfl
        · intro job src rest h
          cases h
  | replace t removed =>
      cases hpc : s.pc t <;> simp only [step, hpc] at hstep <;> try cases hstep
      -- `replace` begins a job of its own
      refine ⟨t, _, StepOfCall.goto rfl rfl ?_ ?_⟩
      · rintro job ⟨⟩
        exact Or.inr rfl
      · intro job src rest h
        cases h
  | look t =>
      cases hpc : s.pc t <;> simp only [step, hpc] at hstep <;> try cases hstep
      rename_i job sources
      -- the sealed archives that are still to be tried; the job stays the same
      have hold : (s.pc t).job = some job := by rw [hpc]; rfl
      cases sources with
      | nil =>
          dsimp only at hstep
          split at hstep <;> cases hstep
          · exact ⟨t, _, StepOfCall.stay rfl rfl hold (Or.inr rfl) (by simp)⟩
          · exact ⟨t, _, StepOfCall.stay rfl rfl hold (Or.inr rfl) (by simp)⟩
      | cons src rest =>
          dsimp only at hstep
          split_ifs at hstep <;> cases hstep
          · exact ⟨t, _, StepOfCall.stay rfl rfl hold (Or.inl rfl) (by simp)⟩
          · exact ⟨t, _, StepOfCall.stay rfl rfl hold (Or.inr (restored_job job))
              (restored_ne_unlinking job)⟩
          · exact ⟨t, _, StepOfCall.stay rfl rfl hold (Or.inl rfl) (by simp)⟩
  | acquire t =>
      cases hpc : s.pc t <;> simp only [step, hpc] at hstep <;> try cases hstep
      -- the following actions stay within the job
      split_ifs at hstep
      cases hstep
      exact exists_stay hpc rfl rfl rfl rfl (by simp)
  | refuse t =>
      cases hpc : s.pc t <;> simp only [step, hpc] at hstep <;> try cases hstep
      split_ifs at hstep
      split at hstep <;> cases hstep
      · exact exists_stay hpc rfl rfl rfl rfl (by simp)
      · exact exists_stay hpc rfl rfl rfl rfl (by simp)
  | waited t =>
      cases hpc : s.pc t <;> simp only [step, hpc] at hstep <;> try cases hstep
      rename_i job rest
      split_ifs at hstep <;> cases hstep
      · exact ⟨t, _, StepOfCall.stay rfl rfl (by rw [hpc]; rfl) (Or.inr (restored_job job))
          (restored_ne_unlinking job)⟩
      · exact exists_stay hpc rfl rfl rfl rfl (by simp)
  | own t =>
      cases hpc : s.pc t <;> simp only [step, hpc] at hstep <;> try cases hstep
      split_ifs at hstep <;> cases hstep
      · exact exists_stay hpc rfl rfl rfl rfl (by simp)
      · exact exists_stay hpc rfl rfl rfl rfl (by simp)
  | clear t removed =>
      cases hpc : s.pc t <;> simp only [step, hpc] at hstep <;> try cases hstep
      exact exists_stay hpc rfl rfl rfl rfl (by simp)
  | openOutput t =>
      cases hpc : s.pc t <;> simp only [step, hpc] at hstep <;> try cases hstep
      exact exists_stay hpc rfl rfl rfl rfl (by simp)
  | write t =>
      cases hpc : s.pc t <;> simp only [step, hpc] at hstep <;> try cases hstep
      refine ⟨t, s.pc t, (Function.update_eq_self ..).symm, Or.inl rfl, fun job h => Or.inl h, ?_⟩
      intro job src rest h
      rw [hpc] at h
      cases h
  | written t ok =>
      cases hpc : s.pc t <;> simp only [step, hpc] at hstep <;> try cases hstep
      split at hstep
      · split_ifs at hstep
        cases hstep
        exact exists_stay hpc rfl rfl rfl rfl (by simp)
      · cases hstep
      · cases hstep
        exact exists_stay hpc rfl rfl rfl rfl (by simp)
  | verify t ok =>
      cases hpc : s.pc t <;> simp only [step, hpc] at hstep <;> try cases hstep
      split at hstep <;> cases hstep
      · exact exists_stay hpc rfl rfl rfl rfl (by simp)
      · exact exists_stay hpc rfl rfl rfl rfl (by simp)
  | install t ok =>
      cases hpc : s.pc t <;> simp only [step, hpc] at hstep <;> try cases hstep
      rename_i job src rest ino
      split at hstep <;> cases hstep
      · by_cases hremove : job.removeCompressed = true
        · rw [if_pos hremove]
          refine ⟨t, _, StepOfCall.goto rfl rfl ?_ ?_⟩
          · rintro job' ⟨⟩
            left
            rw [hpc]
            rfl
          · rintro job' src' rest' ⟨⟩
            exact hremove
        · rw [if_neg hremove]
          exact exists_stay hpc rfl rfl rfl rfl (by simp)
      · exact exists_stay hpc rfl rfl rfl rfl (by simp)
  | unlinkSealed t ok =>
      cases hpc : s.pc t <;> simp only [step, hpc] at hstep <;> try cases hstep
      rename_i job src rest
      split_ifs at hstep <;> cases hstep
      · refine ⟨t, .releasing job rest true, rfl, Or.inr ⟨job, src, rest, hpc, rfl⟩, ?_, ?_⟩
        · rintro job' ⟨⟩
          left
          rw [hpc]
          rfl
        · intro job' src' rest' h
          cases h
      · exact exists_stay hpc rfl rfl rfl rfl (by simp)
  | clean t removed =>
      cases hpc : s.pc t <;> simp only [step, hpc] at hstep <;> try cases hstep
      exact exists_stay hpc rfl rfl rfl rfl (by simp)
  | release t =>
      cases hpc : s.pc t <;> simp only [step, hpc] at hstep <;> try cases hstep
      rename_i job rest ok
      split_ifs at hstep <;> cases hstep
      · exact ⟨t, _, StepOfCall.stay rfl rfl (by rw [hpc]; rfl) (Or.inr (restored_job job))
          (restored_ne_unlinking job)⟩
      · exact exists_stay hpc rfl rfl rfl rfl (by simp)
  | finish t ok =>
      cases hpc : s.pc t <;> simp only [step, hpc] at hstep <;> try cases hstep
      split at hstep <;> cases hstep
      · exact ⟨t, _, StepOfCall.goto rfl rfl (fun _ h => by cases h) (fun _ _ _ h => by cases h)⟩
      · exact ⟨t, _, StepOfCall.goto rfl rfl (fun _ h => by cases h) (fun _ _ _ h => by cases h)⟩
  | abandon t removed =>
      cases hpc : s.pc t <;> simp only [step, hpc] at hstep <;> try cases hstep
      exact ⟨t, _, StepOfCall.goto rfl rfl (fun _ h => by cases h) (fun _ _ _ h => by cases h)⟩

/-- **The sealed archives are never unlinked**: the only calls that would unlink one have found none. -/
theorem sealed_step {store : T → Option P} {s s' : State P T} {a : Action T} (h : Unlinks s)
    (hstep : step store s a = some s') : s'.sealedArchive = s.sealedArchive ∧ Unlinks s' := by
  obtain ⟨t, pc, hpc, hchange, hjob, hremoves⟩ := stepOfCall hstep
  have hsealed : s'.sealedArchive = s.sealedArchive := by
    rcases hchange with heq | ⟨job, src, rest, hold, heq⟩
    · exact heq
    · have hnone := h.none_sealed t job (by rw [hold]; rfl) (h.removes t job src rest hold) src
      rw [heq]
      exact Function.update_eq_self_iff.mpr hnone.symm
  refine ⟨hsealed, ?_, ?_⟩
  · intro t' job hj hremove src
    rw [hsealed]
    rw [hpc] at hj
    by_cases ht : t' = t
    · subst ht
      rw [Function.update_self] at hj
      rcases hjob job hj with hold | hnew
      · exact h.none_sealed t' job hold hremove src
      · rw [hnew] at hremove
        have hnone : s.sealedArchive .zst = none ∧ s.sealedArchive .gz = none := by
          simpa [State.unlinkCompressed] using hremove
        cases src with
        | zst => exact hnone.1
        | gz => exact hnone.2
    · rw [Function.update_of_ne ht] at hj
      exact h.none_sealed t' job hj hremove src
  · intro t' job src rest hun
    rw [hpc] at hun
    by_cases ht : t' = t
    · subst ht
      rw [Function.update_self] at hun
      exact hremoves job src rest hun
    · rw [Function.update_of_ne ht] at hun
      exact h.removes t' job src rest hun

/-- The day before the first call: nobody is restoring. -/
structure Quiet (s : State P T) : Prop where
  idle : ∀ t, s.pc t = .idle
  free : ∀ k, s.owner k = none
  bounded : ∀ name, ∀ i ∈ s.names name, i < s.nextInode
  injective : ∀ name name', ∀ i ∈ s.names name, i ∈ s.names name' → name = name'
  unfinished : ∀ i, (s.inodes i).complete = false

theorem Quiet.unlinks {s : State P T} (h : Quiet s) : Unlinks s := by
  constructor
  · intro t job hj
    rw [h.idle t] at hj
    cases hj
  · intro t job src rest hun
    rw [h.idle t] at hun
    cases hun

/-- In every run the sealed archives are those of its beginning. -/
theorem sealed_of_run {store : T → Option P} {s₀ s : State P T} (hquiet : Quiet s₀)
    {as : List (Action T)} (hrun : exec (step store) s₀ as = some s) :
    s.sealedArchive = s₀.sealedArchive := by
  have h := exec_invariant_of_step
    (I := fun s => s.sealedArchive = s₀.sealedArchive ∧ Unlinks s)
    (by
      intro s a s' hs hstep
      have hnext := sealed_step hs.2 hstep
      exact ⟨hnext.1.trans hs.1, hnext.2⟩)
    as s₀ s ⟨rfl, hquiet.unlinks⟩ hrun
  exact h.1

/-- A member is in a readable sealed archive of the day, or in the readable daily tar. -/
def Retained (s : State P T) (m : Member) : Prop :=
  (∃ src, ∃ archive ∈ s.sealedArchive src, archive.readable = true ∧ m ∈ archive.members) ∨
    ∃ i ∈ s.names .tar, (s.inodes i).readable = true ∧ m ∈ (s.inodes i).members

/-- **No member is lost.**  Whatever was in the tar or under the other names, whatever fails and in
whatever order the threads take their steps: every member of a readable sealed archive is still in a
readable archive of the day. -/
theorem retained_of_restores (store : T → Option P) (s₀ s : State P T) (hquiet : Quiet s₀)
    (as : List (Action T)) (hrun : exec (step store) s₀ as = some s) (src : Source) (archive : Archive)
    (harchive : s₀.sealedArchive src = some archive) (hreadable : archive.readable = true) :
    ∀ m ∈ archive.members, Retained s m := by
  intro m hm
  refine Or.inl ⟨src, archive, ?_, hreadable, hm⟩
  rw [sealed_of_run hquiet hrun]
  exact harchive

/-- A day with a sealed archive and a tar that is not readable. -/
def corruptDay : State ℕ Bool where
  sealedArchive := fun src => if src = .zst then some ⟨[("a", 5)], true⟩ else none
  names := fun name => if name = .tar then some 0 else none
  inodes := fun _ => ⟨[], false, true, false, false⟩
  nextInode := 1
  owner := fun _ => none
  pc := fun _ => .idle

theorem quiet_corruptDay : Quiet corruptDay := by
  have htar : ∀ name, ∀ i ∈ corruptDay.names name, name = .tar ∧ i = 0 := by
    intro name i hi
    cases name <;> cases hi
    exact ⟨rfl, rfl⟩
  refine ⟨fun _ => rfl, fun _ => rfl, ?_, ?_, fun _ => rfl⟩
  · intro name i hi
    rw [(htar name i hi).2]
    exact Nat.one_pos
  · intro name name' i hi hi'
    rw [(htar name i hi).1, (htar name' i hi').1]

/-- The steps of `replace` up to the copy under `rebuild`. -/
def rebuildSteps (t : Bool) : List (Action Bool) :=
  [.replace t true, .look t, .acquire t, .own t, .clear t true, .openOutput t, .write t, .written t true,
    .verify t true, .install t true, .release t]

/-- A replacement whose last rename fails, one whose decompression fails, and a restore for an append. -/
theorem retained_of_restores_failedReplacements :
    ∃ s, exec (step fun _ => some 0) corruptDay
        (rebuildSteps false ++ [.finish false false, .replace false true, .look false, .acquire false,
          .own false, .clear false true, .openOutput false, .written false false, .clean false true,
          .release false, .look false, .look false, .abandon false true, .ensure false true]) = some s ∧
      s.pc false = .idle ∧ Retained s ("a", 5) := by
  have hrun : ((exec (step fun _ => some 0) corruptDay
      (rebuildSteps false ++ ([.finish false false, .replace false true, .look false, .acquire false,
        .own false, .clear false true, .openOutput false, .written false false, .clean false true,
        .release false, .look false, .look false, .abandon false true, .ensure false true] :
        List (Action Bool)))).map
        fun s => s.pc false) = some .idle := by
    decide +kernel
  obtain ⟨s, hs, hread⟩ := Option.map_eq_some_iff.mp hrun
  refine ⟨s, hs, hread, ?_⟩
  exact retained_of_restores _ corruptDay s quiet_corruptDay _ hs .zst ⟨[("a", 5)], true⟩ rfl rfl ("a", 5)
    List.mem_cons_self

end TarRestore
