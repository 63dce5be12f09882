/-
# What is renamed to the daily tar

The daily tar is replaced by `os.replace` only, so it is whole when the renamed file is.  Nothing in the
steps of `TarRestore` ensures that: the file that `ensure` writes is the one that `replace` renames, and two
processes with a members store each have a lease of their own.

* `Sound` is the condition on a step: a restore by `ensure` is not under way together with a replacement,
  or with a restore under another lease or lock, and a replacement starts without an unverified rest of
  an earlier run;
* `Inv` is the invariant, `Inv.*` say what each kind of change of the files keeps of it, and `inv_step`
  assembles them;
* `tar_verified_of_run` is the result.
-/
import HpcPerfStats.TarRestore

set_option linter.unusedSectionVars false

namespace TarRestore

open ArchiveMembers Transition

variable {P T : Type*} [DecidableEq P] [DecidableEq T] {store : T → Option P}

/-! ## The condition and the invariant -/

/-- The inode is the complete copy of a sealed archive, and it was verified. -/
def Good (s : State P T) (i : ℕ) : Prop :=
  (s.inodes i).complete = true ∧ (s.inodes i).verified = true

instance (s : State P T) (i : ℕ) : Decidable (Good s i) := inferInstanceAs (Decidable (_ ∧ _))

/-- Nobody but threads with the key of `t` is restoring, and nobody is replacing. -/
def AcquireSound (store : T → Option P) (s : State P T) (t : T) : Pc → Prop
  | .asking ⟨.ensure wait, _⟩ _ _ =>
      ∀ t', ((s.pc t').restoring = true → key store t' (.ensure wait) = key store t (.ensure wait)) ∧
        (s.pc t').replacing = false
  | _ => True

/-- **The condition on a step.** -/
def Sound (store : T → Option P) (s : State P T) : Action T → Prop
  | .acquire t => AcquireSound store s t (s.pc t)
  | .replace _ removed =>
      (∀ t, (s.pc t).restoring = false) ∧ (removed = true ∨ ∀ i ∈ s.names .rebuild, Good s i)
  | _ => True

instance [Fintype T] (s : State P T) (t : T) : (pc : Pc) → Decidable (AcquireSound store s t pc)
  | .asking ⟨.ensure wait, _⟩ _ _ =>
      inferInstanceAs (Decidable (∀ t',
        ((s.pc t').restoring = true → key store t' (.ensure wait) = key store t (.ensure wait)) ∧
          (s.pc t').replacing = false))
  | .asking ⟨.replace, _⟩ _ _ => isTrue trivial
  | .idle => isTrue trivial
  | .trying _ _ => isTrue trivial
  | .waiting _ _ => isTrue trivial
  | .owning _ _ _ => isTrue trivial
  | .clearing _ _ _ => isTrue trivial
  | .opening _ _ _ => isTrue trivial
  | .writing _ _ _ _ => isTrue trivial
  | .verifying _ _ _ _ => isTrue trivial
  | .installing _ _ _ _ => isTrue trivial
  | .unlinking _ _ _ => isTrue trivial
  | .cleaning _ _ => isTrue trivial
  | .releasing _ _ _ => isTrue trivial
  | .final => isTrue trivial
  | .giveUp => isTrue trivial

instance [Fintype T] (s : State P T) : (a : Action T) → Decidable (Sound store s a)
  | .acquire t => inferInstanceAs (Decidable (AcquireSound store s t (s.pc t)))
  | .replace _ removed =>
      inferInstanceAs (Decidable ((∀ t, (s.pc t).restoring = false) ∧
        (removed = true ∨ ∀ i ∈ s.names .rebuild, Good s i)))
  | .ensure _ _ => isTrue trivial
  | .look _ => isTrue trivial
  | .refuse _ => isTrue trivial
  | .waited _ => isTrue trivial
  | .own _ => isTrue trivial
  | .clear _ _ => isTrue trivial
  | .openOutput _ => isTrue trivial
  | .write _ => isTrue trivial
  | .written _ _ => isTrue trivial
  | .verify _ _ => isTrue trivial
  | .install _ _ => isTrue trivial
  | .unlinkSealed _ _ => isTrue trivial
  | .clean _ _ => isTrue trivial
  | .release _ => isTrue trivial
  | .finish _ _ => isTrue trivial
  | .abandon _ _ => isTrue trivial

/-- What is known of the inode that a thread has written. -/
def Pc.Holds (inodes : ℕ → Inode) : Pc → Prop
  | .writing _ _ _ ino => (inodes ino).complete = false
  | .verifying _ _ _ ino => (inodes ino).complete = true
  | .installing _ _ _ ino => (inodes ino).complete = true ∧ (inodes ino).verified = true
  | _ => True

/-- **The invariant.** -/
structure Inv (store : T → Option P) (original : Option ℕ) (s : State P T) : Prop where
  keyed : ∀ t call, (s.pc t).owns = some call → s.owner (key store t call) = some t
  alone : ∀ t t', (s.pc t).restoring = true → (s.pc t').restoring = true → t = t'
  apart : ∀ t t', (s.pc t).restoring = true → (s.pc t').replacing = false
  file : ∀ t call ino, (s.pc t).file = some (call, ino) → s.names call.tmp = some ino
  holds : ∀ t, (s.pc t).Holds s.inodes
  bounded : ∀ name, ∀ i ∈ s.names name, i < s.nextInode
  injective : ∀ name name', ∀ i ∈ s.names name, i ∈ s.names name' → name = name'
  copies : ∀ i, (s.inodes i).complete = true → ∃ src, ∃ archive ∈ s.sealedArchive src,
    (s.inodes i).members = archive.members ∧ (s.inodes i).readable = true
  tar : ∀ i ∈ s.names .tar, i ∈ original ∨ Good s i
  rebuild : ∀ t, (s.pc t).replacing = true → ∀ i ∈ s.names .rebuild, Good s i

theorem Quiet.inv {s : State P T} (h : Quiet s) : Inv store (s.names .tar) s := by
  refine ⟨?_, ?_, ?_, ?_, ?_, h.bounded, h.injective, ?_, fun i hi => Or.inl hi, ?_⟩
  · intro t call howns
    rw [h.idle t] at howns
    cases howns
  · intro t t' hrestoring
    rw [h.idle t] at hrestoring
    cases hrestoring
  · intro t t' _
    rw [h.idle t']
    rfl
  · intro t call ino hfile
    rw [h.idle t] at hfile
    cases hfile
  · intro t
    rw [h.idle t]
    trivial
  · intro i hcomplete
    rw [h.unfinished i] at hcomplete
    cases hcomplete
  · intro t hreplacing
    rw [h.idle t] at hreplacing
    cases hreplacing

/-! ## Whose files are whose -/

theorem Pc.owns_of_file {pc : Pc} {call : Call} {ino : ℕ} (h : pc.file = some (call, ino)) :
    pc.owns = some call := by
  cases pc <;> cases h <;> rfl

theorem Pc.restoring_of_owns {pc : Pc} {wait : Bool} (h : pc.owns = some (.ensure wait)) :
    pc.restoring = true := by
  rw [Pc.restoring, h]

theorem Pc.replacing_of_owns {pc : Pc} (h : pc.owns = some .replace) : pc.replacing = true := by
  have hjob : ∀ job : Job, some job.call = some Call.replace → job = ⟨.replace, job.removeCompressed⟩ := by
    rintro ⟨call, remove⟩ hj
    cases hj
    rfl
  cases pc <;> first | cases h | (rw [hjob _ h]; rfl)

/-- A thread that owns a restore is the only one to write its file. -/
theorem Inv.other_tmp {original : Option ℕ} {s : State P T} (h : Inv store original s) {t t' : T}
    {call call' : Call} {ino : ℕ} (howns : (s.pc t).owns = some call) (hne : t' ≠ t)
    (hfile : (s.pc t').file = some (call', ino)) : call'.tmp ≠ call.tmp := by
  have howns' := Pc.owns_of_file hfile
  cases call with
  | ensure wait =>
      cases call' with
      | ensure wait' =>
          exact absurd (h.alone t' t (Pc.restoring_of_owns howns') (Pc.restoring_of_owns howns)) hne
      | replace =>
          intro heq
          cases heq
  | replace =>
      cases call' with
      | ensure wait' =>
          intro heq
          cases heq
      | replace =>
          -- both would hold the lock of `rebuild`
          have hlock := h.keyed t .replace howns
          have hlock' : s.owner (key store t .replace) = some t' := h.keyed t' .replace howns'
          rw [hlock, Option.some.injEq] at hlock'
          exact absurd hlock'.symm hne

/-- Beside a replacement nobody writes `rebuild`. -/
theorem Inv.tmp_of_replacing {original : Option ℕ} {s : State P T} (h : Inv store original s) {t : T}
    (hreplacing : (s.pc t).replacing = true) {t' : T} {call : Call} {ino : ℕ}
    (hfile : (s.pc t').file = some (call, ino)) : call = .replace := by
  cases call with
  | replace => rfl
  | ensure wait =>
      have := h.apart t' t (Pc.restoring_of_owns (Pc.owns_of_file hfile))
      rw [hreplacing] at this
      cases this

/-- A thread that restores for `ensure` is not in `replace`. -/
theorem Pc.not_replacing_of_restoring {pc : Pc} (h : pc.restoring = true) : pc.replacing = false := by
  obtain ⟨wait, hown⟩ : ∃ wait, pc.owns = some (.ensure wait) := by
    unfold Pc.restoring at h
    split at h
    · rename_i wait hown
      exact ⟨wait, hown⟩
    · cases h
  have hjob : ∀ job : Job, some job.call = some (.ensure wait) → job = ⟨.ensure wait, job.removeCompressed⟩ := by
    rintro ⟨call, remove⟩ hj
    cases hj
    rfl
  cases pc <;> first | cases hown | (rw [hjob _ hown]; rfl)

/-! ## Threads that go on -/

/-- What holds of the other threads where they are and of one thread where it goes. -/
theorem forall_goto {s : State P T} {t : T} {pc : Pc} {Q : T → Pc → Prop} (hself : Q t pc)
    (hrest : ∀ t', t' ≠ t → Q t' (s.pc t')) : ∀ t', Q t' ((s.goto t pc).pc t') := by
  intro t'
  rw [State.goto]
  dsimp only
  by_cases ht : t' = t
  · subst ht
    rw [Function.update_self]
    exact hself
  · rw [Function.update_of_ne ht]
    exact hrest t' ht

/-- **A thread goes on.** -/
theorem Inv.goto {original : Option ℕ} {s : State P T} (h : Inv store original s) {t : T} {pc : Pc}
    (hkeyed : ∀ call, pc.owns = some call → s.owner (key store t call) = some t)
    (hfile : ∀ call ino, pc.file = some (call, ino) → s.names call.tmp = some ino)
    (hholds : pc.Holds s.inodes)
    (hrestoring : pc.restoring = true →
      ∀ t', t' ≠ t → (s.pc t').restoring = false ∧ (s.pc t').replacing = false)
    (hreplacing : pc.replacing = true →
      (∀ t', t' ≠ t → (s.pc t').restoring = false) ∧ ∀ i ∈ s.names .rebuild, Good s i) :
    Inv store original (s.goto t pc) := by
  refine ⟨?_, ?_, ?_, ?_, ?_, h.bounded, h.injective, h.copies, h.tar, ?_⟩
  · exact forall_goto (Q := fun t' pc => ∀ call, pc.owns = some call →
      s.owner (key store t' call) = some t') hkeyed fun t' _ => h.keyed t'
  -- either of the two threads may be the one that goes on
  · apply forall_goto (Q := fun t₁ pc₁ => ∀ t', pc₁.restoring = true →
      ((s.goto t pc).pc t').restoring = true → t₁ = t')
    · intro t' h₁
      apply forall_goto (Q := fun t' pc' => pc'.restoring = true → t = t') (fun _ => rfl)
      intro t' ht h'
      rw [(hrestoring h₁ t' ht).1] at h'
      cases h'
    · intro t₁ ht₁ t' h₁
      apply forall_goto (Q := fun t' pc' => pc'.restoring = true → t₁ = t')
      · intro h'
        rw [(hrestoring h' t₁ ht₁).1] at h₁
        cases h₁
      · intro t' _ h'
        exact h.alone t₁ t' h₁ h'
  · apply forall_goto (Q := fun t₁ pc₁ => ∀ t', pc₁.restoring = true →
      ((s.goto t pc).pc t').replacing = false)
    · intro t' h₁
      apply forall_goto (Q := fun _ pc' => pc'.replacing = false) (Pc.not_replacing_of_restoring h₁)
      intro t' ht
      exact (hrestoring h₁ t' ht).2
    · intro t₁ ht₁ t' h₁
      apply forall_goto (Q := fun _ pc' => pc'.replacing = false)
      · cases hr : pc.replacing with
        | false => rfl
        | true =>
            rw [(hreplacing hr).1 t₁ ht₁] at h₁
            cases h₁
      · intro t' _
        exact h.apart t₁ t' h₁
  · exact forall_goto (Q := fun _ pc => ∀ call ino, pc.file = some (call, ino) →
      s.names call.tmp = some ino) hfile fun t' _ => h.file t'
  · exact forall_goto (Q := fun _ pc => pc.Holds s.inodes) hholds fun t' _ => h.holds t'
  · exact forall_goto (Q := fun _ pc => pc.replacing = true → ∀ i ∈ s.names .rebuild, Good s i)
      (fun hr => (hreplacing hr).2) fun t' _ => h.rebuild t'

/-- Beside a replacement nobody restores, and what is under `rebuild` is good. -/
theorem Inv.of_replacing {original : Option ℕ} {s : State P T} (h : Inv store original s) {t : T}
    (hr : (s.pc t).replacing = true) :
    (∀ t', (s.pc t').restoring = false) ∧ ∀ i ∈ s.names .rebuild, Good s i := by
  refine ⟨?_, h.rebuild t hr⟩
  intro t'
  cases hr' : (s.pc t').restoring with
  | false => rfl
  | true =>
      rw [h.apart t' t hr'] at hr
      cases hr

/-- A thread goes on, without more of a restore or a replacement than it had. -/
theorem Inv.keep {original : Option ℕ} {s : State P T} (h : Inv store original s) {t : T} {old pc : Pc}
    (hpc : s.pc t = old) (howns : ∀ call, pc.owns = some call → old.owns = some call)
    (hreplacing : pc.replacing = true → old.replacing = true)
    (hfile : ∀ call ino, pc.file = some (call, ino) → s.names call.tmp = some ino)
    (hholds : pc.Holds s.inodes) : Inv store original (s.goto t pc) := by
  subst hpc
  apply h.goto (fun call hc => h.keyed t call (howns call hc)) hfile hholds
  · intro hr t' ht
    -- it was restoring before
    have hold : (s.pc t).restoring = true := by
      cases hc : pc.owns with
      | none =>
          rw [Pc.restoring, hc] at hr
          cases hr
      | some call =>
          cases call with
          | ensure wait => exact Pc.restoring_of_owns (howns _ hc)
          | replace =>
              rw [Pc.restoring, hc] at hr
              cases hr
    refine ⟨?_, h.apart t t' hold⟩
    cases hr' : (s.pc t').restoring with
    | false => rfl
    | true => exact absurd (h.alone t' t hr' hold) ht
  · intro hr
    have hold := h.of_replacing (hreplacing hr)
    exact ⟨fun t' _ => hold.1 t', hold.2⟩

/-- A thread goes to a point where it owns nothing. -/
theorem Inv.leave {original : Option ℕ} {s : State P T} (h : Inv store original s) {t : T} {old pc : Pc}
    (hpc : s.pc t = old) (howns : pc.owns = none)
    (hreplacing : pc.replacing = true → old.replacing = true) : Inv store original (s.goto t pc) := by
  have hno : ∀ call, pc.owns ≠ some call := by
    intro call hc
    rw [howns] at hc
    cases hc
  apply h.keep hpc (fun call hc => absurd hc (hno call)) hreplacing
  · intro call ino hf
    exact absurd (Pc.owns_of_file hf) (hno call)
  · cases pc with
    | writing job src rest ino => cases howns
    | verifying job src rest ino => cases howns
    | installing job src rest ino => cases howns
    | _ => trivial

/-- A thread goes on in its restore, without a file. -/
theorem Inv.stay {original : Option ℕ} {s : State P T} (h : Inv store original s) {t : T} {old pc : Pc}
    {call : Call} (hpc : s.pc t = old) (howns : old.owns = some call) (howns' : pc.owns = some call)
    (hfile : pc.file = none) (hholds : ∀ inodes, pc.Holds inodes) :
    Inv store original (s.goto t pc) := by
  apply h.keep hpc
  · intro call hc
    rw [howns', Option.some.injEq] at hc
    exact hc ▸ howns
  · intro hr
    cases call with
    | replace => exact Pc.replacing_of_owns howns
    | ensure wait =>
        rw [Pc.not_replacing_of_restoring (Pc.restoring_of_owns howns')] at hr
        cases hr
  · intro call ino hf
    rw [hfile] at hf
    cases hf
  · exact hholds _

/-! ## Changes of the files -/

/-- Inodes may change but for the file that a thread has written, of which no less is known. -/
theorem Pc.Holds.congr {pc : Pc} {inodes inodes' : ℕ → Inode} (h : pc.Holds inodes)
    (hcomplete : ∀ call ino, pc.file = some (call, ino) → (inodes' ino).complete = (inodes ino).complete)
    (hverified : ∀ call ino, pc.file = some (call, ino) → (inodes ino).verified = true →
      (inodes' ino).verified = true) : pc.Holds inodes' := by
  cases pc with
  | writing job src rest ino => exact (hcomplete job.call ino rfl).trans h
  | verifying job src rest ino => exact (hcomplete job.call ino rfl).trans h
  | installing job src rest ino =>
      exact ⟨(hcomplete job.call ino rfl).trans h.1, hverified job.call ino rfl h.2⟩
  | _ => trivial

/-- The names change, but for the files that are being written. -/
theorem Inv.setNames {original : Option ℕ} {s : State P T} (h : Inv store original s)
    {names : Name → Option ℕ}
    (hfile : ∀ t call ino, (s.pc t).file = some (call, ino) → names call.tmp = some ino)
    (hbounded : ∀ name, ∀ i ∈ names name, i < s.nextInode)
    (hinjective : ∀ name name', ∀ i ∈ names name, i ∈ names name' → name = name')
    (htar : ∀ i ∈ names .tar, i ∈ original ∨ Good s i)
    (hrebuild : ∀ t, (s.pc t).replacing = true → ∀ i ∈ names .rebuild, Good s i) :
    Inv store original { s with names := names } :=
  ⟨h.keyed, h.alone, h.apart, hfile, h.holds, hbounded, hinjective, h.copies, htar, hrebuild⟩

/-- A name under which nobody writes is removed. -/
theorem Inv.remove {original : Option ℕ} {s : State P T} (h : Inv store original s) (name : Name)
    (removed : Bool)
    (hnobody : ∀ t call ino, (s.pc t).file = some (call, ino) → call.tmp ≠ name) :
    Inv store original (s.remove name removed) := by
  have hsub : ∀ name', ∀ i ∈ (s.remove name removed).names name', i ∈ s.names name' := by
    intro name' i hi
    rw [State.remove] at hi
    dsimp only at hi
    split_ifs at hi
    · by_cases hname : name' = name
      · subst hname
        rw [Function.update_self] at hi
        cases hi
      · rwa [Function.update_of_ne hname] at hi
    · exact hi
  apply h.setNames
  · intro t call ino hf
    have hname := hnobody t call ino hf
    split_ifs
    · rw [Function.update_of_ne hname]
      exact h.file t call ino hf
    · exact h.file t call ino hf
  · exact fun name' i hi => h.bounded name' i (hsub name' i hi)
  · exact fun n n' i hi hi' => h.injective n n' i (hsub n i hi) (hsub n' i hi')
  · exact fun i hi => h.tar i (hsub .tar i hi)
  · exact fun t ht i hi => h.rebuild t ht i (hsub .rebuild i hi)

/-- A good file is renamed, from and to names under which nobody writes. -/
theorem Inv.rename {original : Option ℕ} {s : State P T} (h : Inv store original s)
    (source target : Name) {i : ℕ} (hi : s.names source = some i) (hgood : Good s i)
    (hnobody : ∀ t call ino, (s.pc t).file = some (call, ino) → call.tmp ≠ source ∧ call.tmp ≠ target) :
    Inv store original (s.rename source target i) := by
  -- the target has the file now, and the source has none
  have hcases : ∀ name, ∀ j ∈ Function.update (Function.update s.names source none) target (some i) name,
      (name = target ∧ j = i) ∨ (name ≠ source ∧ j ∈ s.names name) := by
    intro name j hj
    by_cases htarget : name = target
    · subst htarget
      rw [Function.update_self] at hj
      cases hj
      exact Or.inl ⟨rfl, rfl⟩
    · rw [Function.update_of_ne htarget] at hj
      by_cases hsource : name = source
      · subst hsource
        rw [Function.update_self] at hj
        cases hj
      · rw [Function.update_of_ne hsource] at hj
        exact Or.inr ⟨hsource, hj⟩
  apply h.setNames
  · intro t call ino hf
    obtain ⟨hsource, htarget⟩ := hnobody t call ino hf
    rw [Function.update_of_ne htarget, Function.update_of_ne hsource]
    exact h.file t call ino hf
  · intro name j hj
    rcases hcases name j hj with ⟨-, rfl⟩ | ⟨-, hj⟩
    · exact h.bounded source j hi
    · exact h.bounded name j hj
  · intro name name' j hj hj'
    rcases hcases name j hj with ⟨rfl, rfl⟩ | ⟨hne, hold⟩
    · rcases hcases name' j hj' with ⟨rfl, -⟩ | ⟨hne', hold'⟩
      · rfl
      · exact absurd (h.injective name' source j hold' hi) hne'
    · rcases hcases name' j hj' with ⟨rfl, rfl⟩ | ⟨hne', hold'⟩
      · exact absurd (h.injective name source j hold hi) hne
      · exact h.injective name name' j hold hold'
  · intro j hj
    rcases hcases .tar j hj with ⟨-, rfl⟩ | ⟨-, hj⟩
    · exact Or.inr hgood
    · exact h.tar j hj
  · intro t ht j hj
    rcases hcases .rebuild j hj with ⟨-, rfl⟩ | ⟨-, hj⟩
    · exact hgood
    · exact h.rebuild t ht j hj

/-- A new file, under a name under which nobody writes and which nobody renames to the tar. -/
theorem Inv.create {original : Option ℕ} {s : State P T} (h : Inv store original s) {name : Name}
    (hnobody : ∀ t call ino, (s.pc t).file = some (call, ino) → call.tmp ≠ name) (hname : name ≠ .tar)
    (hreplacing : name = .rebuild → ∀ t, (s.pc t).replacing = false) :
    Inv store original (s.create name) := by
  -- a name stands for the new inode, or for what it stood for
  have hcases : ∀ name', ∀ i ∈ Function.update s.names name (some s.nextInode) name',
      (name' = name ∧ i = s.nextInode) ∨ (i ∈ s.names name' ∧ i < s.nextInode) := by
    intro name' i hi
    by_cases hn : name' = name
    · subst hn
      rw [Function.update_self] at hi
      cases hi
      exact Or.inl ⟨rfl, rfl⟩
    · rw [Function.update_of_ne hn] at hi
      exact Or.inr ⟨hi, h.bounded name' i hi⟩
  have hinode : ∀ i, i < s.nextInode →
      Function.update s.inodes s.nextInode Inode.created i = s.inodes i := by
    intro i hlt
    exact Function.update_of_ne (by omega) ..
  have hgood : ∀ i, i < s.nextInode → Good s i → Good (s.create name) i := by
    intro i hlt hg
    show (Function.update s.inodes s.nextInode Inode.created i).complete = true ∧
      (Function.update s.inodes s.nextInode Inode.created i).verified = true
    rw [hinode i hlt]
    exact hg
  refine ⟨h.keyed, h.alone, h.apart, ?_, ?_, ?_, ?_, ?_, ?_, ?_⟩
  · intro t call ino hf
    show Function.update s.names name (some s.nextInode) call.tmp = some ino
    rw [Function.update_of_ne (hnobody t call ino hf)]
    exact h.file t call ino hf
  · intro t
    have hsame : ∀ call ino, (s.pc t).file = some (call, ino) →
        Function.update s.inodes s.nextInode Inode.created ino = s.inodes ino := by
      intro call ino hf
      exact hinode ino (h.bounded call.tmp ino (h.file t call ino hf))
    apply (h.holds t).congr
    · intro call ino hf
      exact congrArg Inode.complete (hsame call ino hf)
    · intro call ino hf hv
      exact (congrArg Inode.verified (hsame call ino hf)).trans hv
  · intro name' i hi
    show i < s.nextInode + 1
    rcases hcases name' i hi with ⟨-, rfl⟩ | ⟨-, hlt⟩ <;> omega
  · intro n n' i hi hi'
    rcases hcases n i hi with ⟨rfl, rfl⟩ | ⟨hi, hlt⟩
    · rcases hcases n' _ hi' with ⟨rfl, -⟩ | ⟨-, hlt'⟩
      · rfl
      · exact absurd hlt' (Nat.lt_irrefl _)
    · rcases hcases n' i hi' with ⟨-, rfl⟩ | ⟨hi', -⟩
      · exact absurd hlt (Nat.lt_irrefl _)
      · exact h.injective n n' i hi hi'
  · intro i hcomplete
    have hc : (Function.update s.inodes s.nextInode Inode.created i).complete = true := hcomplete
    show ∃ src, ∃ archive ∈ s.sealedArchive src,
      (Function.update s.inodes s.nextInode Inode.created i).members = archive.members ∧
        (Function.update s.inodes s.nextInode Inode.created i).readable = true
    by_cases hi : i = s.nextInode
    · subst hi
      rw [Function.update_self] at hc
      cases hc
    · rw [Function.update_of_ne hi] at hc ⊢
      exact h.copies i hc
  · intro i hi
    rcases hcases .tar i hi with ⟨heq, -⟩ | ⟨hi, hlt⟩
    · exact absurd heq.symm hname
    · exact (h.tar i hi).imp_right (hgood i hlt)
  · intro t ht i hi
    rcases hcases .rebuild i hi with ⟨heq, -⟩ | ⟨hi, hlt⟩
    · have ht' : (s.pc t).replacing = true := ht
      rw [hreplacing heq.symm t] at ht'
      cases ht'
    · exact hgood i hlt (h.rebuild t ht i hi)

/-- More is known of an inode, and nothing else has changed. -/
theorem Inv.setInode {original : Option ℕ} {s : State P T} (h : Inv store original s) (i : ℕ) (data : Inode)
    (hcomplete : data.complete = (s.inodes i).complete) (hmembers : data.members = (s.inodes i).members)
    (hreadable : data.readable = (s.inodes i).readable)
    (hverified : (s.inodes i).verified = true → data.verified = true) :
    Inv store original (s.setInode i data) := by
  have hc : ∀ j, (Function.update s.inodes i data j).complete = (s.inodes j).complete := by
    intro j
    by_cases hj : j = i
    · subst hj
      rw [Function.update_self, hcomplete]
    · rw [Function.update_of_ne hj]
  have hv : ∀ j, (s.inodes j).verified = true → (Function.update s.inodes i data j).verified = true := by
    intro j hj
    by_cases hji : j = i
    · subst hji
      rw [Function.update_self]
      exact hverified hj
    · rwa [Function.update_of_ne hji]
  have hgood : ∀ j, Good s j → Good (s.setInode i data) j := by
    intro j hj
    exact ⟨(hc j).trans hj.1, hv j hj.2⟩
  refine ⟨h.keyed, h.alone, h.apart, h.file, ?_, h.bounded, h.injective, ?_, ?_, ?_⟩
  · intro t
    exact (h.holds t).congr (fun _ ino _ => hc ino) fun _ ino _ => hv ino
  · intro j hj
    have hj' : (s.inodes j).complete = true := (hc j).symm.trans hj
    obtain ⟨src, archive, harchive, hsame, hread⟩ := h.copies j hj'
    refine ⟨src, archive, harchive, ?_, ?_⟩
    · show (Function.update s.inodes i data j).members = archive.members
      by_cases hji : j = i
      · subst hji
        rw [Function.update_self, hmembers, hsame]
      · rw [Function.update_of_ne hji, hsame]
    · show (Function.update s.inodes i data j).readable = true
      by_cases hji : j = i
      · subst hji
        rw [Function.update_self, hreadable, hread]
      · rw [Function.update_of_ne hji, hread]
  · exact fun j hj => (h.tar j hj).imp_right (hgood j)
  · exact fun t ht j hj => hgood j (h.rebuild t ht j hj)

/-- The copy of a sealed archive becomes complete.  Nobody else writes it, and it is not under a name that
counts. -/
theorem Inv.complete {original : Option ℕ} {s : State P T} (h : Inv store original s) {i : ℕ} {src : Source}
    {archive : Archive} (harchive : s.sealedArchive src = some archive)
    (hnobody : ∀ t call ino, (s.pc t).file = some (call, ino) → ino ≠ i)
    (htar : i ∉ s.names .tar) (hrebuild : ∀ t, (s.pc t).replacing = true → i ∉ s.names .rebuild) :
    Inv store original (s.setInode i (Inode.copyOf archive)) := by
  have hother : ∀ j, j ≠ i → Function.update s.inodes i (Inode.copyOf archive) j = s.inodes j := by
    intro j hj
    exact Function.update_of_ne hj ..
  have hgood : ∀ j, j ≠ i → Good s j → Good (s.setInode i (Inode.copyOf archive)) j := by
    intro j hj hg
    show (Function.update s.inodes i (Inode.copyOf archive) j).complete = true ∧
      (Function.update s.inodes i (Inode.copyOf archive) j).verified = true
    rw [hother j hj]
    exact hg
  refine ⟨h.keyed, h.alone, h.apart, h.file, ?_, h.bounded, h.injective, ?_, ?_, ?_⟩
  · intro t
    apply (h.holds t).congr
    · intro call ino hf
      exact congrArg Inode.complete (hother ino (hnobody t call ino hf))
    · intro call ino hf hv
      exact (congrArg Inode.verified (hother ino (hnobody t call ino hf))).trans hv
  · intro j hj
    have hj' : (Function.update s.inodes i (Inode.copyOf archive) j).complete = true := hj
    show ∃ src, ∃ archive' ∈ s.sealedArchive src,
      (Function.update s.inodes i (Inode.copyOf archive) j).members = archive'.members ∧
        (Function.update s.inodes i (Inode.copyOf archive) j).readable = true
    by_cases hji : j = i
    · subst hji
      rw [Function.update_self]
      exact ⟨src, archive, harchive, rfl, rfl⟩
    · rw [hother j hji] at hj' ⊢
      exact h.copies j hj'
  · intro j hj
    have hji : j ≠ i := by
      rintro rfl
      exact htar hj
    exact (h.tar j hj).imp_right (hgood j hji)
  · intro t ht j hj
    have hji : j ≠ i := by
      rintro rfl
      exact hrebuild t ht hj
    exact hgood j hji (h.rebuild t ht j hj)

/-! ## Changes of the owners -/

/-- A lease or lock is given back that nobody relies on. -/
theorem Inv.drop {original : Option ℕ} {s : State P T} (h : Inv store original s) {k : Key P}
    (hnobody : ∀ t call, (s.pc t).owns = some call → key store t call ≠ k) :
    Inv store original { s with owner := Function.update s.owner k none } := by
  refine ⟨?_, h.alone, h.apart, h.file, h.holds, h.bounded, h.injective, h.copies, h.tar, h.rebuild⟩
  intro t call howns
  show Function.update s.owner k none (key store t call) = some t
  rw [Function.update_of_ne (hnobody t call howns)]
  exact h.keyed t call howns

/-- A free lease or lock is taken. -/
theorem Inv.take {original : Option ℕ} {s : State P T} (h : Inv store original s) {k : Key P}
    (hfree : s.owner k = none) (t : T) :
    Inv store original { s with owner := Function.update s.owner k (some t) } := by
  refine ⟨?_, h.alone, h.apart, h.file, h.holds, h.bounded, h.injective, h.copies, h.tar, h.rebuild⟩
  intro t' call howns
  have howner := h.keyed t' call howns
  have hne : key store t' call ≠ k := by
    intro heq
    rw [heq, hfree] at howner
    cases howner
  show Function.update s.owner k (some t) (key store t' call) = some t'
  rw [Function.update_of_ne hne]
  exact howner

/-! ## The steps of a restore -/

theorem Call.tmp_ne_tar (call : Call) : call.tmp ≠ .tar := by
  cases call <;> intro h <;> cases h

/-- While a thread owns a restore and has no file, nobody writes under its name. -/
theorem Inv.nobody {original : Option ℕ} {s : State P T} (h : Inv store original s) {t : T} {old : Pc}
    {call : Call} (hpc : s.pc t = old) (howns : old.owns = some call) (hfile : old.file = none) :
    ∀ t' call' ino, (s.pc t').file = some (call', ino) → call'.tmp ≠ call.tmp := by
  subst hpc
  intro t' call' ino hf
  by_cases ht : t' = t
  · subst ht
    rw [hfile] at hf
    cases hf
  · exact h.other_tmp howns ht hf

/-- A thread finds the file it has written under the name its call writes. -/
theorem Inv.own_file {original : Option ℕ} {s : State P T} (h : Inv store original s) {t : T} {old : Pc}
    {call : Call} {ino : ℕ} (hpc : s.pc t = old) (hfile : old.file = some (call, ino)) :
    s.names call.tmp = some ino := by
  subst hpc
  exact h.file t call ino hfile

theorem Inv.holds_of_pc {original : Option ℕ} {s : State P T} (h : Inv store original s) {t : T}
    {old : Pc} (hpc : s.pc t = old) : old.Holds s.inodes := by
  subst hpc
  exact h.holds t

/-- A restore of the tar is not beside a replacement. -/
theorem Inv.not_replacing {original : Option ℕ} {s : State P T} (h : Inv store original s) {t : T}
    {old : Pc} {call : Call} (hpc : s.pc t = old) (howns : old.owns = some call)
    (hcall : call.tmp = .rebuild) (t' : T) : (s.pc t').replacing = false := by
  subst hpc
  cases call with
  | ensure wait => exact h.apart t t' (Pc.restoring_of_owns howns)
  | replace => cases hcall

theorem Inv.acquire {original : Option ℕ} {s : State P T} (h : Inv store original s) {t : T} {job : Job}
    {src : Source} {rest : List Source} (hpc : s.pc t = .asking job src rest)
    (hfree : s.owner (key store t job.call) = none) (hsound : AcquireSound store s t (s.pc t)) :
    Inv store original
      ({ s with owner := Function.update s.owner (key store t job.call) (some t) }.goto t
        (.owning job src rest)) := by
  apply (h.take hfree t).goto
  · rintro call ⟨⟩
    exact Function.update_self ..
  · intro call ino hf
    cases hf
  · trivial
  · intro hr t' ht
    -- only a restore by `ensure` has to be alone
    obtain ⟨call, remove⟩ := job
    cases call with
    | replace => cases hr
    | ensure wait =>
        rw [hpc] at hsound
        obtain ⟨hkey, hnot⟩ := hsound t'
        refine ⟨?_, hnot⟩
        show (s.pc t').restoring = false
        cases hr' : (s.pc t').restoring with
        | false => rfl
        | true =>
            -- it would have the key that is free
            have howns : ∃ wait', (s.pc t').owns = some (.ensure wait') := by
              unfold Pc.restoring at hr'
              split at hr'
              · rename_i wait' heq
                exact ⟨wait', heq⟩
              · cases hr'
            obtain ⟨wait', howns⟩ := howns
            have howner := h.keyed t' _ howns
            have hwait : key store t' (.ensure wait') = key store t' (.ensure wait) := rfl
            rw [hwait, hkey hr', hfree] at howner
            cases howner
  · intro hr
    have hold : (s.pc t).replacing = true := by
      rw [hpc]
      exact hr
    have := h.of_replacing hold
    exact ⟨fun t' _ => this.1 t', this.2⟩

theorem Inv.startReplace {original : Option ℕ} {s : State P T} (h : Inv store original s) {t : T}
    {job : Job} {removed : Bool} (hnobody : ∀ t, (s.pc t).restoring = false)
    (hrest : removed = true ∨ ∀ i ∈ s.names .rebuild, Good s i) :
    Inv store original ((s.remove .rebuild removed).goto t (.trying job [.zst, .gz])) := by
  have hremoved := h.remove .rebuild removed (by
    intro t' call ino hf hname
    cases call with
    | replace => cases hname
    | ensure wait =>
        have := hnobody t'
        rw [Pc.restoring_of_owns (Pc.owns_of_file hf)] at this
        cases this)
  apply hremoved.goto
  · intro call hc
    cases hc
  · intro call ino hf
    cases hf
  · trivial
  · intro hr
    cases hr
  · intro _
    refine ⟨fun t' _ => hnobody t', ?_⟩
    intro i hi
    -- a rest under `rebuild` is gone or good
    rw [State.remove] at hi
    dsimp only at hi
    rcases hrest with rfl | hgood
    · rw [if_pos rfl, Function.update_self] at hi
      cases hi
    · split_ifs at hi
      · rw [Function.update_self] at hi
        cases hi
      · exact hgood i hi

theorem Inv.clear {original : Option ℕ} {s : State P T} (h : Inv store original s) {t : T} {job : Job}
    {src : Source} {rest : List Source} (hpc : s.pc t = .clearing job src rest) (removed : Bool) :
    Inv store original ((s.remove job.call.tmp removed).goto t (.opening job src rest)) := by
  have hnobody := h.nobody hpc rfl rfl
  exact (h.remove _ removed hnobody).stay hpc rfl rfl rfl fun _ => trivial

theorem Inv.openOutput {original : Option ℕ} {s : State P T} (h : Inv store original s) {t : T}
    {job : Job} {src : Source} {rest : List Source} (hpc : s.pc t = .opening job src rest) :
    Inv store original ((s.create job.call.tmp).goto t (.writing job src rest s.nextInode)) := by
  have hnobody := h.nobody hpc rfl rfl
  have hcreated := h.create hnobody job.call.tmp_ne_tar (h.not_replacing hpc rfl)
  apply hcreated.keep hpc
  · exact fun call hc => hc
  · exact id
  · rintro call ino ⟨⟩
    exact Function.update_self ..
  · show (Function.update s.inodes s.nextInode Inode.created s.nextInode).complete = false
    rw [Function.update_self]
    rfl

theorem Inv.written {original : Option ℕ} {s : State P T} (h : Inv store original s) {t : T}
    {job : Job} {src : Source} {rest : List Source} {ino : ℕ} {archive : Archive}
    (hpc : s.pc t = .writing job src rest ino) (harchive : s.sealedArchive src = some archive) :
    Inv store original
      ((s.setInode ino (Inode.copyOf archive)).goto t (.verifying job src rest ino)) := by
  have hino : s.names job.call.tmp = some ino := h.own_file hpc rfl
  -- the thread lets go of its file while the inode changes
  have h₀ : Inv store original (s.goto t (.cleaning job rest)) :=
    h.stay hpc rfl rfl rfl fun _ => trivial
  have hself : (s.goto t (.cleaning job rest)).pc t = .cleaning job rest := Function.update_self ..
  have hnobody : ∀ t' call i, ((s.goto t (.cleaning job rest)).pc t').file = some (call, i) → i ≠ ino := by
    intro t' call i hf heq
    have hi := h₀.file t' call i hf
    rw [heq] at hi
    exact h₀.nobody hself rfl rfl t' call i hf (h.injective _ _ ino hi hino)
  have htar : ino ∉ s.names .tar := by
    intro htar
    exact job.call.tmp_ne_tar (h.injective _ _ ino hino htar)
  have hrebuild : ∀ t', ((s.goto t (.cleaning job rest)).pc t').replacing = true →
      ino ∉ s.names .rebuild := by
    intro t' hr hrebuild
    rw [h₀.not_replacing hself rfl (h.injective _ _ ino hino hrebuild) t'] at hr
    cases hr
  -- the two steps of the thread are one
  have hfinal : (s.setInode ino (Inode.copyOf archive)).goto t (.verifying job src rest ino) =
      ((s.goto t (.cleaning job rest)).setInode ino (Inode.copyOf archive)).goto t
        (.verifying job src rest ino) := by
    simp [State.goto, State.setInode]
  rw [hfinal]
  apply (h₀.complete harchive hnobody htar hrebuild).keep hself
  · exact fun call hc => hc
  · exact id
  · rintro call i ⟨⟩
    exact hino
  · show (Function.update s.inodes ino (Inode.copyOf archive) ino).complete = true
    rw [Function.update_self]
    rfl

theorem Inv.verify {original : Option ℕ} {s : State P T} (h : Inv store original s) {t : T}
    {job : Job} {src : Source} {rest : List Source} {ino i : ℕ}
    (hpc : s.pc t = .verifying job src rest ino) (hi : s.names job.call.tmp = some i) :
    Inv store original ((s.setInode i { s.inodes i with verified := true }).goto t
      (.installing job src rest ino)) := by
  have hino : s.names job.call.tmp = some ino := h.own_file hpc rfl
  rw [hi, Option.some.injEq] at hino
  subst hino
  have hset := h.setInode i { s.inodes i with verified := true } rfl rfl rfl fun _ => rfl
  apply hset.keep hpc
  · exact fun call hc => hc
  · exact id
  · rintro call j ⟨⟩
    exact hi
  · show (Function.update s.inodes i _ i).complete = true ∧ (Function.update s.inodes i _ i).verified = true
    rw [Function.update_self]
    exact ⟨h.holds_of_pc hpc, rfl⟩

theorem Inv.install {original : Option ℕ} {s : State P T} (h : Inv store original s) {t : T}
    {job : Job} {src : Source} {rest : List Source} {ino i : ℕ}
    (hpc : s.pc t = .installing job src rest ino) (hi : s.names job.call.tmp = some i) {pc : Pc}
    (howns' : pc.owns = some job.call) (hfile : pc.file = none)
    (hholds : ∀ inodes, pc.Holds inodes) :
    Inv store original ((s.rename job.call.tmp job.call.dest i).goto t pc) := by
  have hino : s.names job.call.tmp = some ino := h.own_file hpc rfl
  rw [hi, Option.some.injEq] at hino
  subst hino
  have hgood : Good s i := h.holds_of_pc hpc
  -- first the thread goes on, then the names change: nobody writes under them
  have h₀ : Inv store original (s.goto t pc) := h.stay hpc rfl howns' hfile hholds
  have hself : (s.goto t pc).pc t = pc := Function.update_self ..
  refine h₀.rename job.call.tmp job.call.dest hi hgood ?_
  intro t' call j hf
  refine ⟨h₀.nobody hself howns' hfile t' call j hf, ?_⟩
  cases hcall : job.call with
  | ensure wait => exact call.tmp_ne_tar
  | replace =>
      have hr : ((s.goto t pc).pc t).replacing = true := by
        rw [hself]
        apply Pc.replacing_of_owns
        rw [howns', hcall]
      rw [h₀.tmp_of_replacing hr hf]
      intro heq
      cases heq

theorem Inv.release {original : Option ℕ} {s : State P T} (h : Inv store original s) {t : T}
    {job : Job} {rest : List Source} {ok : Bool} (hpc : s.pc t = .releasing job rest ok) {pc : Pc}
    (howns' : pc.owns = none)
    (hreplacing : pc.replacing = true → (Pc.releasing job rest ok).replacing = true) :
    Inv store original
      ({ s with owner := Function.update s.owner (key store t job.call) none }.goto t pc) := by
  have howner : s.owner (key store t job.call) = some t := by
    apply h.keyed t
    rw [hpc]
    rfl
  refine (h.leave hpc howns' hreplacing).drop ?_
  -- an owner of the same key would be the thread itself
  apply forall_goto (Q := fun t' pc' => ∀ call, pc'.owns = some call →
    key store t' call ≠ key store t job.call)
  · intro call hc
    rw [howns'] at hc
    cases hc
  · intro t' ht call hc heq
    have howner' := h.keyed t' call hc
    rw [heq, howner, Option.some.injEq] at howner'
    exact ht howner'.symm

/-! ## Whole runs -/

theorem owns_restored (job : Job) : (restored job).owns = none := by
  obtain ⟨call, remove⟩ := job
  cases call <;> rfl

/-- `final` is a point of `replace`. -/
theorem replacing_restored {job : Job} {pc : Pc} (hjob : pc.job = some job)
    (hr : (restored job).replacing = true) : pc.replacing = true := by
  obtain ⟨call, remove⟩ := job
  cases call with
  | ensure wait => cases hr
  | replace => cases pc <;> cases hjob <;> rfl

/-- **The step lemma.** -/
theorem inv_step {original : Option ℕ} (s : State P T) (a : Action T) (s' : State P T)
    (h : Inv store original s ∧ Unlinks s) (hsound : Sound store s a) (hstep : step store s a = some s') :
    Inv store original s' ∧ Unlinks s' := by
  refine ⟨?_, (sealed_step h.2 hstep).2⟩
  obtain ⟨h, hunlinks⟩ := h
  cases a with
  | ensure t wait =>
      cases hpc : s.pc t <;> simp only [step, hpc] at hstep <;> try cases hstep
      split_ifs at hstep <;> cases hstep
      · exact h
      · exact h.leave hpc rfl fun hr => absurd hr Bool.false_ne_true
  | replace t removed =>
      cases hpc : s.pc t <;> simp only [step, hpc] at hstep <;> try cases hstep
      exact h.startReplace hsound.1 hsound.2
  | look t =>
      cases hpc : s.pc t <;> simp only [step, hpc] at hstep <;> try cases hstep
      rename_i job sources
      cases sources with
      | nil =>
          dsimp only at hstep
          split at hstep <;> cases hstep
          · exact h.leave hpc rfl fun hr => absurd hr Bool.false_ne_true
          · rename_i hcall
            refine h.leave hpc rfl fun _ => ?_
            obtain ⟨call, remove⟩ := job
            cases hcall
            rfl
      | cons src rest =>
          dsimp only at hstep
          split_ifs at hstep <;> cases hstep
          · exact h.leave hpc rfl id
          · exact h.leave hpc (owns_restored job) (replacing_restored rfl)
          · exact h.leave hpc rfl id
  | acquire t =>
      cases hpc : s.pc t <;> simp only [step, hpc] at hstep <;> try cases hstep
      split_ifs at hstep with hfree
      cases hstep
      exact h.acquire hpc (Option.isNone_iff_eq_none.mp hfree) hsound
  | refuse t =>
      cases hpc : s.pc t <;> simp only [step, hpc] at hstep <;> try cases hstep
      split_ifs at hstep
      split at hstep <;> cases hstep
      · exact h.leave hpc rfl id
      · exact h.leave hpc rfl id
  | waited t =>
      cases hpc : s.pc t <;> simp only [step, hpc] at hstep <;> try cases hstep
      rename_i job rest
      split_ifs at hstep <;> cases hstep
      · exact h.leave hpc (owns_restored job) (replacing_restored rfl)
      · exact h.leave hpc rfl id
  | own t =>
      cases hpc : s.pc t <;> simp only [step, hpc] at hstep <;> try cases hstep
      split_ifs at hstep <;> cases hstep
      · exact h.stay hpc rfl rfl rfl fun _ => trivial
      · exact h.stay hpc rfl rfl rfl fun _ => trivial
  | clear t removed =>
      cases hpc : s.pc t <;> simp only [step, hpc] at hstep <;> try cases hstep
      exact h.clear hpc removed
  | openOutput t =>
      cases hpc : s.pc t <;> simp only [step, hpc] at hstep <;> try cases hstep
      exact h.openOutput hpc
  | write t =>
      cases hpc : s.pc t <;> simp only [step, hpc] at hstep <;> try cases hstep
      exact h.setInode _ _ rfl rfl rfl fun hv => hv
  | written t ok =>
      cases hpc : s.pc t <;> simp only [step, hpc] at hstep <;> try cases hstep
      split at hstep
      · rename_i harchive
        split_ifs at hstep
        cases hstep
        exact h.written hpc harchive
      · cases hstep
      · cases hstep
        exact h.stay hpc rfl rfl rfl fun _ => trivial
  | verify t ok =>
      cases hpc : s.pc t <;> simp only [step, hpc] at hstep <;> try cases hstep
      split at hstep <;> cases hstep
      · rename_i hi
        exact h.verify hpc hi
      · exact h.stay hpc rfl rfl rfl fun _ => trivial
  | install t ok =>
      cases hpc : s.pc t <;> simp only [step, hpc] at hstep <;> try cases hstep
      rename_i job src rest ino
      split at hstep <;> cases hstep
      · rename_i hi
        by_cases hremove : job.removeCompressed = true
        · rw [if_pos hremove]
          exact h.install hpc hi rfl rfl fun _ => trivial
        · rw [if_neg hremove]
          exact h.install hpc hi rfl rfl fun _ => trivial
      · exact h.stay hpc rfl rfl rfl fun _ => trivial
  | unlinkSealed t ok =>
      cases hpc : s.pc t <;> simp only [step, hpc] at hstep <;> try cases hstep
      rename_i job src rest
      have hnone := hunlinks.none_sealed t job (by rw [hpc]; rfl) (hunlinks.removes t job src rest hpc) src
      -- a call unlinks only what was not there when it began
      have hsame : Function.update s.sealedArchive src none = s.sealedArchive :=
        Function.update_eq_self_iff.mpr hnone.symm
      rw [hsame] at hstep
      split_ifs at hstep <;> cases hstep
      · exact h.stay hpc rfl rfl rfl fun _ => trivial
      · exact h.stay hpc rfl rfl rfl fun _ => trivial
  | clean t removed =>
      cases hpc : s.pc t <;> simp only [step, hpc] at hstep <;> try cases hstep
      rename_i job rest
      have hnobody := h.nobody hpc rfl rfl
      exact (h.remove _ removed hnobody).stay hpc rfl rfl rfl fun _ => trivial
  | release t =>
      cases hpc : s.pc t <;> simp only [step, hpc] at hstep <;> try cases hstep
      rename_i job rest ok
      split_ifs at hstep <;> cases hstep
      · exact h.release hpc (owns_restored job) (replacing_restored rfl)
      · exact h.release hpc rfl id
  | finish t ok =>
      cases hpc : s.pc t <;> simp only [step, hpc] at hstep <;> try cases hstep
      have hr : (s.pc t).replacing = true := by rw [hpc]; rfl
      split at hstep <;> cases hstep
      · rename_i i hi
        -- what `replace` finds under `rebuild` is good
        have hrenamed := h.rename .rebuild .tar hi (h.rebuild t hr i hi)
          (by
            intro t' call j hf
            rw [h.tmp_of_replacing hr hf]
            exact ⟨by decide, by decide⟩)
        exact hrenamed.leave hpc rfl fun hr => absurd hr Bool.false_ne_true
      · exact h.leave hpc rfl fun hr => absurd hr Bool.false_ne_true
  | abandon t removed =>
      cases hpc : s.pc t <;> simp only [step, hpc] at hstep <;> try cases hstep
      have hr : (s.pc t).replacing = true := by rw [hpc]; rfl
      have hremoved := h.remove .rebuild removed (by
        intro t' call j hf
        rw [h.tmp_of_replacing hr hf]
        decide)
      exact hremoved.leave hpc rfl fun hr => absurd hr Bool.false_ne_true

/-- **The daily tar is whole.**  In every state that a run of sound steps reaches, the daily tar is the one
of the beginning, or a complete and verified copy of a sealed archive that nobody is writing. -/
theorem tar_verified_of_run (store : T → Option P) (s₀ s : State P T) (hquiet : Quiet s₀)
    (as : List (Action T)) (hsound : Respects (step store) (Sound store) s₀ as)
    (hrun : exec (step store) s₀ as = some s) :
    ∀ i ∈ s.names .tar, i ∈ s₀.names .tar ∨
      ((∃ src, ∃ archive ∈ s₀.sealedArchive src, (s.inodes i).members = archive.members ∧
        (s.inodes i).readable = true) ∧ (s.inodes i).verified = true ∧
        ∀ t job src rest, s.pc t ≠ .writing job src rest i) := by
  have h := exec_invariant (I := fun s => Inv store (s₀.names .tar) s ∧ Unlinks s)
    inv_step as s₀ s ⟨hquiet.inv, hquiet.unlinks⟩ hsound hrun
  intro i hi
  refine (h.1.tar i hi).imp_right ?_
  rintro ⟨hcomplete, hverified⟩
  refine ⟨?_, hverified, ?_⟩
  · rw [← sealed_of_run hquiet hrun]
    exact h.1.copies i hcomplete
  · intro t job src rest hpc
    have hholds := h.1.holds t
    rw [hpc] at hholds
    rw [hholds] at hcomplete
    cases hcomplete

/-- A replacement, and a restore that finds the tar done. -/
theorem tar_verified_of_run_replaced :
    ∃ s, exec (step fun _ => some 0) corruptDay
        (rebuildSteps false ++ [.finish false true, .ensure true true]) = some s ∧
      s.names .tar = some 1 ∧ (s.inodes 1).members = [("a", 5)] ∧ (s.inodes 1).verified = true := by
  have hrun : ((exec (step fun _ => some 0) corruptDay
      (rebuildSteps false ++ [Action.finish false true, Action.ensure true true])).map
        fun s => (s.names .tar, (s.inodes 1).members)) = some (some 1, [("a", 5)]) := by
    decide +kernel
  obtain ⟨s, hs, hread⟩ := Option.map_eq_some_iff.mp hrun
  rw [Prod.mk.injEq] at hread
  refine ⟨s, hs, hread.1, hread.2, ?_⟩
  rcases tar_verified_of_run _ corruptDay s quiet_corruptDay _ (by decide +kernel) hs 1 hread.1 with
    hold | hnew
  · cases hold
  · exact hnew.2.1

/-- A day with a sealed archive and an empty tar. -/
def emptyDay : State ℕ Bool := { corruptDay with inodes := fun _ => ⟨[], false, false, false, false⟩ }

/-- The replacement removes what is left under `rebuild`, a restore for an append starts to write there, and
the replacement takes what it finds for its own copy: the half-written file becomes the daily tar. -/
theorem tar_half_written :
    ∃ s, exec (step fun _ => some 0) emptyDay
        [.replace true true, .ensure false true, .look false, .acquire false, .own false,
          .clear false true, .openOutput false, .write false, .look true, .finish true true] = some s ∧
      s.names .tar = some 1 ∧ emptyDay.names .tar = some 0 ∧
      (s.inodes 1).complete = false ∧ (s.inodes 1).verified = false ∧
      s.pc false = .writing ⟨.ensure true, false⟩ .zst [.gz] 1 := by
  have hrun : ((exec (step fun _ => some 0) emptyDay
      [.replace true true, .ensure false true, .look false, .acquire false, .own false,
        .clear false true, .openOutput false, .write false, .look true, .finish true true]).map
        fun s => (s.names .tar, (s.inodes 1).complete, (s.inodes 1).verified, s.pc false)) =
      some (some 1, false, false, .writing ⟨.ensure true, false⟩ .zst [.gz] 1) := by
    decide +kernel
  obtain ⟨s, hs, hread⟩ := Option.map_eq_some_iff.mp hrun
  simp only [Prod.mk.injEq] at hread
  exact ⟨s, hs, hread.1, rfl, hread.2.1, hread.2.2.1, hread.2.2.2⟩

end TarRestore
