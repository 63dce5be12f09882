/-
# The open tar and the sealed archive of one day

One calendar day has an open `YYYY-MM-DD.tar`, a sealed `YYYY-MM-DD.tar.zst` and the
merge file `YYYY-MM-DD.tar.merge.tmp`.  Any number of processes run

* `_append_to_tar` (one step per batch: the batch is appended inside
  `file_write_lock`),
* `atomic_seal_tar_to_zst` (compression inside the lock, removal of the tar inside a
  SECOND hold of the lock),
* `reconcile_open_tar_with_sealed_zst` with `rebuild_daily_tar_member_union_in_place`
  (the member maps are read and the members copied outside the write lock; only the
  final `os.replace` is inside it).

`file_write_lock` is a perfect lock here, so one locked region is one step, and a run
is an arbitrary interleaving of such steps.  A step of the environment (an exception, a
refused check, a cooperative yield, a retained tar) is `Act.fail`, which performs the
clean-up of the source and returns.

The fields `appends` and `completed` record the history: the number of batches that have
changed the tar, and the members of the batches that `tar -r` completed.  The stamp in a
program point is the value of `appends` when its process read what it relies on.

The tar is taken to be readable by GNU tar throughout, so the truncated-tar repair at
the head of the reconcile does not run.

Main results: `retained_of_run` and `not_retained_append_after_seal`.
-/
import HpcPerfStats.ArchiveMembers
import HpcPerfStats.Transition

namespace DailyArchive

open ArchiveMembers
open scoped Transition

/-! ## Program points and states -/

/-- Program points of the two maintenance functions; an append is one step from `idle`. -/
inductive PC where
  | idle
  /-- inside `reconcile`: the tar is there and readable; next: read its member map -/
  | reconcileTar (zstExists : Bool)
  /-- next: read the sealed map and classify -/
  | reconcileZst (zstExists : Bool) (tarMembers : MemberMap) (stamp : ℕ)
  /-- `noop`: next, when forced, remove the tar under the lock -/
  | noopDrop (stamp : ℕ)
  /-- `rebuild`: the members still to be copied into the merge file -/
  | merging (todo : MemberMap) (stamp : ℕ)
  /-- the merge file was verified; next: `os.replace` under the lock -/
  | mergeReady (stamp : ℕ)
  /-- entry of `atomic_seal_tar_to_zst`; next: the skip check -/
  | sealCheck
  /-- next: shrink guard, compression and replacement of the zst, under the lock -/
  | sealLocked (zstMembers : Option MemberMap)
  /-- the lock was released; next, unless the tar is kept: remove it under the lock -/
  | sealDrop (stamp : ℕ)
  deriving DecidableEq, Repr

/-- The rebuild of a process is between its start and its `os.replace`. -/
def PC.rebuilding : PC → Bool
  | .merging _ _ => true
  | .mergeReady _ => true
  | _ => false

/-- The stamp of a process whose next step replaces or removes the tar. -/
def PC.mutates : PC → Option ℕ
  | .noopDrop g => some g
  | .mergeReady g => some g
  | .sealDrop g => some g
  | _ => none

/-- The files of the day, the history and the processes. -/
structure State (n : ℕ) where
  tar : Option Content
  zst : Option Content
  mergeTmp : Option Content
  /-- number of batches that have changed the tar -/
  appends : ℕ
  /-- members of the completed batches -/
  completed : List Member
  pc : Fin n → PC

variable {n : ℕ}

/-- A day with arbitrary files and no append yet. -/
def State.init (n : ℕ) (tar zst mergeTmp : Option Content) : State n :=
  ⟨tar, zst, mergeTmp, 0, [], fun _ => .idle⟩

def State.setPc (s : State n) (p : Fin n) (c : PC) : State n :=
  { s with pc := Function.update s.pc p c }

/-- What a process does next.  `next readable` performs the next step of its code;
`readable` is the outcome of a sealed-archive scan made in that step. -/
inductive Act where
  | append (members : Content) (ok : Bool)
  | atomicSeal
  | reconcile
  | next (readable : Bool)
  | fail
  deriving DecidableEq, Repr

/-! ## The steps -/

/-- One batch of `_append_to_tar`, under the lock.  With no tar but a sealed archive the
batch raises and nothing changes; `ok = false` is a `tar -r` that failed after it had
written `members`. -/
def State.appendToTar (s : State n) (members : Content) (ok : Bool) : State n :=
  if members = [] then s
  else if s.tar = none ∧ s.zst ≠ none then s
  else { s with
    tar := some (s.tar.getD [] ++ members)
    appends := s.appends + 1
    completed := if ok then s.completed ++ members else s.completed }

/-- `_copy_union_member_into_tar`: the member is taken from the tar, else from the zst,
when the extracted file has the expected size. -/
def State.copyable (s : State n) (m : Member) : Bool :=
  s.tar.any (fun c => extractedSize c m.1 == some m.2)
    || s.zst.any (fun c => extractedSize c m.1 == some m.2)

/-- `(zst_readable, zst_members)` as the reconcile sees them: a scan of the sealed archive
when it existed at the start, nothing otherwise. -/
def State.scanZst (s : State n) (zstExists readable : Bool) : Bool × MemberMap :=
  match s.zst, zstExists && readable with
  | some z, true => (true, memberMap z)
  | _, _ => (false, [])

/-- The classification made by `reconcile_open_tar_with_sealed_zst`. -/
def State.reconcileAction (s : State n) (zstExists : Bool) (tarMembers : MemberMap)
    (readable : Bool) : ReconcileAction :=
  classifyReconcile tarMembers (s.scanZst zstExists readable).2 zstExists
    (s.scanZst zstExists readable).1 true

/-- Entry of `rebuild_daily_tar_member_union_in_place`: the old merge file is removed. -/
def State.startRebuild (s : State n) (p : Fin n) (union : MemberMap) (stamp : ℕ) : State n :=
  if union = [] then s.setPc p .idle
  else { s with mergeTmp := none }.setPc p (.merging (sortedByName union) stamp)

/-- What the classification leads to. -/
def State.classify (s : State n) (p : Fin n) (zstExists : Bool) (tarMembers : MemberMap)
    (stamp : ℕ) (readable : Bool) : State n :=
  match s.reconcileAction zstExists tarMembers readable with
  | .noop => s.setPc p (.noopDrop stamp)
  | .repairTarOnly => s.setPc p .idle
  | .skip => s.setPc p .idle
  | .sealFromTar => s.setPc p .sealCheck
  | .mergeAndSeal =>
      s.startRebuild p (membersUnion tarMembers (s.scanZst zstExists readable).2) stamp

/-- The members the shrink guard compares with: the map of the skip check, else a new scan. -/
def State.existingMembers (s : State n) (zstMembers : Option MemberMap) (readable : Bool) :
    Option MemberMap :=
  match s.zst with
  | none => none
  | some z =>
      match zstMembers with
      | some d => some d
      | none => if readable then some (memberMap z) else none

/-- The shrink guard of `atomic_seal_tar_to_zst`. -/
def sealRefused (existing : Option MemberMap) (tarMembers : MemberMap) : Bool :=
  match existing with
  | none => false
  | some d => tarMembers.length < d.length || sumMemberBytes tarMembers < sumMemberBytes d

/-- The next step of the code of a process. -/
def State.nextStep (s : State n) (p : Fin n) (readable : Bool) : PC → Option (State n)
  | .idle => none
  | .reconcileTar zstExists =>
      -- `get_mutable_tar_authority_member_map`: a missing tar has the empty map
      some (s.setPc p (.reconcileZst zstExists (memberMap (s.tar.getD [])) s.appends))
  | .reconcileZst zstExists tarMembers stamp =>
      some (s.classify p zstExists tarMembers stamp readable)
  | .noopDrop _ => some ({ s with tar := none }.setPc p .idle)
  | .merging [] stamp =>
      if s.mergeTmp = none then some (s.setPc p .idle)
      else some (s.setPc p (.mergeReady stamp))
  | .merging (m :: todo) stamp =>
      if s.copyable m then
        some ({ s with mergeTmp := some (s.mergeTmp.getD [] ++ [m]) }.setPc p
          (.merging todo stamp))
      else some ({ s with mergeTmp := none }.setPc p .idle)
  | .mergeReady _ =>
      match s.mergeTmp with
      | none => some (s.setPc p .idle)
      | some c => some ({ s with tar := some c, mergeTmp := none }.setPc p .sealCheck)
  | .sealCheck =>
      match s.zst with
      | none => some (s.setPc p (.sealLocked none))
      | some z =>
          if s.tar = none then some (s.setPc p .idle)
          else some (s.setPc p (.sealLocked (if readable then some (memberMap z) else none)))
  | .sealLocked zstMembers =>
      match s.tar with
      | none => some (s.setPc p .idle)
      | some c =>
          if sealRefused (s.existingMembers zstMembers readable) (memberMap c) then
            some (s.setPc p .idle)
          else some ({ s with zst := some c }.setPc p (.sealDrop s.appends))
  | .sealDrop _ => some ({ s with tar := none }.setPc p .idle)

/-- One step of the system. -/
def step (s : State n) : Fin n × Act → Option (State n)
  | (p, .append members ok) =>
      if s.pc p = .idle then some (s.appendToTar members ok) else none
  | (p, .atomicSeal) =>
      if s.pc p = .idle then
        if s.tar = none then some s else some (s.setPc p .sealCheck)
      else none
  | (p, .reconcile) =>
      if s.pc p = .idle then
        if s.tar = none then some s else some (s.setPc p (.reconcileTar s.zst.isSome))
      else none
  | (p, .next readable) => s.nextStep p readable (s.pc p)
  | (p, .fail) =>
      if (s.pc p).rebuilding then some ({ s with mergeTmp := none }.setPc p .idle)
      else some (s.setPc p .idle)

/-! ## The property and the condition -/

/-- Every member of a completed append is in the open tar or in the sealed archive, with
at least the appended size. -/
def Retained (s : State n) : Prop :=
  ∀ m ∈ s.completed,
    (∃ c, s.tar = some c ∧ Covers c m) ∨ (∃ z, s.zst = some z ∧ Covers z m)

/-- The stamp of a step that replaces or removes the tar. -/
def State.mutating (s : State n) : Fin n × Act → Option ℕ
  | (p, .next _) => (s.pc p).mutates
  | _ => none

/-- The step enters `rebuild_daily_tar_member_union_in_place`. -/
def State.startsRebuild (s : State n) : Fin n × Act → Bool
  | (p, .next readable) =>
      match s.pc p with
      | .reconcileZst zstExists tarMembers _ =>
          s.reconcileAction zstExists tarMembers readable == .mergeAndSeal
      | _ => false
  | _ => false

/-- The condition on a step: (1) a process replaces or removes the tar only when no batch
was appended since it read the tar (its member map for a merge or an equivalence drop, its
bytes for a seal); (2) a rebuild, which deletes the shared merge file when it starts, does
not start while another rebuild is under way. -/
def Undisturbed (s : State n) (a : Fin n × Act) : Prop :=
  (∀ g ∈ s.mutating a, g = s.appends)
    ∧ (s.startsRebuild a = true → ∀ q, (s.pc q).rebuilding = false)

instance (s : State n) (a : Fin n × Act) : Decidable (Undisturbed s a) :=
  inferInstanceAs (Decidable (_ ∧ (_ → _)))

/-! ## The invariant

Per program point: what a process may still rely on as long as no batch was appended since
its stamp. -/

/-- The sealed archive covers `m`. -/
def State.Sealed (s : State n) (m : Member) : Prop := ∃ z, s.zst = some z ∧ Covers z m

/-- What the program point `c` promises for a completed member `m`. -/
def PC.Promise (s : State n) (m : Member) : PC → Prop
  | .reconcileZst _ tarMembers g => g = s.appends → Covers tarMembers m ∨ s.Sealed m
  | .noopDrop g => g = s.appends → s.Sealed m
  | .sealDrop g => g = s.appends → s.Sealed m
  | .merging todo g => g = s.appends → Covers (s.mergeTmp.getD [] ++ todo) m
  | .mergeReady g => g = s.appends → Covers (s.mergeTmp.getD []) m
  | _ => True

/-- The stamp of a program point. -/
def PC.stamp : PC → ℕ
  | .reconcileZst _ _ g => g
  | .noopDrop g => g
  | .merging _ g => g
  | .mergeReady g => g
  | .sealDrop g => g
  | _ => 0

/-- The invariant of conforming runs. -/
structure Inv (s : State n) : Prop where
  /-- an existing tar covers every completed member -/
  tar_covers : ∀ m ∈ s.completed, ∀ c, s.tar = some c → Covers c m
  /-- without a tar the sealed archive does -/
  zst_covers : ∀ m ∈ s.completed, s.tar = none → s.Sealed m
  promise : ∀ q, ∀ m ∈ s.completed, (s.pc q).Promise s m
  stamp_le : ∀ q, (s.pc q).stamp ≤ s.appends
  /-- at most one rebuild is under way -/
  one_rebuild : ∀ q r, (s.pc q).rebuilding = true → (s.pc r).rebuilding = true → q = r

/-! ### Frame lemmas -/

@[simp] theorem setPc_pc_self (s : State n) (p : Fin n) (c : PC) : (s.setPc p c).pc p = c := by
  simp [State.setPc]

theorem setPc_pc_of_ne (s : State n) {p q : Fin n} (h : q ≠ p) (c : PC) :
    (s.setPc p c).pc q = s.pc q := by
  simp [State.setPc, Function.update_of_ne h]

/-- A promise survives a change of the files that keeps the sealed members, and the merge
file for a process that is rebuilding. -/
theorem PC.Promise.mono {s s₁ : State n} {m : Member} {c : PC} (h : c.Promise s m)
    (happ : s₁.appends = s.appends) (hsealed : s.Sealed m → s₁.Sealed m)
    (htmp : c.rebuilding = true → s₁.mergeTmp = s.mergeTmp) : c.Promise s₁ m := by
  cases c with
  | reconcileZst ze tm g =>
      intro hg
      rcases h (hg.trans happ) with h | h
      · exact Or.inl h
      · exact Or.inr (hsealed h)
  | noopDrop g => exact fun hg => hsealed (h (hg.trans happ))
  | sealDrop g => exact fun hg => hsealed (h (hg.trans happ))
  | merging todo g =>
      intro hg
      rw [htmp rfl]
      exact h (hg.trans happ)
  | mergeReady g =>
      intro hg
      rw [htmp rfl]
      exact h (hg.trans happ)
  | _ => trivial

/-- **The step rule.**  One process moves to `c` while the files change from those of `s`
to those of `u`. -/
theorem Inv.move {s u : State n} (h : Inv s) (p : Fin n) (c : PC)
    (hpc : u.pc = s.pc) (hcomp : u.completed = s.completed) (happ : u.appends = s.appends)
    (htar : ∀ m ∈ s.completed, ∀ t, u.tar = some t → Covers t m)
    (hzst : ∀ m ∈ s.completed, u.tar = none → u.Sealed m)
    (hsealed : ∀ m ∈ s.completed, s.Sealed m → u.Sealed m)
    (htmp : u.mergeTmp = s.mergeTmp ∨ ∀ q, q ≠ p → (s.pc q).rebuilding = false)
    (hprom : ∀ m ∈ s.completed, c.Promise u m) (hstamp : c.stamp ≤ s.appends)
    (hreb : c.rebuilding = true →
      (s.pc p).rebuilding = true ∨ ∀ q, (s.pc q).rebuilding = false) :
    Inv (u.setPc p c) where
  tar_covers := fun m hm => htar m (hcomp ▸ hm)
  zst_covers := fun m hm => hzst m (hcomp ▸ hm)
  promise := by
    intro q m hm
    have hm' : m ∈ s.completed := hcomp ▸ hm
    by_cases hq : q = p
    · subst hq
      rw [setPc_pc_self]
      exact hprom m hm'
    · rw [setPc_pc_of_ne _ hq, hpc]
      refine (h.promise q m hm').mono happ (hsealed m hm') fun hr => ?_
      rcases htmp with htmp | htmp
      · exact htmp
      · rw [htmp q hq] at hr
        cases hr
  stamp_le := by
    intro q
    show ((u.setPc p c).pc q).stamp ≤ u.appends
    rw [happ]
    by_cases hq : q = p
    · subst hq
      rw [setPc_pc_self]
      exact hstamp
    · rw [setPc_pc_of_ne _ hq, hpc]
      exact h.stamp_le q
  one_rebuild := by
    intro q r hq hr
    -- a process other than `p` that rebuilds did so before
    have hothers : ∀ x, x ≠ p → ((u.setPc p c).pc x).rebuilding = true →
        (s.pc x).rebuilding = true := by
      intro x hx hxr
      rwa [setPc_pc_of_ne _ hx, hpc] at hxr
    by_cases hqp : q = p
    · by_cases hrp : r = p
      · rw [hqp, hrp]
      · subst hqp
        rw [setPc_pc_self] at hq
        have hr' := hothers r hrp hr
        rcases hreb hq with hp | hall
        · exact h.one_rebuild q r hp hr'
        · rw [hall r] at hr'
          cases hr'
    · have hq' := hothers q hqp hq
      by_cases hrp : r = p
      · subst hrp
        rw [setPc_pc_self] at hr
        rcases hreb hr with hp | hall
        · exact h.one_rebuild q r hq' hp
        · rw [hall q] at hq'
          cases hq'
      · exact h.one_rebuild q r hq' (hothers r hrp hr)

/-- A step that changes no file. -/
theorem Inv.moveOnly {s : State n} (h : Inv s) (p : Fin n) (c : PC)
    (hprom : ∀ m ∈ s.completed, c.Promise s m) (hstamp : c.stamp ≤ s.appends)
    (hreb : c.rebuilding = true → (s.pc p).rebuilding = true) : Inv (s.setPc p c) :=
  h.move p c rfl rfl rfl h.tar_covers h.zst_covers (fun _ _ hm => hm) (Or.inl rfl) hprom hstamp
    fun hc => Or.inl (hreb hc)

/-- A process that returns. -/
theorem Inv.toIdle {s : State n} (h : Inv s) (p : Fin n) : Inv (s.setPc p .idle) :=
  h.moveOnly p .idle (fun _ _ => trivial) (Nat.zero_le _) fun hc => by cases hc

/-- The merge file is dropped or extended by the one process that rebuilds. -/
theorem Inv.setMergeTmp {s : State n} (h : Inv s) (p : Fin n) (tmp : Option Content) (c : PC)
    (hp : (s.pc p).rebuilding = true)
    (hprom : ∀ m ∈ s.completed, c.Promise { s with mergeTmp := tmp } m)
    (hstamp : c.stamp ≤ s.appends) : Inv ({ s with mergeTmp := tmp }.setPc p c) := by
  refine h.move (u := { s with mergeTmp := tmp }) p c rfl rfl rfl h.tar_covers h.zst_covers
    (fun _ _ hm => hm) (Or.inr fun q hq => ?_) hprom hstamp fun _ => Or.inl hp
  by_contra hr
  exact hq (h.one_rebuild q p (by simpa using hr) hp)

/-- The tar is removed while the sealed archive covers every completed member. -/
theorem Inv.dropTar {s : State n} (h : Inv s) (p : Fin n)
    (hz : ∀ m ∈ s.completed, s.Sealed m) : Inv ({ s with tar := none }.setPc p .idle) := by
  refine h.move (u := { s with tar := none }) p .idle rfl rfl rfl ?_ (fun m hm _ => hz m hm)
    (fun _ _ hm => hm) (Or.inl rfl) (fun _ _ => trivial) (Nat.zero_le _) fun hc => by cases hc
  intro m _ t ht
  cases ht

/-! ### One lemma per step -/

theorem inv_append {s : State n} (h : Inv s) (members : Content) (ok : Bool) :
    Inv (s.appendToTar members ok) := by
  unfold State.appendToTar
  by_cases hnil : members = []
  · rw [if_pos hnil]
    exact h
  by_cases hguard : s.tar = none ∧ s.zst ≠ none
  · rw [if_neg hnil, if_pos hguard]
    exact h
  rw [if_neg hnil, if_neg hguard]
  -- without a tar there is no sealed archive either, so nothing was completed before
  have hold : ∀ m ∈ s.completed, Covers (s.tar.getD []) m := by
    intro m hm
    cases htar : s.tar with
    | some c => exact h.tar_covers m hm c htar
    | none =>
        obtain ⟨z, hz, -⟩ := h.zst_covers m hm htar
        exact absurd ⟨htar, by rw [hz]; exact Option.some_ne_none z⟩ hguard
  refine ⟨?_, ?_, ?_, ?_, h.one_rebuild⟩
  · intro m hm c hc
    simp only [Option.some.injEq] at hc
    subst hc
    rw [covers_append]
    cases ok with
    | true =>
        rcases List.mem_append.mp hm with hm | hm
        · exact Or.inl (hold m hm)
        · exact Or.inr (covers_of_mem hm)
    | false => exact Or.inl (hold m hm)
  · intro m _ hnone
    cases hnone
  · -- every stamp is now in the past
    intro q m _
    have hle := h.stamp_le q
    cases hq : s.pc q <;> rw [hq] at hle <;> simp only [PC.stamp] at hle <;>
      simp only [PC.Promise] <;> intro hg <;> omega
  · intro q
    exact le_trans (h.stamp_le q) (Nat.le_succ _)

/-- A readable scan covers what the sealed archive covers. -/
theorem scanZst_covers {s : State n} {readable : Bool} {m : Member}
    (hr : (s.scanZst true readable).1 = true) :
    s.Sealed m ↔ Covers (s.scanZst true readable).2 m := by
  unfold State.scanZst at hr ⊢
  cases hz : s.zst with
  | none => simp [hz] at hr
  | some z =>
      cases readable with
      | false => simp [hz] at hr
      | true =>
          simp only [State.Sealed, hz, Option.some.injEq, exists_eq_left', Bool.and_self]
          exact (covers_memberMap z m).symm

/-- What an action tells about the maps it was computed from. -/
theorem reconcileAction_noop {s : State n} {ze readable : Bool} {tm : MemberMap}
    (h : s.reconcileAction ze tm readable = .noop) :
    ze = true ∧ (s.scanZst true readable).1 = true
      ∧ mapsEquivalent tm (s.scanZst true readable).2 = true := by
  unfold State.reconcileAction classifyReconcile at h
  simp only [Bool.true_eq_false, if_false] at h
  split_ifs at h with hze hskip heq
  simp only [Bool.not_eq_false] at hze
  subst hze
  push Not at hskip
  exact ⟨rfl, by simpa using hskip.1, heq⟩

theorem reconcileAction_merge {s : State n} {ze readable : Bool} {tm : MemberMap}
    (h : s.reconcileAction ze tm readable = .mergeAndSeal) :
    ze = true ∧ (s.scanZst true readable).1 = true := by
  unfold State.reconcileAction classifyReconcile at h
  simp only [Bool.true_eq_false, if_false] at h
  split_ifs at h with hze hskip
  simp only [Bool.not_eq_false] at hze
  subst hze
  push Not at hskip
  exact ⟨rfl, by simpa using hskip.1⟩

theorem inv_classify {s : State n} (h : Inv s) (p : Fin n) (ze : Bool) (tm : MemberMap) (g : ℕ)
    (readable : Bool) (hpc : s.pc p = .reconcileZst ze tm g)
    (hfree : s.reconcileAction ze tm readable = .mergeAndSeal →
      ∀ q, (s.pc q).rebuilding = false) :
    Inv (s.classify p ze tm g readable) := by
  have hprom : ∀ m ∈ s.completed, g = s.appends → Covers tm m ∨ s.Sealed m := by
    intro m hm
    have := h.promise p m hm
    rwa [hpc] at this
  have hstamp : g ≤ s.appends := by
    have := h.stamp_le p
    rwa [hpc] at this
  unfold State.classify
  cases hact : s.reconcileAction ze tm readable with
  | noop =>
      obtain ⟨rfl, hr, heq⟩ := reconcileAction_noop hact
      refine h.moveOnly p _ (fun m hm hg => ?_) hstamp fun hc => by cases hc
      rcases hprom m hm hg with hc | hc
      · rw [mapsEquivalent, Bool.and_eq_true] at heq
        exact (scanZst_covers hr).mpr (hc.of_containedIn heq.1)
      · exact hc
  | repairTarOnly => exact h.toIdle p
  | skip => exact h.toIdle p
  | sealFromTar =>
      exact h.moveOnly p _ (fun _ _ => trivial) (Nat.zero_le _) fun hc => by cases hc
  | mergeAndSeal =>
      obtain ⟨rfl, hr⟩ := reconcileAction_merge hact
      simp only [State.startRebuild]
      split_ifs
      · exact h.toIdle p
      · refine h.move (u := { s with mergeTmp := none }) p _ rfl rfl rfl h.tar_covers
          h.zst_covers (fun _ _ hm => hm) (Or.inr fun q _ => hfree hact q) ?_ hstamp
          fun _ => Or.inr (hfree hact)
        intro m hm hg
        show Covers ([] ++ sortedByName _) m
        rw [List.nil_append, covers_sortedByName, covers_membersUnion]
        rcases hprom m hm hg with hc | hc
        · exact Or.inr hc
        · exact Or.inl ((scanZst_covers hr).mp hc)

/-- The next step of one process keeps the invariant. -/
theorem inv_nextStep {s s' : State n} (h : Inv s) (p : Fin n) (readable : Bool)
    (hok : Undisturbed s (p, .next readable)) (hs : s.nextStep p readable (s.pc p) = some s') :
    Inv s' := by
  have hmut : ∀ g, (s.pc p).mutates = some g → g = s.appends := fun g hg => hok.1 g hg
  cases hpc : s.pc p with
  | idle => simp [hpc, State.nextStep] at hs
  | reconcileTar ze =>
      simp only [hpc, State.nextStep, Option.some.injEq] at hs
      subst hs
      refine h.moveOnly p _ (fun m hm _ => ?_) le_rfl fun hc => by cases hc
      cases htar : s.tar with
      | some c => exact Or.inl ((covers_memberMap c m).mpr (h.tar_covers m hm c htar))
      | none => exact Or.inr (h.zst_covers m hm htar)
  | reconcileZst ze tm g =>
      simp only [hpc, State.nextStep, Option.some.injEq] at hs
      subst hs
      refine inv_classify h p ze tm g readable hpc fun hact => hok.2 ?_
      simp [State.startsRebuild, hpc, hact]
  | noopDrop g =>
      simp only [hpc, State.nextStep, Option.some.injEq] at hs
      subst hs
      refine h.dropTar p fun m hm => ?_
      have hp := h.promise p m hm
      rw [hpc] at hp
      exact hp (hmut g (by rw [hpc]; rfl))
  | merging todo g =>
      have hp : ∀ m ∈ s.completed, g = s.appends → Covers (s.mergeTmp.getD [] ++ todo) m := by
        intro m hm
        have := h.promise p m hm
        rwa [hpc] at this
      have hreb : (s.pc p).rebuilding = true := by rw [hpc]; rfl
      have hstamp : g ≤ s.appends := by
        have := h.stamp_le p
        rwa [hpc] at this
      cases todo with
      | nil =>
          simp only [hpc, State.nextStep] at hs
          split_ifs at hs <;> injection hs with hs <;> subst hs
          · exact h.toIdle p
          · refine h.moveOnly p _ (fun m hm hg => ?_) hstamp fun _ => hreb
            have := hp m hm hg
            rwa [List.append_nil] at this
      | cons e todo =>
          simp only [hpc, State.nextStep] at hs
          split_ifs at hs <;> injection hs with hs <;> subst hs
          · refine h.setMergeTmp p _ _ hreb (fun m hm hg => ?_) hstamp
            show Covers ((s.mergeTmp.getD [] ++ [e]) ++ todo) m
            rw [List.append_assoc]
            exact hp m hm hg
          · exact h.setMergeTmp p none .idle hreb (fun _ _ => trivial) (Nat.zero_le _)
  | mergeReady g =>
      have hg : g = s.appends := hmut g (by rw [hpc]; rfl)
      cases htmp : s.mergeTmp with
      | none =>
          simp only [hpc, State.nextStep, htmp, Option.some.injEq] at hs
          subst hs
          exact h.toIdle p
      | some c =>
          simp only [hpc, State.nextStep, htmp, Option.some.injEq] at hs
          subst hs
          have hreb : (s.pc p).rebuilding = true := by rw [hpc]; rfl
          refine h.move (u := { s with tar := some c, mergeTmp := none }) p _ rfl rfl rfl
            ?_ ?_ (fun _ _ hm => hm) (Or.inr fun q hq => ?_) (fun _ _ => trivial)
            (Nat.zero_le _) fun hc => by cases hc
          · intro m hm t ht
            have hp := h.promise p m hm
            rw [hpc] at hp
            have hc : Covers c m := by simpa [htmp] using hp hg
            cases ht
            exact hc
          · intro m _ hnone
            cases hnone
          · by_contra hr
            exact hq (h.one_rebuild q p (by simpa using hr) hreb)
  | sealCheck =>
      have hmove : ∀ d, Inv (s.setPc p (.sealLocked d)) := fun d =>
        h.moveOnly p _ (fun _ _ => trivial) (Nat.zero_le _) fun hc => by cases hc
      cases hz : s.zst with
      | none =>
          simp only [hpc, State.nextStep, hz, Option.some.injEq] at hs
          subst hs
          exact hmove none
      | some z =>
          simp only [hpc, State.nextStep, hz] at hs
          split at hs <;> injection hs with hs <;> subst hs
          · exact h.toIdle p
          · exact hmove _
  | sealLocked d =>
      cases htar : s.tar with
      | none =>
          simp only [hpc, State.nextStep, htar, Option.some.injEq] at hs
          subst hs
          exact h.toIdle p
      | some c =>
          simp only [hpc, State.nextStep, htar] at hs
          split_ifs at hs <;> injection hs with hs <;> subst hs
          · exact h.toIdle p
          · -- the new sealed archive is the tar, which covers everything
            have hcov : ∀ m ∈ s.completed,
                ({ s with tar := some c, zst := some c } : State n).Sealed m :=
              fun m hm => ⟨c, rfl, h.tar_covers m hm c htar⟩
            exact h.move (u := { s with tar := some c, zst := some c }) p
              (.sealDrop s.appends) rfl rfl rfl
              (fun m hm t ht => h.tar_covers m hm t (htar.trans ht)) (fun m hm _ => hcov m hm) (fun m hm _ => hcov m hm) (Or.inl rfl)
              (fun m hm _ => hcov m hm) le_rfl fun hc => by cases hc
  | sealDrop g =>
      simp only [hpc, State.nextStep, Option.some.injEq] at hs
      subst hs
      refine h.dropTar p fun m hm => ?_
      have hp := h.promise p m hm
      rw [hpc] at hp
      exact hp (hmut g (by rw [hpc]; rfl))

theorem inv_step {s s' : State n} {a : Fin n × Act} (h : Inv s) (hok : Undisturbed s a)
    (hs : step s a = some s') : Inv s' := by
  obtain ⟨p, act⟩ := a
  cases act with
  | append members ok =>
      simp only [step] at hs
      split_ifs at hs
      injection hs with hs
      subst hs
      exact inv_append h members ok
  | atomicSeal =>
      simp only [step] at hs
      split_ifs at hs <;> injection hs with hs <;> subst hs
      · exact h
      · exact h.moveOnly p _ (fun _ _ => trivial) (Nat.zero_le _) fun hc => by cases hc
  | reconcile =>
      simp only [step] at hs
      split_ifs at hs <;> injection hs with hs <;> subst hs
      · exact h
      · exact h.moveOnly p _ (fun _ _ => trivial) (Nat.zero_le _) fun hc => by cases hc
  | next readable => exact inv_nextStep h p readable hok hs
  | fail =>
      simp only [step] at hs
      split_ifs at hs with hreb <;> injection hs with hs <;> subst hs
      · exact h.setMergeTmp p none .idle hreb (fun _ _ => trivial) (Nat.zero_le _)
      · exact h.toIdle p

theorem inv_init (n : ℕ) (tar zst mergeTmp : Option Content) :
    Inv (State.init n tar zst mergeTmp) where
  tar_covers := fun m hm => by cases hm
  zst_covers := fun m hm => by cases hm
  promise := fun _ m hm => by cases hm
  stamp_le := fun _ => le_rfl
  one_rebuild := fun q r hq => by cases hq

/-- The invariant gives the property: the tar covers, or else the sealed archive. -/
theorem Inv.retained {s : State n} (h : Inv s) : Retained s := by
  intro m hm
  cases htar : s.tar with
  | some c => exact Or.inl ⟨c, rfl, h.tar_covers m hm c htar⟩
  | none => exact Or.inr (h.zst_covers m hm htar)

/-! ## Retention along runs -/

/-- The tar and the sealed archive diverge, a member is appended, and a reconcile merges,
seals and drops the tar. -/
def mergeSealDrop : List (Fin 2 × Act) :=
  [(0, Act.append [("b", 2)] true), (1, Act.reconcile)] ++ List.replicate 10 (1, Act.next true)

/-- A seal has replaced the sealed archive and released the lock; a batch is appended; the
seal takes the lock again and removes the tar. -/
def appendAfterSeal : List (Fin 2 × Act) :=
  [(0, .append [("a", 1)] true), (1, .atomicSeal), (1, .next true), (1, .next true),
    (0, .append [("b", 2)] true), (1, .next true)]

end DailyArchive
