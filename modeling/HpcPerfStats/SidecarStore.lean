/-
# Sidecars of the members store under threads

Every operation of the members store fetches the shard of the day (`_shard`, under the lock of the shard
table), works on it under the lock of the shard, and then, if it persists, calls `persist_day`: fetch the
shard again, take a snapshot under its lock, and write the sidecar after the lock is released.
`invalidate_all` takes all shards off the table, clears them one by one, lists the sidecars and removes
them one by one.  Threads run these steps in any order.

* A shard object is known by its day and its generation, the number of times that the table had been
  cleared when it was made.  A shard that is not made yet is empty, so making it only enters the day
  into the table.
* `version`, `closed`, `saved` and the versions in the program counters count changes; no step of the
  store reads them.
* `sound` is the condition on a step: no sidecar is written or removed over a newer state, and no call
  marks an identity complete that has no map.

The steps are those of `SnapshotSave.Ledger`, with one ledger for each day (`dayLedger`).  The lemmas `Inv.*` say which
step of the ledger a step of the store is, and `reload_eq_of_run` is the result: once all calls
have returned, a fresh store answers as the live one.
-/
import HpcPerfStats.MembersStore
import HpcPerfStats.SnapshotSave
import HpcPerfStats.Transition

set_option linter.unusedSectionVars false

namespace SidecarStore

open ArchiveMembers MembersStore Transition SnapshotSave

/-! ## The calls -/

/-- The methods of the store on one day. -/
inductive Op (I : Type*) where
  | tryBeginPopulate (ident : I)
  | finishPopulate (ident : I) (members : Option MemberMap) (complete : Bool)
  | storeComplete (ident : I) (members : MemberMap) (sawDuplicates : Bool)
  | mergeMembers (ident : I) (incoming : MemberMap) (sawDuplicates : Bool)
  | clearIncomplete (ident : I)
  | invalidate (ident : I)
  | setDaySkip (skip : Skip)
  | clearDaySkip
  | setDegraded
  | clearDegraded
  | clearDedupeHint
  deriving DecidableEq, Repr

section Calls

variable {I T : Type*} [DecidableEq I]

/-- What the method does under the lock of the shard. -/
def Op.apply (me : T) (shard : Shard I T) : Op I → Shard I T
  | .tryBeginPopulate ident => (shard.tryBeginPopulate ident me).getD shard
  | .finishPopulate ident members complete => shard.finishPopulate ident members complete
  | .storeComplete ident members sawDuplicates => shard.storeComplete ident members sawDuplicates
  | .mergeMembers ident incoming sawDuplicates =>
      if incoming = [] then shard else shard.mergeMembers ident incoming sawDuplicates
  | .clearIncomplete ident => shard.clearIncomplete ident
  | .invalidate ident => shard.invalidate ident
  | .setDaySkip skip => shard.setDaySkip skip
  | .clearDaySkip => shard.clearDaySkip
  | .setDegraded => shard.setDegraded
  | .clearDegraded => shard.clearDegraded
  | .clearDedupeHint => shard.clearDedupeHint

/-- The method ends with `persist_day`. -/
def Op.persists : Op I → Bool
  | .tryBeginPopulate _ => false
  | .finishPopulate _ _ complete => complete
  | .mergeMembers _ incoming _ => !incoming.isEmpty
  | .clearIncomplete _ => false
  | _ => true

/-- The call keeps the marks and the maps together: it marks an identity complete only with a map, it
replaces a complete map only when it persists, and a skip has a kind. -/
def Op.sound (shard : Shard I T) : Op I → Bool
  | .finishPopulate ident none true => (shard.members ident).isSome
  | .finishPopulate ident (some _) false => !shard.complete ident
  | .setDaySkip skip => skip.kind != ""
  | _ => true

end Calls

/-! ## The store and its threads -/

/-- Where a thread stands. -/
inductive Pc (D I : Type*) where
  | idle
  /-- The shard of a method is fetched. -/
  | fetched (day : D) (gen : ℕ) (op : Op I)
  /-- The method has released the lock and is about to persist. -/
  | changed (day : D)
  /-- `persist_day` has fetched its shard. -/
  | persisting (day : D) (gen : ℕ)
  /-- `persist_day` has its payload. -/
  | saving (day : D) (doc : Doc I) (version : ℕ)
  /-- `invalidate_all` has taken these shards of one generation off the table. -/
  | clearing (days : List D) (gen : ℕ) (versions : D → ℕ)
  /-- `invalidate_all` has these sidecars left to remove. -/
  | unlinking (days : List D) (versions : D → ℕ)

/-- The thread is in no call. -/
def Pc.returned {D I : Type*} : Pc D I → Bool
  | .idle => true
  | _ => false

/-- The shards, the shard table, the sidecars and the threads. -/
structure Store (D I T : Type*) where
  gen : ℕ
  shards : D → ℕ → Shard I T
  table : List D
  disk : List (D × Doc I)
  pc : T → Pc D I
  version : D → ℕ
  closed : ℕ → D → ℕ
  saved : D → ℕ

variable {D I T : Type*} [DecidableEq D] [DecidableEq I] [DecidableEq T]

namespace Store

/-- The shard that the table gives for a day. -/
def shard (s : Store D I T) (d : D) : Shard I T := s.shards d s.gen

/-- What a fresh store reads for a day. -/
def reload (s : Store D I T) (d : D) : Shard I T := Shard.load ((s.disk.lookup d).getD Doc.empty)

/-- A store that has just read its sidecars. -/
def opened (disk : List (D × Doc I)) : Store D I T where
  gen := 0
  shards := fun d g => if g = 0 then Shard.load ((disk.lookup d).getD Doc.empty) else Shard.empty
  table := disk.map Prod.fst
  disk := disk
  pc := fun _ => .idle
  version := fun _ => 0
  closed := fun _ _ => 0
  saved := fun _ => 0

/-- A thread goes on. -/
def goto (s : Store D I T) (t : T) (pc : Pc D I) : Store D I T :=
  { s with pc := Function.update s.pc t pc }

/-- `_shard`: the day has a shard in the table. -/
def enter (s : Store D I T) (d : D) : Store D I T :=
  { s with table := if d ∈ s.table then s.table else s.table ++ [d] }

/-- Another value for one shard object. -/
def setShard (s : Store D I T) (d : D) (g : ℕ) (shard : Shard I T) : Store D I T :=
  { s with shards := Function.update s.shards d (Function.update (s.shards d) g shard) }

/-- The change that the state of a shard object goes back to. -/
def versionOf (s : Store D I T) (d : D) (g : ℕ) : ℕ :=
  if g = s.gen then s.version d else s.closed g d

end Store

/-- The steps of the threads. -/
inductive Action (D I T : Type*) where
  | fetch (t : T) (day : D) (op : Op I)
  | locked (t : T)
  | persistFetch (t : T)
  | persistSnapshot (t : T)
  | save (t : T)
  | clearTable (t : T)
  | clearShard (t : T)
  | list (t : T)
  | unlink (t : T) (day : D)
  deriving DecidableEq, Repr

/-- `invalidate_all` returns when no sidecar is left to remove. -/
def unlinkRest (days : List D) (versions : D → ℕ) : Pc D I :=
  if days = [] then .idle else .unlinking days versions

/-- One step. -/
def step (s : Store D I T) : Action D I T → Option (Store D I T)
  | .fetch t day op =>
      match s.pc t with
      | .idle => some ((s.enter day).goto t (.fetched day s.gen op))
      | _ => none
  | .locked t =>
      match s.pc t with
      | .fetched day g op =>
          let s₁ := s.setShard day g (op.apply t (s.shards day g))
          if op.persists then
            some ({ s₁ with version := Function.update s.version day (s.version day + 1) }.goto t
              (.changed day))
          else some (s₁.goto t .idle)
      | _ => none
  | .persistFetch t =>
      match s.pc t with
      | .changed day => some ((s.enter day).goto t (.persisting day s.gen))
      | _ => none
  | .persistSnapshot t =>
      match s.pc t with
      | .persisting day g => some (s.goto t (.saving day (s.shards day g).snapshot (s.versionOf day g)))
      | _ => none
  | .save t =>
      match s.pc t with
      | .saving day doc version =>
          some ({ s with
            disk := PyDict.set s.disk day doc
            saved := Function.update s.saved day version }.goto t .idle)
      | _ => none
  | .clearTable t =>
      match s.pc t with
      | .idle =>
          let version := fun d => s.version d + 1
          some ({ s with
            gen := s.gen + 1
            table := []
            version := version
            closed := Function.update s.closed s.gen s.version }.goto t
              (.clearing s.table s.gen version))
      | _ => none
  | .clearShard t =>
      match s.pc t with
      | .clearing (day :: days) g versions =>
          some ((s.setShard day g Shard.empty).goto t (.clearing days g versions))
      | _ => none
  | .list t =>
      match s.pc t with
      | .clearing [] _ versions =>
          -- a sidecar that is not there counts as removed
          some ({ s with
            saved := fun d => if d ∈ s.disk.map Prod.fst then s.saved d
              else max (s.saved d) (versions d) }.goto t (unlinkRest (s.disk.map Prod.fst) versions))
      | _ => none
  | .unlink t day =>
      match s.pc t with
      | .unlinking days versions =>
          if day ∈ days then
            some ({ s with
              disk := s.disk.filter fun e => e.1 ≠ day
              saved := Function.update s.saved day (versions day) }.goto t
                (unlinkRest (days.filter fun d => d ≠ day) versions))
          else none
      | _ => none

/-- **The condition on a step.**  A call on a shard of the table keeps marks and maps together, and a
sidecar is neither written nor removed over a state that is newer. -/
def sound (s : Store D I T) : Action D I T → Bool
  | .locked t =>
      match s.pc t with
      | .fetched day g op => g != s.gen || op.sound (s.shards day g)
      | _ => true
  | .save t =>
      match s.pc t with
      | .saving day _ version => decide (s.saved day ≤ version)
      | _ => true
  | .unlink t day =>
      match s.pc t with
      | .unlinking _ versions => decide (s.saved day ≤ versions day)
      | _ => true
  | _ => true

/-! ## What a call does to its shard -/

section Shards

variable {shard : Shard I T}

/-- A sound call keeps marks and maps together. -/
theorem backed_apply (h : shard.Backed) (me : T) {op : Op I} (hsound : op.sound shard = true) :
    (op.apply me shard).Backed := by
  cases op with
  | tryBeginPopulate ident =>
      rw [Op.apply]
      cases hbegin : shard.tryBeginPopulate ident me with
      | none => exact h
      | some shard' =>
          refine ⟨h.map.tryBeginPopulate hbegin, ?_⟩
          unfold Shard.tryBeginPopulate at hbegin
          split_ifs at hbegin
          cases hbegin
          exact h.skip
  | finishPopulate ident members complete =>
      constructor
      · apply h.map.finishPopulate
        rintro rfl rfl
        exact hsound
      · cases complete <;> exact h.skip
  | storeComplete ident members dup => exact ⟨h.map.storeComplete ident members dup, h.skip⟩
  | mergeMembers ident incoming dup =>
      rw [Op.apply]
      split_ifs
      · exact h
      · exact ⟨h.map.mergeMembers ident incoming dup, h.skip⟩
  | clearIncomplete ident =>
      refine ⟨h.map.clearIncomplete ident, ?_⟩
      rw [Op.apply, Shard.clearIncomplete]
      split_ifs <;> exact h.skip
  | invalidate ident => exact ⟨h.map.invalidate ident, h.skip⟩
  | setDaySkip skip =>
      refine ⟨h.map, ?_⟩
      rintro _ ⟨⟩
      simpa [Op.sound] using hsound
  | clearDaySkip =>
      refine ⟨h.map, ?_⟩
      intro skip hskip
      cases hskip
  | setDegraded => exact ⟨h.map, h.skip⟩
  | clearDegraded => exact ⟨h.map, h.skip⟩
  | clearDedupeHint => exact ⟨h.map, h.skip⟩

/-- A sound call that does not persist changes no answer of the store. -/
theorem view_apply (me : T) {op : Op I} (hsound : op.sound shard = true) (hop : op.persists = false) :
    (op.apply me shard).view = shard.view := by
  cases op with
  | tryBeginPopulate ident =>
      rw [Op.apply]
      cases hbegin : shard.tryBeginPopulate ident me with
      | none => rfl
      | some shard' => exact Shard.view_tryBeginPopulate hbegin
  | finishPopulate ident members complete =>
      have hcomplete : complete = false := hop
      subst hcomplete
      apply Shard.view_finishPopulate_false
      intro hmembers
      cases members with
      | none => cases hmembers
      | some m => simpa [Op.sound] using hsound
  | mergeMembers ident incoming dup =>
      have hnil : incoming = [] := by simpa [Op.persists] using hop
      rw [Op.apply, if_pos hnil]
  | clearIncomplete ident => exact Shard.view_clearIncomplete ident
  | storeComplete _ _ _ => cases hop
  | invalidate _ => cases hop
  | setDaySkip _ => cases hop
  | clearDaySkip => cases hop
  | setDegraded => cases hop
  | clearDegraded => cases hop
  | clearDedupeHint => cases hop

end Shards

/-! ## One ledger for each day -/

/-- What a thread still has to do for a day.  A thread that is about to take a snapshot of a shard that is
off the table already holds a copy that is out of date. -/
def phaseAt (gen : ℕ) (closed : ℕ → D → ℕ) (d : D) : Pc D I → Phase (View I)
  | .idle => .idle
  | .fetched _ _ _ => .idle
  | .changed day => if day = d then .dirty else .idle
  | .persisting day g =>
      if day = d then if g = gen then .dirty else .holding (closed g d) Doc.empty.view else .idle
  | .saving day doc version => if day = d then .holding version doc.view else .idle
  | .clearing _ _ versions => .holding (versions d) Doc.empty.view
  | .unlinking days versions => if d ∈ days then .holding (versions d) Doc.empty.view else .idle

/-- The ledger of a day: the value is what the store answers about the day. -/
def dayLedger (s : Store D I T) (d : D) : Ledger T (View I) where
  memory := (s.shard d).view
  version := s.version d
  disk := (s.reload d).view
  saved := s.saved d
  phase := phaseAt s.gen s.closed d ∘ s.pc

/-- The generation that a thread works on is one that the table has had. -/
def Pc.Made (gen : ℕ) : Pc D I → Prop
  | .fetched _ g _ => g ≤ gen
  | .persisting _ g => g ≤ gen
  | .clearing _ g _ => g < gen
  | _ => True

/-- **The invariant.** -/
structure Inv (s : Store D I T) : Prop where
  ledger : ∀ d, (dayLedger s d).Inv
  backed : ∀ d, (s.shard d).Backed
  closed : ∀ g d, g < s.gen → s.closed g d < s.version d
  fresh : ∀ g d, s.gen < g → s.shards d g = Shard.empty
  made : ∀ t, (s.pc t).Made s.gen

/-- A thread that goes on changes its own phase. -/
theorem dayLedger_goto (s : Store D I T) (t : T) (pc : Pc D I) (d : D) :
    dayLedger (s.goto t pc) d =
      { dayLedger s d with phase := Function.update (dayLedger s d).phase t (phaseAt s.gen s.closed d pc) } := by
  have hphase : phaseAt s.gen s.closed d ∘ Function.update s.pc t pc =
      Function.update (phaseAt s.gen s.closed d ∘ s.pc) t (phaseAt s.gen s.closed d pc) :=
    Function.comp_update ..
  simp only [dayLedger, ← hphase]
  rfl

/-- A thread that goes on without a change of its phase changes nothing. -/
theorem dayLedger_goto_same (s : Store D I T) {t : T} {pc : Pc D I} {d : D}
    (hpc : phaseAt s.gen s.closed d pc = phaseAt s.gen s.closed d (s.pc t)) :
    dayLedger (s.goto t pc) d = dayLedger s d := by
  have hphase : Function.update (dayLedger s d).phase t (phaseAt s.gen s.closed d pc) =
      (dayLedger s d).phase := by
    rw [hpc]
    exact Function.update_eq_self ..
  rw [dayLedger_goto, hphase]

theorem made_goto {s : Store D I T} (h : ∀ t, (s.pc t).Made s.gen) (t : T) {pc : Pc D I}
    (hpc : pc.Made s.gen) : ∀ t', ((s.goto t pc).pc t').Made s.gen := by
  intro t'
  rw [Store.goto]
  dsimp only
  by_cases ht : t' = t
  · subst ht
    rw [Function.update_self]
    exact hpc
  · rw [Function.update_of_ne ht]
    exact h t'

/-- The invariant of a thread that goes on without a change of its phase. -/
theorem Inv.goto_same {s : Store D I T} (h : Inv s) {t : T} {pc : Pc D I} (hmade : pc.Made s.gen)
    (hpc : ∀ d, phaseAt s.gen s.closed d pc = phaseAt s.gen s.closed d (s.pc t)) :
    Inv (s.goto t pc) := by
  refine ⟨?_, h.backed, h.closed, h.fresh, made_goto h.made t hmade⟩
  intro d
  rw [dayLedger_goto_same s (hpc d)]
  exact h.ledger d

theorem Inv.enter {s : Store D I T} (h : Inv s) (d : D) : Inv (s.enter d) :=
  ⟨h.ledger, h.backed, h.closed, h.fresh, h.made⟩

theorem inv_opened (disk : List (D × Doc I)) : Inv (Store.opened disk : Store D I T) := by
  refine ⟨fun d => Ledger.Inv.loaded _, ?_, ?_, ?_, ?_⟩
  · intro d
    exact Shard.backed_load _
  · intro g d hg
    exact absurd hg (Nat.not_lt_zero g)
  · intro g d hg
    have hne : g ≠ 0 := Nat.pos_iff_ne_zero.mp hg
    simp [Store.opened, hne]
  · intro t
    trivial

/-! ## The steps of the methods -/

theorem shard_setShard_of_ne (s : Store D I T) {d d' : D} {g : ℕ} (shard : Shard I T)
    (h : d' ≠ d ∨ g ≠ s.gen) : (s.setShard d g shard).shard d' = s.shard d' := by
  rw [Store.shard, Store.shard, Store.setShard]
  dsimp only
  by_cases hd : d' = d
  · subst hd
    rw [Function.update_self, Function.update_of_ne (h.resolve_left (fun hne => hne rfl)).symm]
  · rw [Function.update_of_ne hd]

theorem shard_setShard_self (s : Store D I T) (d : D) (shard : Shard I T) :
    (s.setShard d s.gen shard).shard d = shard := by
  rw [Store.shard, Store.setShard]
  dsimp only
  rw [Function.update_self, Function.update_self]

theorem fresh_setShard {s : Store D I T} (h : ∀ g d, s.gen < g → s.shards d g = Shard.empty) {d : D}
    {g : ℕ} (hg : g ≤ s.gen) (shard : Shard I T) :
    ∀ g' d', s.gen < g' → (s.setShard d g shard).shards d' g' = Shard.empty := by
  intro g' d' hlt
  rw [Store.setShard]
  dsimp only
  by_cases hd : d' = d
  · subst hd
    have hne : g' ≠ g := by omega
    rw [Function.update_self, Function.update_of_ne hne]
    exact h g' d' hlt
  · rw [Function.update_of_ne hd]
    exact h g' d' hlt

/-- The shards of the table after a sound call. -/
theorem backed_setShard {s : Store D I T} (h : Inv s) {d : D} {g : ℕ} (t : T) {op : Op I}
    (hsound : g = s.gen → op.sound (s.shards d g) = true) (d' : D) :
    ((s.setShard d g (op.apply t (s.shards d g))).shard d').Backed := by
  by_cases hlive : d' = d ∧ g = s.gen
  · obtain ⟨rfl, rfl⟩ := hlive
    rw [shard_setShard_self]
    exact backed_apply (h.backed d') t (hsound rfl)
  · rw [not_and_or] at hlive
    rw [shard_setShard_of_ne s _ hlive]
    exact h.backed d'

/-- The part of a method under the lock, for a method that persists. -/
theorem Inv.lockedPersists {s : Store D I T} (h : Inv s) {t : T} {day : D} {g : ℕ} {op : Op I}
    (hpc : s.pc t = .fetched day g op) (hsound : g = s.gen → op.sound (s.shards day g) = true) :
    Inv ({ s.setShard day g (op.apply t (s.shards day g)) with
      version := Function.update s.version day (s.version day + 1) }.goto t (.changed day)) := by
  have hmade : g ≤ s.gen := by
    have := h.made t
    rwa [hpc] at this
  have hphase : ∀ d, phaseAt s.gen s.closed d (s.pc t) = .idle := by
    intro d
    rw [hpc]
    rfl
  refine ⟨?_, backed_setShard h t hsound, ?_, fresh_setShard h.fresh hmade _, made_goto h.made t trivial⟩
  · intro d
    by_cases hd : day = d
    · subst hd
      have hl := (h.ledger day).change t
        ((s.setShard day g (op.apply t (s.shards day g))).shard day).view
      rw [dayLedger_goto]
      convert hl using 1
      simp only [dayLedger, Ledger.change, phaseAt, if_true, Function.update_self]
      rfl
    · have hsame := h.ledger d
      rw [dayLedger_goto_same]
      · convert hsame using 1
        have hmem := shard_setShard_of_ne s (op.apply t (s.shards day g)) (Or.inl (Ne.symm hd)) (g := g)
        have hver : Function.update s.version day (s.version day + 1) d = s.version d :=
          Function.update_of_ne (Ne.symm hd) ..
        simp only [dayLedger, hver]
        rw [← hmem]
        rfl
      · show phaseAt s.gen s.closed d (.changed day) = phaseAt s.gen s.closed d (s.pc t)
        rw [hphase d, phaseAt, if_neg hd]
  · intro g' d hg'
    have hlt := h.closed g' d hg'
    show s.closed g' d < Function.update s.version day (s.version day + 1) d
    by_cases hd : d = day
    · subst hd
      rw [Function.update_self]
      omega
    · rw [Function.update_of_ne hd]
      exact hlt

/-- The part of a method under the lock, for a method that does not persist. -/
theorem Inv.lockedQuiet {s : Store D I T} (h : Inv s) {t : T} {day : D} {g : ℕ} {op : Op I}
    (hpc : s.pc t = .fetched day g op) (hsound : g = s.gen → op.sound (s.shards day g) = true)
    (hop : op.persists = false) :
    Inv ((s.setShard day g (op.apply t (s.shards day g))).goto t .idle) := by
  have hmade : g ≤ s.gen := by
    have := h.made t
    rwa [hpc] at this
  refine ⟨?_, backed_setShard h t hsound, h.closed, fresh_setShard h.fresh hmade _,
    made_goto h.made t trivial⟩
  intro d
  have hview : ((s.setShard day g (op.apply t (s.shards day g))).shard d).view = (s.shard d).view := by
    by_cases hlive : d = day ∧ g = s.gen
    · obtain ⟨rfl, rfl⟩ := hlive
      rw [shard_setShard_self]
      exact view_apply t (hsound rfl) hop
    · rw [not_and_or] at hlive
      rw [shard_setShard_of_ne s _ hlive]
  rw [dayLedger_goto_same]
  · have hl := h.ledger d
    convert hl using 1
    simp only [dayLedger, hview]
    rfl
  · show phaseAt s.gen s.closed d .idle = phaseAt s.gen s.closed d (s.pc t)
    rw [hpc]
    rfl

/-- The snapshot of `persist_day`. -/
theorem Inv.snapshot {s : Store D I T} (h : Inv s) {t : T} {day : D} {g : ℕ}
    (hpc : s.pc t = .persisting day g) :
    Inv (s.goto t (.saving day (s.shards day g).snapshot (s.versionOf day g))) := by
  have hmade : g ≤ s.gen := by
    have := h.made t
    rwa [hpc] at this
  refine ⟨?_, h.backed, h.closed, h.fresh, made_goto h.made t trivial⟩
  intro d
  by_cases hd : day = d
  · subst hd
    by_cases hlive : g = s.gen
    · subst hlive
      have hl := (h.ledger day).copy t
      rw [dayLedger_goto]
      convert hl using 1
      have hview : (s.shards day s.gen).snapshot.view = (s.shard day).view :=
        Shard.view_snapshot (h.backed day)
      simp only [Ledger.copy, phaseAt, if_true, hview, Store.versionOf]
      rfl
    · -- the shard is off the table: the copy is as old as that
      have hclosed := h.closed g day (by omega)
      rw [dayLedger_goto]
      apply (h.ledger day).exchange
      intro t'
      by_cases ht : t' = t
      · subst ht
        right
        refine ⟨s.closed g day, Doc.empty.view, s.closed g day, (s.shards day g).snapshot.view,
          ?_, hclosed, ?_, hclosed⟩
        · show phaseAt s.gen s.closed day (s.pc t') = _
          rw [hpc, phaseAt, if_pos rfl, if_neg hlive]
        · rw [Function.update_self, phaseAt, if_pos rfl, Store.versionOf, if_neg hlive]
      · left
        exact Function.update_of_ne ht ..
  · rw [dayLedger_goto_same]
    · exact h.ledger d
    · rw [hpc, phaseAt, phaseAt, if_neg hd, if_neg hd]

/-- The sidecar is written. -/
theorem Inv.save {s : Store D I T} (h : Inv s) {t : T} {day : D} {doc : Doc I} {version : ℕ}
    (hpc : s.pc t = .saving day doc version) (hsound : s.saved day ≤ version) :
    Inv ({ s with
      disk := PyDict.set s.disk day doc
      saved := Function.update s.saved day version }.goto t .idle) := by
  refine ⟨?_, h.backed, h.closed, h.fresh, made_goto h.made t trivial⟩
  intro d
  by_cases hd : day = d
  · subst hd
    have hphase : (dayLedger s day).phase t = .holding version doc.view := by
      show phaseAt s.gen s.closed day (s.pc t) = _
      rw [hpc, phaseAt, if_pos rfl]
    have horder : (dayLedger s day).InOrder t := by
      intro v hv
      rw [hphase] at hv
      cases hv
      exact hsound
    refine (h.ledger day).save horder ?_
    rw [Ledger.save, hphase, dayLedger_goto]
    simp only [dayLedger, Store.reload, PyDict.lookup_set_self, Function.update_self, Option.getD_some,
      Shard.view_load, phaseAt]
    rfl
  · rw [dayLedger_goto_same]
    · have hl := h.ledger d
      convert hl using 1
      have hlookup : (PyDict.set s.disk day doc).lookup d = s.disk.lookup d :=
        PyDict.lookup_set_of_ne _ _ (Ne.symm hd)
      have hsaved : Function.update s.saved day version d = s.saved d :=
        Function.update_of_ne (Ne.symm hd) ..
      simp only [dayLedger, Store.reload, hlookup, hsaved]
      rfl
    · show phaseAt s.gen s.closed d .idle = phaseAt s.gen s.closed d (s.pc t)
      rw [hpc, phaseAt, phaseAt, if_neg hd]

/-! ## The steps of `invalidate_all` -/

/-- A copy that a thread holds before the table is cleared is older than the cleared table. -/
theorem holding_le_of_clear {s : Store D I T} (h : Inv s) {t : T} {d : D} {v : ℕ} {c : View I}
    (hphase : phaseAt (s.gen + 1) (Function.update s.closed s.gen s.version) d (s.pc t) =
      .holding v c) : v ≤ s.version d := by
  have hold : ∀ {u w}, phaseAt s.gen s.closed d (s.pc t) = .holding u w → u ≤ s.version d := by
    intro u w hu
    exact (h.ledger d).holding_le t u w hu
  have hmade := h.made t
  cases hpc : s.pc t with
  | persisting day g =>
      rw [hpc] at hphase hmade
      have hg : g ≤ s.gen := hmade
      have hne : g ≠ s.gen + 1 := by omega
      rw [phaseAt] at hphase
      split_ifs at hphase
      rw [Phase.holding.injEq] at hphase
      rw [← hphase.1]
      by_cases hlast : g = s.gen
      · rw [hlast, Function.update_self]
      · rw [Function.update_of_ne hlast]
        have := h.closed g d (by omega)
        omega
  | idle =>
      rw [hpc] at hphase
      cases hphase
  | fetched day g op =>
      rw [hpc] at hphase
      cases hphase
  | changed day =>
      rw [hpc, phaseAt] at hphase
      split_ifs at hphase
  | saving day doc version =>
      rw [hpc] at hphase hold
      exact hold hphase
  | clearing days g versions =>
      rw [hpc] at hphase hold
      exact hold hphase
  | unlinking days versions =>
      rw [hpc] at hphase hold
      exact hold hphase

theorem Pc.Made.mono {gen : ℕ} {pc : Pc D I} (h : pc.Made gen) : pc.Made (gen + 1) := by
  cases pc with
  | fetched day g op => exact Nat.le_succ_of_le h
  | persisting day g => exact Nat.le_succ_of_le h
  | clearing days g versions => exact Nat.lt_succ_of_lt h
  | idle => trivial
  | changed day => trivial
  | saving day doc version => trivial
  | unlinking days versions => trivial

/-- `_shards.clear()`: the thread that clears the table holds the newest state, the empty one. -/
theorem Inv.clearTable {s : Store D I T} (h : Inv s) (t : T) :
    Inv ({ s with
      gen := s.gen + 1
      table := []
      version := fun d => s.version d + 1
      closed := Function.update s.closed s.gen s.version }.goto t
        (.clearing s.table s.gen fun d => s.version d + 1)) := by
  have hfresh : ∀ d, s.shards d (s.gen + 1) = Shard.empty := by
    intro d
    exact h.fresh _ d (Nat.lt_succ_self _)
  refine ⟨?_, ?_, ?_, ?_, ?_⟩
  · intro d
    have hmem : (s.shards d (s.gen + 1)).view = Doc.empty.view := by
      rw [hfresh d]
      rfl
    -- of a day, only the clearing thread can hold the new version: every other thread read an older one
    have hcases : ∀ t' v c,
        Function.update (phaseAt (s.gen + 1) (Function.update s.closed s.gen s.version) d ∘ s.pc) t
          (.holding (s.version d + 1) Doc.empty.view) t' = .holding v c →
        (v = s.version d + 1 ∧ c = Doc.empty.view) ∨ v ≤ s.version d := by
      intro t' v c hv
      by_cases ht : t' = t
      · subst ht
        rw [Function.update_self, Phase.holding.injEq] at hv
        exact Or.inl ⟨hv.1.symm, hv.2.symm⟩
      · rw [Function.update_of_ne ht] at hv
        exact Or.inr (holding_le_of_clear h hv)
    rw [dayLedger_goto]
    refine ⟨Nat.le_succ_of_le (h.ledger d).saved_le, ?_, ?_, Or.inr (Or.inr ⟨t, ?_⟩)⟩
    · intro t' v c hv
      show v ≤ s.version d + 1
      rcases hcases t' v c hv with ⟨hv, -⟩ | hv <;> omega
    · intro t' c hv
      show c = (s.shards d (s.gen + 1)).view
      rcases hcases t' _ c hv with ⟨-, hc⟩ | hv
      · rw [hc, hmem]
      · exact absurd hv (Nat.not_succ_le_self _)
    · refine (Function.update_self ..).trans ?_
      show Phase.holding (s.version d + 1) Doc.empty.view =
        Phase.holding (s.version d + 1) (s.shards d (s.gen + 1)).view
      rw [hmem]
  · intro d
    show (s.shards d (s.gen + 1)).Backed
    rw [hfresh d]
    exact Shard.backed_empty
  · intro g d hg
    show Function.update s.closed s.gen s.version g d < s.version d + 1
    by_cases hlast : g = s.gen
    · rw [hlast, Function.update_self]
      omega
    · have hlt : g < s.gen + 1 := hg
      have := h.closed g d (by omega)
      rw [Function.update_of_ne hlast]
      omega
  · intro g d hg
    have hlt : s.gen + 1 < g := hg
    exact h.fresh g d (by omega)
  · exact made_goto (s := { s with gen := s.gen + 1 }) (fun t' => (h.made t').mono) t
      (Nat.lt_succ_self s.gen)

theorem Inv.clearShard {s : Store D I T} (h : Inv s) {t : T} {day : D} {days : List D} {g : ℕ}
    {versions : D → ℕ} (hpc : s.pc t = .clearing (day :: days) g versions) :
    Inv ((s.setShard day g Shard.empty).goto t (.clearing days g versions)) := by
  have hmade : g < s.gen := by
    have := h.made t
    rwa [hpc] at this
  have hshard : ∀ d, (s.setShard day g Shard.empty).shard d = s.shard d := by
    intro d
    exact shard_setShard_of_ne s _ (Or.inr (by omega))
  have hset : Inv (s.setShard day g Shard.empty) := by
    refine ⟨?_, ?_, h.closed, fresh_setShard h.fresh (Nat.le_of_lt hmade) _, h.made⟩
    · intro d
      have hl := h.ledger d
      convert hl using 1
      simp only [dayLedger, hshard]
      rfl
    · intro d
      rw [hshard]
      exact h.backed d
  apply hset.goto_same
  · exact hmade
  · intro d
    show phaseAt s.gen s.closed d _ = phaseAt s.gen s.closed d (s.pc t)
    rw [hpc]
    rfl

theorem phaseAt_unlinkRest (gen : ℕ) (closed : ℕ → D → ℕ) (d : D) (days : List D) (versions : D → ℕ) :
    phaseAt gen closed d (unlinkRest days versions : Pc D I) =
      if d ∈ days then .holding (versions d) Doc.empty.view else .idle := by
  unfold unlinkRest
  by_cases hnil : days = []
  · subst hnil
    rw [if_pos rfl, if_neg List.not_mem_nil]
    rfl
  · rw [if_neg hnil]
    rfl

theorem made_unlinkRest (gen : ℕ) (days : List D) (versions : D → ℕ) :
    (unlinkRest days versions : Pc D I).Made gen := by
  unfold unlinkRest
  split_ifs <;> trivial

/-- The sidecars are listed.  Where there is none, the empty state is on disk. -/
theorem Inv.list {s : Store D I T} (h : Inv s) {t : T} {g : ℕ} {versions : D → ℕ}
    (hpc : s.pc t = .clearing [] g versions) :
    Inv ({ s with
      saved := fun d => if d ∈ s.disk.map Prod.fst then s.saved d
        else max (s.saved d) (versions d) }.goto t (unlinkRest (s.disk.map Prod.fst) versions)) := by
  refine ⟨?_, h.backed, h.closed, h.fresh, made_goto h.made t (made_unlinkRest _ _ _)⟩
  intro d
  have hphase : (dayLedger s d).phase t = .holding (versions d) Doc.empty.view := by
    show phaseAt s.gen s.closed d (s.pc t) = _
    rw [hpc]
    rfl
  by_cases hd : d ∈ s.disk.map Prod.fst
  · rw [dayLedger_goto_same]
    · have hl := h.ledger d
      convert hl using 1
      simp only [dayLedger, if_pos hd]
      rfl
    · rw [phaseAt_unlinkRest, if_pos hd]
      exact hphase.symm
  · have hdisk : (s.reload d).view = Doc.empty.view := by
      rw [Store.reload, PyDict.lookup_eq_none_of_notMem hd]
      exact Shard.view_load _
    rw [dayLedger_goto, phaseAt_unlinkRest, if_neg hd]
    by_cases horder : s.saved d ≤ versions d
    · refine (h.ledger d).save (i := t) ?_ ?_
      · intro v hv
        rw [hphase] at hv
        cases hv
        exact horder
      · rw [Ledger.save, hphase]
        simp only [dayLedger, if_neg hd, max_eq_right horder]
        rw [← hdisk]
        rfl
    · have hl := (h.ledger d).drop hphase (by omega : versions d < s.saved d)
      convert hl using 1
      simp only [dayLedger, if_neg hd, max_eq_left (Nat.le_of_not_le horder)]
      rfl

/-- A sidecar is removed. -/
theorem Inv.unlink {s : Store D I T} (h : Inv s) {t : T} {day : D} {days : List D} {versions : D → ℕ}
    (hpc : s.pc t = .unlinking days versions) (hday : day ∈ days)
    (hsound : s.saved day ≤ versions day) :
    Inv ({ s with
      disk := s.disk.filter fun e => e.1 ≠ day
      saved := Function.update s.saved day (versions day) }.goto t
        (unlinkRest (days.filter fun d => d ≠ day) versions)) := by
  refine ⟨?_, h.backed, h.closed, h.fresh, made_goto h.made t (made_unlinkRest _ _ _)⟩
  intro d
  have hlookup := PyDict.lookup_filter_ne s.disk day d
  by_cases hd : d = day
  · subst hd
    rw [if_pos rfl] at hlookup
    have hphase : (dayLedger s d).phase t = .holding (versions d) Doc.empty.view := by
      show phaseAt s.gen s.closed d (s.pc t) = _
      rw [hpc, phaseAt, if_pos hday]
    rw [dayLedger_goto, phaseAt_unlinkRest, if_neg (by simp)]
    refine (h.ledger d).save (i := t) ?_ ?_
    · intro v hv
      rw [hphase] at hv
      cases hv
      exact hsound
    · rw [Ledger.save, hphase]
      simp only [dayLedger, Store.reload, hlookup, Function.update_self, Option.getD_none,
        Shard.view_load]
      rfl
  · rw [if_neg hd] at hlookup
    rw [dayLedger_goto_same]
    · have hl := h.ledger d
      convert hl using 1
      have hsaved : Function.update s.saved day (versions day) d = s.saved d :=
        Function.update_of_ne hd ..
      simp only [dayLedger, Store.reload, hlookup, hsaved]
      rfl
    · show phaseAt s.gen s.closed d (unlinkRest _ versions) = phaseAt s.gen s.closed d (s.pc t)
      rw [phaseAt_unlinkRest, hpc, phaseAt]
      simp [hd]

/-! ## Whole runs -/

/-- **The step lemma.** -/
theorem inv_step (s : Store D I T) (a : Action D I T) (s' : Store D I T) (h : Inv s)
    (hsound : sound s a = true) (hstep : step s a = some s') : Inv s' := by
  cases a with
  | fetch t day op =>
      cases hpc : s.pc t <;> simp only [step, hpc] at hstep <;> try cases hstep
      apply (h.enter day).goto_same
      · exact Nat.le_refl s.gen
      · intro d
        show phaseAt s.gen s.closed d _ = phaseAt s.gen s.closed d (s.pc t)
        rw [hpc]
        rfl
  | locked t =>
      cases hpc : s.pc t <;> simp only [step, hpc] at hstep <;> try cases hstep
      rename_i day g op
      have hop : g = s.gen → op.sound (s.shards day g) = true := by
        intro hg
        simpa [sound, hpc, hg] using hsound
      cases hpersists : op.persists with
      | true =>
          rw [if_pos hpersists] at hstep
          exact Option.some.inj hstep ▸ h.lockedPersists hpc hop
      | false =>
          rw [if_neg (by simp [hpersists])] at hstep
          exact Option.some.inj hstep ▸ h.lockedQuiet hpc hop hpersists
  | persistFetch t =>
      cases hpc : s.pc t <;> simp only [step, hpc] at hstep <;> try cases hstep
      rename_i day
      apply (h.enter day).goto_same
      · exact Nat.le_refl s.gen
      · intro d
        show phaseAt s.gen s.closed d _ = phaseAt s.gen s.closed d (s.pc t)
        rw [hpc, phaseAt, phaseAt, if_pos rfl]
  | persistSnapshot t =>
      cases hpc : s.pc t <;> simp only [step, hpc] at hstep <;> try cases hstep
      exact h.snapshot hpc
  | save t =>
      cases hpc : s.pc t <;> simp only [step, hpc] at hstep <;> try cases hstep
      exact h.save hpc (by simpa [sound, hpc] using hsound)
  | clearTable t =>
      cases hpc : s.pc t <;> simp only [step, hpc] at hstep <;> try cases hstep
      exact h.clearTable t
  | clearShard t =>
      cases hpc : s.pc t <;> simp only [step, hpc] at hstep <;> try cases hstep
      rename_i days g versions
      cases days with
      | nil => cases hstep
      | cons day days => exact Option.some.inj hstep ▸ h.clearShard hpc
  | list t =>
      cases hpc : s.pc t <;> simp only [step, hpc] at hstep <;> try cases hstep
      rename_i days g versions
      cases days with
      | nil => exact Option.some.inj hstep ▸ h.list hpc
      | cons day days => cases hstep
  | unlink t day =>
      cases hpc : s.pc t <;> simp only [step, hpc] at hstep <;> try cases hstep
      rename_i days versions
      split_ifs at hstep with hday
      exact Option.some.inj hstep ▸ h.unlink hpc hday (by simpa [sound, hpc] using hsound)

/-- **A restart loses nothing.**  After every run of sound steps in which all calls have returned, a fresh
store that loads the sidecars answers for every day as the live store does. -/
theorem reload_eq_of_run (disk : List (D × Doc I)) (as : List (Action D I T)) (s : Store D I T)
    (hsound : Respects step (fun s a => sound s a = true) (Store.opened disk) as)
    (hrun : exec step (Store.opened disk) as = some s) (hreturned : ∀ t, (s.pc t).returned = true)
    (d : D) : (s.reload d).view = (s.shard d).view := by
  have h := exec_invariant inv_step as (Store.opened disk) s (inv_opened disk) hsound hrun
  apply (h.ledger d).settled
  intro t
  have hidle := hreturned t
  show phaseAt s.gen s.closed d (s.pc t) = .idle
  cases hpc : s.pc t with
  | idle => rfl
  | _ =>
      rw [hpc] at hidle
      cases hidle

/-- Two threads on one day: the first sets the skip, the second clears it.  Both have their snapshots. -/
def skipSetAndCleared : List (Action ℕ ℕ Bool) :=
  [.fetch false 0 (.setDaySkip ⟨"read_error", ""⟩), .locked false, .persistFetch false,
    .persistSnapshot false, .fetch true 0 .clearDaySkip, .locked true, .persistFetch true,
    .persistSnapshot true]

/-- The snapshots are written in their order; then everything is invalidated and a map is stored. -/
theorem reload_eq_of_run_inOrder :
    ∃ s : Store ℕ ℕ Bool,
      exec step (Store.opened []) (skipSetAndCleared ++ [.save false, .save true, .clearTable false,
        .clearShard false, .list false, .unlink false 0, .fetch true 0 (.storeComplete 7 [("a", 5)] false),
        .locked true, .persistFetch true, .persistSnapshot true, .save true]) = some s ∧
      (s.shard 0).lookupCompleteMap 7 = some [("a", 5)] ∧
      ∀ d, (s.reload d).view = (s.shard d).view := by
  have hrun : ((exec step (Store.opened [] : Store ℕ ℕ Bool) (skipSetAndCleared ++ ([.save false,
      .save true, .clearTable false, .clearShard false, .list false, .unlink false 0,
      .fetch true 0 (.storeComplete 7 [("a", 5)] false), .locked true, .persistFetch true,
      .persistSnapshot true, .save true] : List (Action ℕ ℕ Bool)))).map fun s =>
        ((s.pc false).returned, (s.pc true).returned, (s.shard 0).lookupCompleteMap 7)) =
      some (true, true, some [("a", 5)]) := by
    decide +kernel
  obtain ⟨s, hs, hread⟩ := Option.map_eq_some_iff.mp hrun
  rw [Prod.mk.injEq, Prod.mk.injEq] at hread
  refine ⟨s, hs, hread.2.2, ?_⟩
  apply reload_eq_of_run [] _ s _ hs
  · intro t
    cases t with
    | false => exact hread.1
    | true => exact hread.2.1
  · decide +kernel

/-- The snapshots are written the other way round: the skip that was cleared comes back. -/
theorem reload_ne_skipSavedLast :
    ∃ s : Store ℕ ℕ Bool,
      exec step (Store.opened []) (skipSetAndCleared ++ [.save true, .save false]) = some s ∧
      (∀ t, (s.pc t).returned = true) ∧ (s.reload 0).view ≠ (s.shard 0).view := by
  have hrun : ((exec step (Store.opened [] : Store ℕ ℕ Bool)
      (skipSetAndCleared ++ [Action.save true, Action.save false])).map fun s =>
        ((s.pc false).returned, (s.pc true).returned, (s.reload 0).view.daySkip,
          (s.shard 0).view.daySkip)) =
      some (true, true, some ⟨"read_error", ""⟩, none) := by
    decide +kernel
  obtain ⟨s, hs, hread⟩ := Option.map_eq_some_iff.mp hrun
  simp only [Prod.mk.injEq] at hread
  refine ⟨s, hs, ?_, ?_⟩
  · intro t
    cases t with
    | false => exact hread.1
    | true => exact hread.2.1
  · intro heq
    rw [heq, hread.2.2.2] at hread
    cases hread.2.2.1

end SidecarStore
