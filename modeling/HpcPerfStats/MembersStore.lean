/-
# The members store of one day (`sync_timedb_archive_members_store.py`)

A `_DayShard` has, for each archive identity, the member map, the mark that the map is complete and the
thread that is scanning the files, and for the day the sticky skip, the degraded flag and the dedupe
hint.  Every operation here is the part of a method of `SyncTimedbArchiveMembersStore` that runs under
the lock of the day.  The `dict`s of a shard are read and written by identity only, so they are functions.

`merge_members` reads the map, merges outside the lock and starts again when the entry is no longer the
object it has read.  The maps are replaced and never changed in place, so the turn that succeeds is one
step from the map of that moment (`mergeMembers`).

* `snapshot` is what `persist_day` puts into the sidecar of the day, and `load` what a fresh store reads
  from it;
* `Backed` says that every complete identity has a map; `view_snapshot` says that then nothing is lost on
  the way.

The wake-up events, the hot marks, the append and restore flags and the populate sources are left out:
no map and no flag above depends on them.
-/
import HpcPerfStats.ArchiveMembers
import Mathlib.Logic.Function.Basic

namespace MembersStore

open ArchiveMembers

/-- The payload of `set_day_skip`. -/
structure Skip where
  kind : String
  detail : String
  deriving DecidableEq, Repr

/-- `_DayShard`. -/
structure Shard (I T : Type*) where
  members : I → Option MemberMap
  complete : I → Bool
  daySkip : Option Skip
  degraded : Bool
  dedupeHint : Bool
  populateOwner : I → Option T

/-- The sidecar of a day: the complete maps and the flags. -/
structure Doc (I : Type*) where
  identities : I → Option MemberMap
  daySkip : Option Skip
  degraded : Bool
  dedupeHint : Bool

/-- What the store answers about a day: complete maps, skip, degraded flag and dedupe hint. -/
structure View (I : Type*) where
  completeMap : I → Option MemberMap
  daySkip : Option Skip
  degraded : Bool
  dedupeHint : Bool

namespace Doc

variable {I : Type*}

/-- A sidecar that is not there. -/
def empty : Doc I := ⟨fun _ => none, none, false, false⟩

/-- What a fresh store answers about the day of the sidecar.  A skip without a kind is not taken over. -/
def view (doc : Doc I) : View I :=
  ⟨doc.identities, doc.daySkip.filter fun skip => skip.kind ≠ "", doc.degraded, doc.dedupeHint⟩

end Doc

namespace Shard

variable {I T : Type*}

/-- `_DayShard.__init__`. -/
def empty : Shard I T := ⟨fun _ => none, fun _ => false, none, false, false, fun _ => none⟩

/-- `lookup_complete_map`: an entry that is marked and has no map reads as the empty map. -/
def lookupCompleteMap (s : Shard I T) (ident : I) : Option MemberMap :=
  if s.complete ident then some ((s.members ident).getD []) else none

/-- What the store answers about the day of the shard. -/
def view (s : Shard I T) : View I := ⟨s.lookupCompleteMap, s.daySkip, s.degraded, s.dedupeHint⟩

/-! ## Operations on the flags of the day -/

/-- `set_day_skip`. -/
def setDaySkip (s : Shard I T) (skip : Skip) : Shard I T := { s with daySkip := some skip }

/-- `clear_day_skip`. -/
def clearDaySkip (s : Shard I T) : Shard I T := { s with daySkip := none }

/-- `set_degraded`. -/
def setDegraded (s : Shard I T) : Shard I T := { s with degraded := true }

/-- `clear_degraded`. -/
def clearDegraded (s : Shard I T) : Shard I T := { s with degraded := false }

/-- `clear_dedupe_hint`. -/
def clearDedupeHint (s : Shard I T) : Shard I T := { s with dedupeHint := false }

/-! ## Operations on the maps -/

section Maps

variable [DecidableEq I]

/-- An identity that `_drop_stale_identities_locked` drops: it has a map, is not the one to keep, and no
thread is scanning it. -/
def Stale (s : Shard I T) (keep ident : I) : Prop :=
  ident ≠ keep ∧ (s.populateOwner ident).isNone ∧ (s.members ident).isSome

instance (s : Shard I T) (keep ident : I) : Decidable (s.Stale keep ident) :=
  inferInstanceAs (Decidable (_ ∧ _ ∧ _))

/-- `_drop_stale_identities_locked`. -/
def dropStaleIdentities (s : Shard I T) (keep : I) : Shard I T :=
  { s with
    members := fun ident => if s.Stale keep ident then none else s.members ident
    complete := fun ident => if s.Stale keep ident then false else s.complete ident }

/-- `try_begin_populate`: the thread is the owner afterwards, or it has to wait. -/
def tryBeginPopulate (s : Shard I T) (ident : I) (me : T) : Option (Shard I T) :=
  if (s.populateOwner ident).isSome then none
  else if s.complete ident then none
  else some { s with populateOwner := Function.update s.populateOwner ident (some me) }

/-- `finish_populate`. -/
def finishPopulate (s : Shard I T) (ident : I) (members : Option MemberMap) (complete : Bool) :
    Shard I T :=
  let s₁ : Shard I T :=
    { s with
      members := if members.isSome then Function.update s.members ident members else s.members
      complete := if complete then Function.update s.complete ident true else s.complete
      populateOwner := Function.update s.populateOwner ident none }
  if complete then s₁.dropStaleIdentities ident else s₁

/-- The entry of one identity is set to a map that is complete. -/
def putComplete (s : Shard I T) (ident : I) (members : MemberMap) (sawDuplicates : Bool) : Shard I T :=
  { s with
    members := Function.update s.members ident (some members)
    complete := Function.update s.complete ident true
    dedupeHint := s.dedupeHint || sawDuplicates }

/-- `store_complete`. -/
def storeComplete (s : Shard I T) (ident : I) (members : MemberMap) (sawDuplicates : Bool) :
    Shard I T :=
  (s.putComplete ident members sawDuplicates).dropStaleIdentities ident

/-- `merge_members` for a map that is not empty. -/
def mergeMembers (s : Shard I T) (ident : I) (incoming : MemberMap) (sawDuplicates : Bool) :
    Shard I T :=
  let current := incoming.foldl insertLargest ((s.members ident).getD [])
  ({ s with degraded := false }.putComplete ident current sawDuplicates).dropStaleIdentities ident

/-- `clear_incomplete`. -/
def clearIncomplete (s : Shard I T) (ident : I) : Shard I T :=
  if s.complete ident then s
  else
    { s with
      members := Function.update s.members ident none
      populateOwner := Function.update s.populateOwner ident none }

/-- `invalidate`. -/
def invalidate (s : Shard I T) (ident : I) : Shard I T :=
  { s with
    members := Function.update s.members ident none
    complete := Function.update s.complete ident false
    populateOwner := Function.update s.populateOwner ident none }

end Maps

/-! ## Sidecars -/

/-- The payload of `persist_day`: the maps that are marked complete. -/
def snapshot (s : Shard I T) : Doc I :=
  { identities := fun ident => if s.complete ident then s.members ident else none
    daySkip := s.daySkip
    degraded := s.degraded
    dedupeHint := s.dedupeHint }

/-- `load` into a shard that has just been made.  A skip without a kind is not taken over. -/
def load (doc : Doc I) : Shard I T :=
  { members := doc.identities
    complete := fun ident => (doc.identities ident).isSome
    daySkip := doc.daySkip.filter fun skip => skip.kind ≠ ""
    degraded := doc.degraded
    dedupeHint := doc.dedupeHint
    populateOwner := fun _ => none }

@[simp] theorem snapshot_empty : (empty : Shard I T).snapshot = Doc.empty := by
  simp [snapshot, empty, Doc.empty]

/-- Every complete identity has a map. -/
def MarksHaveMaps (s : Shard I T) : Prop :=
  ∀ ident, s.complete ident = true → (s.members ident).isSome

/-- Every complete identity has a map, and a skip has a kind. -/
structure Backed (s : Shard I T) : Prop where
  map : s.MarksHaveMaps
  skip : ∀ skip ∈ s.daySkip, skip.kind ≠ ""

theorem backed_empty : (empty : Shard I T).Backed := by
  constructor
  · intro ident h
    cases h
  · intro skip h
    cases h

theorem backed_load (doc : Doc I) : (load doc : Shard I T).Backed := by
  constructor
  · intro ident h
    exact h
  · intro skip h
    rw [Option.mem_def, load, Option.filter_eq_some_iff] at h
    simpa using h.2

@[simp] theorem view_load (doc : Doc I) : (load doc : Shard I T).view = doc.view := by
  have hmap : (load doc : Shard I T).lookupCompleteMap = doc.identities := by
    funext ident
    cases hm : doc.identities ident with
    | none => simp [lookupCompleteMap, load, hm]
    | some m => simp [lookupCompleteMap, load, hm]
  rw [view, hmap]
  rfl

/-- **Writing and reading a sidecar.**  A fresh store answers as the store that has written it. -/
theorem view_snapshot {s : Shard I T} (h : s.Backed) : s.snapshot.view = s.view := by
  have hmap : s.snapshot.identities = s.lookupCompleteMap := by
    funext ident
    cases hc : s.complete ident with
    | false => simp [lookupCompleteMap, snapshot, hc]
    | true =>
        obtain ⟨m, hm⟩ := Option.isSome_iff_exists.mp (h.map ident hc)
        simp [lookupCompleteMap, snapshot, hc, hm]
  have hskip : s.daySkip.filter (fun skip => skip.kind ≠ "") = s.daySkip := by
    cases hs : s.daySkip with
    | none => rfl
    | some skip =>
        have hkind := h.skip skip hs
        simpa [Option.filter] using hkind
  rw [Doc.view, hmap, view]
  simp only [snapshot]
  rw [hskip]

/-! ## Marks go with their maps -/

section Marks

variable [DecidableEq I] {s : Shard I T}

theorem MarksHaveMaps.dropStaleIdentities (h : s.MarksHaveMaps) (keep : I) :
    (s.dropStaleIdentities keep).MarksHaveMaps := by
  intro ident hc
  rw [Shard.dropStaleIdentities] at hc ⊢
  dsimp only at hc ⊢
  split_ifs at hc ⊢
  exact h ident hc

theorem MarksHaveMaps.putComplete (h : s.MarksHaveMaps) (ident : I) (m : MemberMap) (dup : Bool) :
    (s.putComplete ident m dup).MarksHaveMaps := by
  intro i hc
  rw [Shard.putComplete] at hc ⊢
  dsimp only at hc ⊢
  by_cases hi : i = ident
  · subst hi
    rw [Function.update_self]
    rfl
  · rw [Function.update_of_ne hi] at hc ⊢
    exact h i hc

theorem MarksHaveMaps.storeComplete (h : s.MarksHaveMaps) (ident : I) (m : MemberMap) (dup : Bool) :
    (s.storeComplete ident m dup).MarksHaveMaps :=
  (h.putComplete ident m dup).dropStaleIdentities ident

theorem MarksHaveMaps.mergeMembers (h : s.MarksHaveMaps) (ident : I) (m : MemberMap) (dup : Bool) :
    (s.mergeMembers ident m dup).MarksHaveMaps := by
  have hclear : { s with degraded := false }.MarksHaveMaps := h
  exact (hclear.putComplete ident _ dup).dropStaleIdentities ident

theorem MarksHaveMaps.invalidate (h : s.MarksHaveMaps) (ident : I) :
    (s.invalidate ident).MarksHaveMaps := by
  intro i hc
  rw [Shard.invalidate] at hc ⊢
  dsimp only at hc ⊢
  by_cases hi : i = ident
  · subst hi
    rw [Function.update_self] at hc
    cases hc
  · rw [Function.update_of_ne hi] at hc ⊢
    exact h i hc

/-- A map that is not complete may go: it has no mark. -/
theorem MarksHaveMaps.clearIncomplete (h : s.MarksHaveMaps) (ident : I) :
    (s.clearIncomplete ident).MarksHaveMaps := by
  rw [Shard.clearIncomplete]
  split_ifs with hcomplete
  · exact h
  intro i hc
  dsimp only at hc ⊢
  by_cases hi : i = ident
  · subst hi
    exact absurd hc hcomplete
  · rw [Function.update_of_ne hi]
    exact h i hc

/-- The owner of an identity says nothing about the maps. -/
theorem MarksHaveMaps.tryBeginPopulate (h : s.MarksHaveMaps) {ident : I} {me : T} {s' : Shard I T}
    (hbegin : s.tryBeginPopulate ident me = some s') : s'.MarksHaveMaps := by
  unfold Shard.tryBeginPopulate at hbegin
  split_ifs at hbegin
  cases hbegin
  exact h

/-- A populate marks its identity only when the map is there, or comes with the call. -/
theorem MarksHaveMaps.finishPopulate (h : s.MarksHaveMaps) (ident : I) (members : Option MemberMap)
    (complete : Bool)
    (hmap : complete = true → members = none → (s.members ident).isSome) :
    (s.finishPopulate ident members complete).MarksHaveMaps := by
  have hset : { s with
      members := if members.isSome then Function.update s.members ident members else s.members
      complete := if complete then Function.update s.complete ident true else s.complete
      populateOwner := Function.update s.populateOwner ident none }.MarksHaveMaps := by
    intro i hc
    dsimp only at hc ⊢
    by_cases hi : i = ident
    · subst hi
      cases members with
      | some m => simp
      | none =>
          cases complete with
          | true => exact hmap rfl rfl
          | false => exact h i hc
    · have hc' : s.complete i = true := by
        cases complete with
        | true => simpa [Function.update_of_ne hi] using hc
        | false => exact hc
      cases members with
      | some m => simpa [Function.update_of_ne hi] using h i hc'
      | none => exact h i hc'
  unfold Shard.finishPopulate
  cases complete with
  | true => exact hset.dropStaleIdentities ident
  | false => exact hset

end Marks

/-! ## Which marks are dropped -/

section Dropped

variable [DecidableEq I] {s : Shard I T} {keep ident : I}

theorem complete_of_dropStaleIdentities (h : (s.dropStaleIdentities keep).complete ident = true) :
    s.complete ident = true := by
  rw [Shard.dropStaleIdentities] at h
  dsimp only at h
  split_ifs at h
  exact h

/-- The identity to keep and the identities with an owner keep their marks. -/
theorem complete_dropStaleIdentities (h : s.complete ident = true)
    (hkeep : ident = keep ∨ (s.populateOwner ident).isSome) :
    (s.dropStaleIdentities keep).complete ident = true := by
  have hstale : ¬ s.Stale keep ident := by
    rintro ⟨hne, hnone, -⟩
    rcases hkeep with heq | hsome
    · exact hne heq
    · rw [Option.isNone_iff_eq_none] at hnone
      rw [hnone] at hsome
      cases hsome
  rw [Shard.dropStaleIdentities]
  dsimp only
  rw [if_neg hstale]
  exact h

theorem complete_storeComplete_self (m : MemberMap) (dup : Bool) :
    (s.storeComplete ident m dup).complete ident = true := by
  apply complete_dropStaleIdentities _ (Or.inl rfl)
  exact Function.update_self ..

/-- The other marks were there before. -/
theorem complete_of_storeComplete {i : I} (hi : i ≠ ident) {m : MemberMap} {dup : Bool}
    (h : (s.storeComplete ident m dup).complete i = true) : s.complete i = true := by
  have hput := complete_of_dropStaleIdentities h
  rw [putComplete] at hput
  dsimp only at hput
  rwa [Function.update_of_ne hi] at hput

/-- The marks of identities with an owner stay. -/
theorem complete_storeComplete {i : I} (h : s.complete i = true)
    (howned : (s.populateOwner i).isSome = true) (m : MemberMap) (dup : Bool) :
    (s.storeComplete ident m dup).complete i = true := by
  by_cases hi : i = ident
  · rw [hi]
    exact complete_storeComplete_self m dup
  · apply complete_dropStaleIdentities
    · rw [putComplete]
      dsimp only
      rw [Function.update_of_ne hi]
      exact h
    · exact Or.inr howned

end Dropped

/-! ## Operations that the answers do not show -/

section Unseen

variable [DecidableEq I] {s : Shard I T}

theorem view_tryBeginPopulate {ident : I} {me : T} {s' : Shard I T}
    (hbegin : s.tryBeginPopulate ident me = some s') : s'.view = s.view := by
  unfold Shard.tryBeginPopulate at hbegin
  split_ifs at hbegin
  cases hbegin
  rfl

theorem view_clearIncomplete (ident : I) : (s.clearIncomplete ident).view = s.view := by
  rw [Shard.clearIncomplete]
  split_ifs with hcomplete
  · rfl
  have hmap : (fun i => if s.complete i then some ((Function.update s.members ident none i).getD [])
      else none) = s.lookupCompleteMap := by
    funext i
    by_cases hi : i = ident
    · subst hi
      simp [lookupCompleteMap, hcomplete]
    · rw [Function.update_of_ne hi]
      rfl
  rw [view, view, ← hmap]
  rfl

/-- A populate that has failed leaves the answers alone, unless it replaces a map that is complete. -/
theorem view_finishPopulate_false (ident : I) (members : Option MemberMap)
    (hmap : members.isSome = true → s.complete ident = false) :
    (s.finishPopulate ident members false).view = s.view := by
  cases members with
  | none => rfl
  | some m =>
      have hcomplete := hmap rfl
      have hlookup : (s.finishPopulate ident (some m) false).lookupCompleteMap = s.lookupCompleteMap := by
        funext i
        by_cases hi : i = ident
        · subst hi
          simp [lookupCompleteMap, Shard.finishPopulate, hcomplete]
        · simp [lookupCompleteMap, Shard.finishPopulate, Function.update_of_ne hi]
      rw [view, view, hlookup]
      rfl

end Unseen

end Shard

end MembersStore
