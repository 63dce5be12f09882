/-
# Sealing the open tar of a day (`atomic_seal_tar_to_zst`)

`atomic_seal_tar_to_zst` compresses the open `.tar` of a day to a temporary file and
moves it over the sealed `.tar.zst`.  Before that it compares the two archives twice:

* `_seal_skip_existing_zst_equivalent` leaves everything alone when the member maps
  are EQUAL;
* the shrink guard, under the lock of the tar, refuses when the sealed archive has more
  names than the tar or a larger sum of member sizes.

One call runs alone.  What may go wrong around it (the program `zstd` is missing, a lock
is not granted, a listing or a compression fails) is a field of `SealEnv`; the call
reads the fields in the order of the source and stops at the first failure.

Main results: `seal_guarded` and `not_sealKeeps_of_other_name`.
-/
import HpcPerfStats.DailyArchive
import Mathlib.Algebra.Order.BigOperators.Group.Finset

namespace SealGuard

open ArchiveMembers DailyArchive

/-! ## The files and what a call meets -/

/-- The archives of a day. -/
structure Archives where
  tar : Option Content
  zst : Option Content
  deriving DecidableEq, Repr

/-- How a check ends: it passes, it says no, or it raises. -/
inductive Check where
  | passed
  | refused
  | raised
  deriving DecidableEq, Repr

/-- What a call of `atomic_seal_tar_to_zst` meets. -/
structure SealEnv where
  /-- `shutil.which("zstd")` -/
  zstdOnPath : Bool
  /-- `zstd_test` of the sealed archive: `refused` is one of the three exceptions that are
  caught, `raised` is any other one -/
  zstdTest : Check
  /-- the scan of the sealed archive in the skip check -/
  scanReadable : Bool
  /-- the entry of the members cache for the day -/
  cachedMembers : Option MemberMap
  /-- `get_existing_archive_members` could lock and list the tar -/
  tarReadable : Bool
  tarLocked : Bool
  /-- `gnu tar tvf` under the lock ended with code 0 -/
  tarListed : Bool
  /-- the second scan of the sealed archive, under the lock -/
  rescanReadable : Bool
  /-- `verify_tar_archive_readable` -/
  tarVerified : Check
  compressed : Bool
  /-- `zstd_test` of the temporary file -/
  tmpTested : Bool
  /-- the lock of the sealed archive and `os.replace` -/
  moved : Bool
  keepUncompressedTar : Bool
  forceRemoveUncompressedTar : Bool
  /-- `remaining_raw_by_gz_has_paths_on_disk` -/
  rawOnDisk : Bool
  /-- the tar could be removed under its lock -/
  tarRemoved : Bool
  deriving DecidableEq, Repr

/-- How a call ends. -/
inductive SealOutcome where
  | returned (snapshot : Option MemberMap)
  | raised
  deriving DecidableEq, Repr

/-- The archives after a call, whether it moved a new sealed archive into place, and its end. -/
structure SealResult where
  archives : Archives
  replaced : Bool
  outcome : SealOutcome
  deriving DecidableEq, Repr

/-! ## The functions of the source -/

/-- `get_existing_archive_members` of a tar beside a sealed archive: the cached map, else
the listing, and the empty map when the listing fails. -/
def getExistingArchiveMembers (env : SealEnv) (t : Content) : MemberMap :=
  match env.cachedMembers with
  | some d => d
  | none => if env.tarReadable then memberMap t else []

/-- `_seal_skip_existing_zst_equivalent`: `(skipped, zst_members)`, `none` when it raises. -/
def sealSkipExistingZstEquivalent (a : Archives) (env : SealEnv) :
    Option (Bool × Option MemberMap) :=
  match a.zst with
  | none => some (false, none)
  | some z =>
      match env.zstdTest with
      | .raised => none
      | .refused => some (false, none)
      | .passed =>
          match a.tar with
          | none => some (true, none)
          | some t =>
              if env.scanReadable = false then some (false, none)
              else if mapsEquivalent (memberMap z) (getExistingArchiveMembers env t) then
                some (true, some (memberMap z))
              else some (false, some (memberMap z))

/-- `existing_members`: the map of the skip check, else a second scan. -/
def existingMembers (a : Archives) (env : SealEnv) (zstMembers : Option MemberMap) :
    Option MemberMap :=
  match a.zst with
  | none => none
  | some z =>
      match zstMembers with
      | some d => some d
      | none => if env.rescanReadable then some (memberMap z) else none

/-- The archives after the removal of the tar, which the caller or raw files may hold back. -/
def dropTar (a : Archives) (env : SealEnv) : Archives :=
  if env.keepUncompressedTar then a
  else if env.forceRemoveUncompressedTar = false ∧ env.rawOnDisk then a
  else if env.tarRemoved then { a with tar := none }
  else a

/-- Compression, test and `os.replace`, and the removal of the tar after them. -/
def compressAndReplace (a : Archives) (env : SealEnv) (t : Content) : SealResult :=
  if env.compressed = false ∨ env.tmpTested = false ∨ env.moved = false then ⟨a, false, .raised⟩
  else ⟨dropTar { a with zst := some t } env, true, .returned (some (memberMap t))⟩

/-- The part of `atomic_seal_tar_to_zst` from the lock of the tar on. -/
def sealUnderLock (a : Archives) (env : SealEnv) (t : Content) (zstMembers : Option MemberMap) :
    SealResult :=
  if env.tarLocked = false ∨ env.tarListed = false then ⟨a, false, .raised⟩
  else if sealRefused (existingMembers a env zstMembers) (memberMap t) then
    ⟨a, false, .returned none⟩
  else
    match env.tarVerified with
    | .refused => ⟨a, false, .returned none⟩
    | .raised => ⟨a, false, .raised⟩
    | .passed => compressAndReplace a env t

/-- `atomic_seal_tar_to_zst`. -/
def atomicSealTarToZst (a : Archives) (env : SealEnv) : SealResult :=
  match a.tar with
  | none =>
      -- the skip check runs for its log line only
      match sealSkipExistingZstEquivalent a env with
      | none => ⟨a, false, .raised⟩
      | some _ => ⟨a, false, .returned none⟩
  | some t =>
      if env.zstdOnPath = false then ⟨a, false, .raised⟩
      else
        match sealSkipExistingZstEquivalent a env with
        | none => ⟨a, false, .raised⟩
        | some (true, zstMembers) => ⟨a, false, .returned zstMembers⟩
        | some (false, zstMembers) => sealUnderLock a env t zstMembers

/-! ## Names and bytes

What the shrink guard compares, as the size of a set of names and a sum over it. -/

/-- Every member of the old archive is in the new one with at least its old size. -/
def Kept (old new : Content) : Prop := ∀ m ∈ old, Covers new m

/-- No fewer names and no fewer bytes: what the shrink guard asks for. -/
def NoShrink (old new : MemberMap) : Prop :=
  old.length ≤ new.length ∧ sumMemberBytes old ≤ sumMemberBytes new

/-- The names of an archive. -/
def names (c : Content) : Finset String := (c.map Prod.fst).toFinset

/-- The size of a name in the member map. -/
def mapSize (c : Content) (name : String) : ℕ := (largest c name).getD 0

theorem map_fst_insertLargest (d : MemberMap) (m : Member) :
    (insertLargest d m).map Prod.fst =
      if m.1 ∈ d.map Prod.fst then d.map Prod.fst else d.map Prod.fst ++ [m.1] := by
  induction d with
  | nil => rfl
  | cons e rest ih =>
      rw [insertLargest]
      by_cases hname : e.1 = m.1
      · have hmem : m.1 ∈ (e :: rest).map Prod.fst := by
          rw [List.map_cons, hname]
          exact List.mem_cons_self
        rw [if_pos hname, if_pos hmem, List.map_cons, List.map_cons]
      · have hmem : m.1 ∈ (e :: rest).map Prod.fst ↔ m.1 ∈ rest.map Prod.fst := by
          rw [List.map_cons, List.mem_cons]
          exact or_iff_right (Ne.symm hname)
        rw [if_neg hname, List.map_cons, ih]
        by_cases hrest : m.1 ∈ rest.map Prod.fst
        · rw [if_pos hrest, if_pos (hmem.mpr hrest), List.map_cons]
        · rw [if_neg hrest, if_neg (mt hmem.mp hrest), List.map_cons, List.cons_append]

theorem nodup_insertLargest {d : MemberMap} (h : (d.map Prod.fst).Nodup) (m : Member) :
    ((insertLargest d m).map Prod.fst).Nodup := by
  rw [map_fst_insertLargest]
  split_ifs with hmem
  · exact h
  · refine List.Nodup.append h (List.nodup_singleton _) ?_
    rw [List.disjoint_singleton]
    exact hmem

/-- A member map has each name once. -/
theorem nodup_memberMap (c : Content) : ((memberMap c).map Prod.fst).Nodup := by
  have hgo : ∀ (c : Content) (d : MemberMap), (d.map Prod.fst).Nodup →
      ((c.foldl insertLargest d).map Prod.fst).Nodup := by
    intro c
    induction c with
    | nil => exact fun d h => h
    | cons m c ih => exact fun d h => ih _ (nodup_insertLargest h m)
  exact hgo c [] List.nodup_nil

theorem mem_names_iff {c : Content} {name : String} : name ∈ names c ↔ Covers c (name, 0) := by
  unfold names Covers
  rw [List.mem_toFinset, List.mem_map]
  constructor
  · rintro ⟨m, hm, rfl⟩
    exact ⟨m.2, hm, Nat.zero_le _⟩
  · rintro ⟨size, hmem, -⟩
    exact ⟨_, hmem, rfl⟩

theorem names_memberMap (c : Content) : names (memberMap c) = names c := by
  ext name
  rw [mem_names_iff, mem_names_iff, covers_memberMap]

/-- An entry of the member map has the size of its name. -/
theorem mapSize_of_mem {c : Content} {e : Member} (he : e ∈ memberMap c) : mapSize c e.1 = e.2 := by
  unfold mapSize
  rw [← lookup_memberMap, PyDict.lookup_of_mem (nodup_memberMap c) he, Option.getD_some]

theorem length_memberMap (c : Content) : (memberMap c).length = (names c).card := by
  rw [← names_memberMap, names, List.toFinset_card_of_nodup (nodup_memberMap c), List.length_map]

theorem sumMemberBytes_memberMap (c : Content) :
    sumMemberBytes (memberMap c) = ∑ name ∈ names c, mapSize c name := by
  rw [← names_memberMap, names, List.sum_toFinset _ (nodup_memberMap c), List.map_map, sumMemberBytes]
  congr 1
  exact List.map_congr_left fun e he => (mapSize_of_mem he).symm

/-- A member is covered when its name is there with at least its size. -/
theorem covers_iff_mapSize {c : Content} {m : Member} :
    Covers c m ↔ m.1 ∈ names c ∧ m.2 ≤ mapSize c m.1 := by
  rw [← names_memberMap, mem_names_iff, ← covers_memberMap c m]
  constructor
  · rintro ⟨size, hmem, hle⟩
    refine ⟨⟨size, hmem, Nat.zero_le _⟩, ?_⟩
    rw [mapSize_of_mem (e := (m.1, size)) hmem]
    exact hle
  · rintro ⟨⟨size, hmem, -⟩, hle⟩
    rw [mapSize_of_mem (e := (m.1, size)) hmem] at hle
    exact ⟨size, hmem, hle⟩

/-- What is kept, name by name. -/
theorem kept_iff {old new : Content} :
    Kept old new ↔ names old ⊆ names new ∧ ∀ name ∈ names old, mapSize old name ≤ mapSize new name := by
  have hold : Kept old new ↔ ∀ e ∈ memberMap old, Covers new e := by
    constructor
    · intro h e he
      obtain ⟨size, hmem, hle⟩ := (covers_memberMap old e).mp (covers_of_mem he)
      obtain ⟨size', hmem', hle'⟩ := h _ hmem
      exact ⟨size', hmem', hle.trans hle'⟩
    · intro h m hm
      obtain ⟨size, hmem, hle⟩ := (covers_memberMap old m).mpr (covers_of_mem hm)
      obtain ⟨size', hmem', hle'⟩ := h _ hmem
      exact ⟨size', hmem', hle.trans hle'⟩
  have hname : ∀ name ∈ names old, (name, mapSize old name) ∈ memberMap old := by
    intro name hname
    obtain ⟨size, hmem, -⟩ := (covers_memberMap old _).mpr (mem_names_iff.mp hname)
    rwa [mapSize_of_mem (e := (name, size)) hmem]
  rw [hold]
  constructor
  · intro h
    exact ⟨fun name hmem => (covers_iff_mapSize.mp (h _ (hname name hmem))).1,
      fun name hmem => (covers_iff_mapSize.mp (h _ (hname name hmem))).2⟩
  · rintro ⟨hsub, hle⟩ e he
    have hmem : e.1 ∈ names old := by
      rw [← names_memberMap, mem_names_iff]
      exact ⟨e.2, he, Nat.zero_le _⟩
    have hsize := hle e.1 hmem
    rw [mapSize_of_mem he] at hsize
    exact covers_iff_mapSize.mpr ⟨hsub hmem, hsize⟩

/-- A tar that keeps every sealed member is never refused. -/
theorem noShrink_of_kept {old new : Content} (h : Kept old new) :
    NoShrink (memberMap old) (memberMap new) := by
  obtain ⟨hsub, hle⟩ := kept_iff.mp h
  unfold NoShrink
  rw [length_memberMap, length_memberMap, sumMemberBytes_memberMap, sumMemberBytes_memberMap]
  exact ⟨Finset.card_le_card hsub, (Finset.sum_le_sum hle).trans (Finset.sum_le_sum_of_subset hsub)⟩

/-- **What the guard is for.**  A tar that adds nothing to the sealed archive passes only when it
keeps every sealed member: with no new name the names agree, and with no larger size equal sums make
all sizes equal. -/
theorem kept_of_noShrink {old new : Content} (hadds : Kept new old)
    (h : NoShrink (memberMap old) (memberMap new)) : Kept old new := by
  obtain ⟨hsub, hle⟩ := kept_iff.mp hadds
  obtain ⟨hcard, hsum⟩ := h
  rw [length_memberMap, length_memberMap] at hcard
  rw [sumMemberBytes_memberMap, sumMemberBytes_memberMap] at hsum
  have hnames : names new = names old := Finset.eq_of_subset_of_card_le hsub hcard
  rw [hnames] at hle hsum
  have hsizes := (Finset.sum_eq_sum_iff_of_le hle).mp (le_antisymm (Finset.sum_le_sum hle) hsum)
  refine kept_iff.mpr ⟨hnames.ge, fun name hmem => ?_⟩
  exact (hsizes name hmem).ge

/-! ## What a call can do -/

/-- One of the two scans gives the member map of the sealed archive. -/
def ZstMapRead (env : SealEnv) : Prop :=
  env.zstdTest = .passed ∧ env.scanReadable = true ∨ env.rescanReadable = true

theorem sealRefused_eq_false {d tarMembers : MemberMap} :
    sealRefused (some d) tarMembers = false ↔ NoShrink d tarMembers := by
  unfold sealRefused NoShrink
  rw [Bool.or_eq_false_iff, decide_eq_false_iff_not, decide_eq_false_iff_not, not_lt, not_lt]

/-- The skip check hands on the map of the sealed archive when it could scan it. -/
theorem skip_members {z t : Content} {env : SealEnv} {skipped : Bool} {zstMembers : Option MemberMap}
    (h : sealSkipExistingZstEquivalent ⟨some t, some z⟩ env = some (skipped, zstMembers)) :
    ((env.zstdTest = .passed ∧ env.scanReadable = true) ∧ zstMembers = some (memberMap z)) ∨
      (¬ (env.zstdTest = .passed ∧ env.scanReadable = true) ∧ zstMembers = none) := by
  unfold sealSkipExistingZstEquivalent at h
  simp only at h
  split at h
  · cases h
  · rename_i htest
    obtain ⟨-, rfl⟩ := Prod.mk.inj (Option.some.inj h)
    refine Or.inr ⟨fun hscan => ?_, rfl⟩
    rw [htest] at hscan
    exact absurd hscan.1 (by decide)
  · rename_i htest
    split_ifs at h with hscan
    all_goals obtain ⟨-, rfl⟩ := Prod.mk.inj (Option.some.inj h)
    · refine Or.inr ⟨fun hread => ?_, rfl⟩
      rw [hscan] at hread
      exact absurd hread.2 (by decide)
    · exact Or.inl ⟨⟨htest, Bool.eq_true_of_not_eq_false hscan⟩, rfl⟩
    · exact Or.inl ⟨⟨htest, Bool.eq_true_of_not_eq_false hscan⟩, rfl⟩

/-- The guard sees the map of the sealed archive when one of the scans gave it. -/
theorem existingMembers_cases {z t : Content} {env : SealEnv} {skipped : Bool}
    {zstMembers : Option MemberMap}
    (h : sealSkipExistingZstEquivalent ⟨some t, some z⟩ env = some (skipped, zstMembers)) :
    (ZstMapRead env ∧ existingMembers ⟨some t, some z⟩ env zstMembers = some (memberMap z)) ∨
      (¬ ZstMapRead env ∧ existingMembers ⟨some t, some z⟩ env zstMembers = none) := by
  unfold ZstMapRead existingMembers
  rcases skip_members h with ⟨hscan, rfl⟩ | ⟨hscan, rfl⟩
  · exact Or.inl ⟨Or.inl hscan, rfl⟩
  · by_cases hrescan : env.rescanReadable = true
    · exact Or.inl ⟨Or.inr hrescan, if_pos hrescan⟩
    · exact Or.inr ⟨not_or.mpr ⟨hscan, hrescan⟩, if_neg hrescan⟩

theorem dropTar_zst (a : Archives) (env : SealEnv) : (dropTar a env).zst = a.zst := by
  unfold dropTar
  split_ifs <;> rfl

/-- The tar is removed or left. -/
theorem dropTar_tar (a : Archives) (env : SealEnv) :
    (dropTar a env).tar = a.tar ∨ (dropTar a env).tar = none := by
  unfold dropTar
  split_ifs
  · exact Or.inl rfl
  · exact Or.inl rfl
  · exact Or.inr rfl
  · exact Or.inl rfl

/-- Nothing is changed, or the tar takes the place of the sealed archive. -/
theorem compressAndReplace_cases (a : Archives) (env : SealEnv) (t : Content) :
    ((compressAndReplace a env t).replaced = false ∧ (compressAndReplace a env t).archives = a) ∨
      ((compressAndReplace a env t).replaced = true ∧
        (compressAndReplace a env t).archives.zst = some t) := by
  unfold compressAndReplace
  split_ifs
  · exact Or.inl ⟨rfl, rfl⟩
  · exact Or.inr ⟨rfl, dropTar_zst _ env⟩

/-- Under the lock a replacement has passed the guard. -/
theorem sealUnderLock_cases (a : Archives) (env : SealEnv) (t : Content) (zstMembers : Option MemberMap) :
    ((sealUnderLock a env t zstMembers).replaced = false ∧ (sealUnderLock a env t zstMembers).archives = a) ∨
      ((sealUnderLock a env t zstMembers).replaced = true ∧
        (sealUnderLock a env t zstMembers).archives.zst = some t ∧
        sealRefused (existingMembers a env zstMembers) (memberMap t) = false) := by
  unfold sealUnderLock
  split_ifs with hlock hguard
  · exact Or.inl ⟨rfl, rfl⟩
  · exact Or.inl ⟨rfl, rfl⟩
  · cases env.tarVerified with
    | refused => exact Or.inl ⟨rfl, rfl⟩
    | raised => exact Or.inl ⟨rfl, rfl⟩
    | passed =>
        rcases compressAndReplace_cases a env t with h | ⟨hrep, hzst⟩
        · exact Or.inl h
        · exact Or.inr ⟨hrep, hzst, Bool.eq_false_of_not_eq_true hguard⟩

/-- **What a call does.**  It changes nothing, or the tar takes the place of the sealed archive
and the guard did not refuse. -/
theorem seal_cases (a : Archives) (env : SealEnv) :
    ((atomicSealTarToZst a env).replaced = false ∧ (atomicSealTarToZst a env).archives = a) ∨
      ∃ t zstMembers, a.tar = some t ∧ sealSkipExistingZstEquivalent a env = some (false, zstMembers) ∧
        (atomicSealTarToZst a env).replaced = true ∧ (atomicSealTarToZst a env).archives.zst = some t ∧
        sealRefused (existingMembers a env zstMembers) (memberMap t) = false := by
  unfold atomicSealTarToZst
  cases htar : a.tar with
  | none =>
      simp only
      split
      all_goals exact Or.inl ⟨rfl, rfl⟩
  | some t =>
      simp only
      split_ifs with hzstd
      · exact Or.inl ⟨rfl, rfl⟩
      · split
        · exact Or.inl ⟨rfl, rfl⟩
        · exact Or.inl ⟨rfl, rfl⟩
        · rename_i zstMembers hskip
          rcases sealUnderLock_cases a env t zstMembers with h | ⟨hrep, hzst, hguard⟩
          · exact Or.inl h
          · exact Or.inr ⟨t, zstMembers, rfl, hskip, hrep, hzst, hguard⟩

/-! ## When a call goes through -/

/-- The skip check finds the sealed archive equal to what it knows of the tar. -/
def Skips (z t : Content) (env : SealEnv) : Prop :=
  env.zstdTest = .passed ∧ env.scanReadable = true ∧
    mapsEquivalent (memberMap z) (getExistingArchiveMembers env t) = true

/-- The shrink guard lets the tar pass. -/
def GuardPasses (z t : Content) (env : SealEnv) : Prop :=
  ZstMapRead env → NoShrink (memberMap z) (memberMap t)

/-- Every step under the lock succeeds. -/
def StepsDone (env : SealEnv) : Prop :=
  env.tarLocked = true ∧ env.tarListed = true ∧ env.tarVerified = .passed ∧ env.compressed = true ∧
    env.tmpTested = true ∧ env.moved = true

/-- The call for a tar that is there ends with a snapshot. -/
def GoesThrough (t : Content) (zst : Option Content) (env : SealEnv) : Prop :=
  env.zstdOnPath = true ∧ (∀ z, zst = some z → env.zstdTest ≠ .raised) ∧
    ((∃ z, zst = some z ∧ Skips z t env) ∨
      (StepsDone env ∧ ∀ z, zst = some z → GuardPasses z t env))

/-- The answer of the skip check for a tar and a sealed archive that are both there. -/
theorem skip_cases (z t : Content) (env : SealEnv) :
    (env.zstdTest = .raised ∧ sealSkipExistingZstEquivalent ⟨some t, some z⟩ env = none) ∨
      (Skips z t env ∧ sealSkipExistingZstEquivalent ⟨some t, some z⟩ env = some (true, some (memberMap z))) ∨
      (env.zstdTest ≠ .raised ∧ ¬ Skips z t env ∧
        ∃ zstMembers, sealSkipExistingZstEquivalent ⟨some t, some z⟩ env = some (false, zstMembers)) := by
  unfold sealSkipExistingZstEquivalent Skips
  cases htest : env.zstdTest with
  | raised => exact Or.inl ⟨rfl, rfl⟩
  | refused =>
      refine Or.inr (Or.inr ⟨by decide, ?_, none, rfl⟩)
      rintro ⟨h, -⟩
      cases h
  | passed =>
      simp only
      split_ifs with hscan hmaps
      · refine Or.inr (Or.inr ⟨by decide, ?_, none, rfl⟩)
        rintro ⟨-, h, -⟩
        rw [hscan] at h
        cases h
      · exact Or.inr (Or.inl ⟨⟨trivial, Bool.eq_true_of_not_eq_false hscan, hmaps⟩, rfl⟩)
      · refine Or.inr (Or.inr ⟨by decide, ?_, _, rfl⟩)
        rintro ⟨-, -, h⟩
        exact hmaps h

/-- The guard, as the skip check leaves it, lets a tar pass when `GuardPasses`. -/
theorem sealRefused_iff {z t : Content} {env : SealEnv} {skipped : Bool} {zstMembers : Option MemberMap}
    (h : sealSkipExistingZstEquivalent ⟨some t, some z⟩ env = some (skipped, zstMembers)) :
    sealRefused (existingMembers ⟨some t, some z⟩ env zstMembers) (memberMap t) = false ↔
      GuardPasses z t env := by
  unfold GuardPasses
  rcases existingMembers_cases h with ⟨hread, hmembers⟩ | ⟨hread, hmembers⟩
  · rw [hmembers, sealRefused_eq_false]
    exact ⟨fun hns _ => hns, fun hns => hns hread⟩
  · rw [hmembers]
    exact iff_of_true rfl fun h => absurd h hread

/-- Under the lock, with the guard's answer as a condition. -/
theorem sealUnderLock_spec (a : Archives) (env : SealEnv) (t : Content) (zstMembers : Option MemberMap) :
    ((StepsDone env ∧ sealRefused (existingMembers a env zstMembers) (memberMap t) = false) ∧
        sealUnderLock a env t zstMembers =
          ⟨dropTar { a with zst := some t } env, true, .returned (some (memberMap t))⟩) ∨
      (¬ (StepsDone env ∧ sealRefused (existingMembers a env zstMembers) (memberMap t) = false) ∧
        ∃ outcome, (outcome = .raised ∨ outcome = .returned none) ∧
          sealUnderLock a env t zstMembers = ⟨a, false, outcome⟩) := by
  unfold sealUnderLock StepsDone
  by_cases hlock : env.tarLocked = false ∨ env.tarListed = false
  · rw [if_pos hlock]
    refine Or.inr ⟨?_, _, Or.inl rfl, rfl⟩
    rintro ⟨⟨h1, h2, -⟩, -⟩
    rw [h1, h2] at hlock
    simp at hlock
  · rw [if_neg hlock]
    obtain ⟨hlocked, hlisted⟩ := not_or.mp hlock
    cases hguard : sealRefused (existingMembers a env zstMembers) (memberMap t) with
    | true => exact Or.inr ⟨fun h => absurd h.2 (by decide), _, Or.inr rfl, rfl⟩
    | false =>
        simp only [Bool.false_eq_true, if_false]
        cases hverify : env.tarVerified with
        | refused => exact Or.inr ⟨fun h => absurd h.1.2.2.1 (by decide), _, Or.inr rfl, rfl⟩
        | raised => exact Or.inr ⟨fun h => absurd h.1.2.2.1 (by decide), _, Or.inl rfl, rfl⟩
        | passed =>
            unfold compressAndReplace
            simp only
            split_ifs with hsteps
            · refine Or.inr ⟨?_, _, Or.inl rfl, rfl⟩
              rintro ⟨⟨-, -, -, h1, h2, h3⟩, -⟩
              rw [h1, h2, h3] at hsteps
              simp at hsteps
            · rw [not_or, not_or] at hsteps
              obtain ⟨h1, h2, h3⟩ := hsteps
              exact Or.inl ⟨⟨⟨Bool.eq_true_of_not_eq_false hlocked, Bool.eq_true_of_not_eq_false hlisted, trivial,
                Bool.eq_true_of_not_eq_false h1, Bool.eq_true_of_not_eq_false h2,
                Bool.eq_true_of_not_eq_false h3⟩, trivial⟩, rfl⟩

/-- **A call for a tar that is there.**  It goes through, and leaves both archives as they are
because they agree or puts the tar in the place of the sealed archive; or it does not, and nothing
is changed. -/
theorem goesThrough_spec (t : Content) (zst : Option Content) (env : SealEnv) :
    (GoesThrough t zst env ∧ ∃ d replaced archives,
        atomicSealTarToZst ⟨some t, zst⟩ env = ⟨archives, replaced, .returned (some d)⟩ ∧
        ((∃ z, zst = some z ∧ Skips z t env ∧ archives = ⟨some t, zst⟩) ∨
          archives = dropTar ⟨some t, some t⟩ env)) ∨
      (¬ GoesThrough t zst env ∧ ∃ outcome, (outcome = .raised ∨ outcome = .returned none) ∧
        atomicSealTarToZst ⟨some t, zst⟩ env = ⟨⟨some t, zst⟩, false, outcome⟩) := by
  unfold atomicSealTarToZst GoesThrough
  simp only
  by_cases hpath : env.zstdOnPath = false
  · rw [if_pos hpath]
    refine Or.inr ⟨fun h => ?_, _, Or.inl rfl, rfl⟩
    rw [hpath] at h
    exact absurd h.1 (by decide)
  · rw [if_neg hpath]
    have hzstd : env.zstdOnPath = true := Bool.eq_true_of_not_eq_false hpath
    cases zst with
    | none =>
        have hskip : sealSkipExistingZstEquivalent ⟨some t, none⟩ env = some (false, none) := rfl
        rw [hskip]
        simp only
        rcases sealUnderLock_spec ⟨some t, none⟩ env t none with ⟨⟨hsteps, -⟩, h⟩ | ⟨hnot, outcome, hout, h⟩
        · rw [h]
          refine Or.inl ⟨⟨hzstd, fun z hz => ?_, Or.inr ⟨hsteps, fun z hz => ?_⟩⟩, _, _, _, rfl, Or.inr rfl⟩
          all_goals cases hz
        · rw [h]
          refine Or.inr ⟨?_, outcome, hout, rfl⟩
          rintro ⟨-, -, ⟨z, hz, -⟩ | ⟨hsteps, -⟩⟩
          · cases hz
          · exact hnot ⟨hsteps, rfl⟩
    | some z =>
        simp only [Option.some.injEq, forall_eq', exists_eq_left']
        rcases skip_cases z t env with ⟨hraised, hskip⟩ | ⟨hskips, hskip⟩ | ⟨hraised, hskips, d, hskip⟩
        · rw [hskip]
          exact Or.inr ⟨fun h => h.2.1 hraised, _, Or.inl rfl, rfl⟩
        · rw [hskip]
          have htest : env.zstdTest ≠ .raised := by
            rw [hskips.1]
            decide
          exact Or.inl ⟨⟨hzstd, htest, Or.inl hskips⟩, _, _, _, rfl, Or.inl ⟨hskips, rfl⟩⟩
        · rw [hskip]
          simp only
          rcases sealUnderLock_spec ⟨some t, some z⟩ env t d with ⟨⟨hsteps, hguard⟩, h⟩ | ⟨hnot, outcome, hout, h⟩
          · rw [h]
            exact Or.inl ⟨⟨hzstd, hraised, Or.inr ⟨hsteps, (sealRefused_iff hskip).mp hguard⟩⟩, _, _, _, rfl,
              Or.inr rfl⟩
          · rw [h]
            refine Or.inr ⟨?_, outcome, hout, rfl⟩
            rintro ⟨-, -, h | ⟨hsteps, hguard⟩⟩
            · exact hskips h
            · exact hnot ⟨hsteps, (sealRefused_iff hskip).mpr hguard⟩

/-! ## The law of the seal -/

/-- The law that the claim of a safe seal asks for: a replacement keeps every sealed member, and
without a replacement nothing changes. -/
def SealKeeps (a : Archives) (env : SealEnv) : Prop :=
  ((atomicSealTarToZst a env).replaced = true → ∀ old new, a.zst = some old →
      (atomicSealTarToZst a env).archives.zst = some new → Kept old new) ∧
    ((atomicSealTarToZst a env).replaced = false → (atomicSealTarToZst a env).archives = a)

/-- **The seal as it is.**  A replaced sealed archive holds the members of the open tar.  Where the
sealed map could be read it has no fewer names and no fewer bytes than before, and when the tar adds
nothing to the sealed archive every sealed member is kept.  A call that does not replace changes
nothing. -/
theorem seal_guarded (a : Archives) (env : SealEnv) :
    ((atomicSealTarToZst a env).replaced = true → ∃ new, a.tar = some new ∧
        (atomicSealTarToZst a env).archives.zst = some new ∧
        ∀ old, a.zst = some old → ZstMapRead env →
          NoShrink (memberMap old) (memberMap new) ∧ (Kept new old → Kept old new)) ∧
      ((atomicSealTarToZst a env).replaced = false → (atomicSealTarToZst a env).archives = a) := by
  rcases seal_cases a env with ⟨hrep, hsame⟩ | ⟨t, zstMembers, htar, hskip, hrep, hzst, hguard⟩
  · refine ⟨fun h => ?_, fun _ => hsame⟩
    rw [hrep] at h
    cases h
  · refine ⟨fun _ => ⟨t, htar, hzst, fun old hold hread => ?_⟩, fun h => ?_⟩
    · obtain rfl : a = ⟨some t, some old⟩ := by
        rw [← htar, ← hold]
      rw [(existingMembers_cases hskip).resolve_right (fun h => h.1 hread) |>.2] at hguard
      have hns : NoShrink (memberMap old) (memberMap t) := sealRefused_eq_false.mp hguard
      exact ⟨hns, fun hadds => kept_of_noShrink hadds hns⟩
    · rw [hrep] at h
      cases h

/-- A call in which every step succeeds. -/
def quietEnv : SealEnv where
  zstdOnPath := true
  zstdTest := .passed
  scanReadable := true
  cachedMembers := none
  tarReadable := true
  tarLocked := true
  tarListed := true
  rescanReadable := true
  tarVerified := .passed
  compressed := true
  tmpTested := true
  moved := true
  keepUncompressedTar := false
  forceRemoveUncompressedTar := false
  rawOnDisk := false
  tarRemoved := true

/-- **Another name of the same size passes the guard.**  The sealed archive holds `a` with ten
bytes, the tar holds `b` with ten bytes: one name and ten bytes on both sides, so the seal
replaces the archive and `a` is gone. -/
theorem not_sealKeeps_of_other_name :
    ¬ SealKeeps ⟨some [("b", 10)], some [("a", 10)]⟩ quietEnv := by
  intro h
  have hkept : Kept [("a", 10)] [("b", 10)] :=
    h.1 (by decide) [("a", 10)] [("b", 10)] rfl (by decide)
  obtain ⟨size, hmem, -⟩ := hkept ("a", 10) List.mem_cons_self
  rw [List.mem_singleton, Prod.mk.injEq] at hmem
  exact absurd hmem.1 (by decide)

end SealGuard
