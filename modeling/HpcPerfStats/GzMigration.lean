/-
# Migrating a legacy gzip archive (`migrate_one_daily_legacy_gz`)

A day may have a legacy `.tar.gz` beside an open `.tar` and a sealed `.tar.zst`.  The migration seals the tar
and removes the gzip when the sealed archive holds its members; the dry run predicts the status.  Nothing else
runs, no command fails and no archive is unreadable.

The migration holds the write lock of the tar, or of the gzip where there is no tar, and
`atomic_seal_tar_to_zst` takes the write lock of the tar again.  `TarLock` follows that lock: a second acquire
times out.  The one way past it goes through `get_existing_archive_members`, whose read lock times out first and
which then removes the sidecar of the lock that is held; whether a second acquire passes after that is a field
of `MigrateEnv`.

* `plannedMigrateActionForLegacyGz` and `migrateOneDailyLegacyGz` are the two decision trees
* `sealAndDrop_free` and `sealAndDrop_held` say what sealing does without and under the lock
* `dryRun_agrees_iff`: the files for which the dry run predicts the status
-/
import HpcPerfStats.SealGuard

namespace GzMigration

open ArchiveMembers DailyArchive SealGuard

/-! ## Files, options and locks -/

/-- The archives of a day. -/
structure DayFiles where
  gz : Option Content
  tar : Option Content
  zst : Option Content
  deriving DecidableEq, Repr

/-- `MIGRATE_GZ_STATUS_*`. -/
inductive MigrateStatus where
  | converted
  | droppedOnly
  | skippedLocked
  | skippedNoGz
  | failed
  | keptMismatch
  deriving DecidableEq, Repr

/-- What a call is given and meets. -/
structure MigrateEnv where
  /-- the tar is newer than the sealed archive -/
  tarNewer : Bool
  /-- the entry of the members cache for the day -/
  cachedMembers : Option MemberMap
  /-- a second acquire passes once the sidecar of the lock is gone -/
  reenters : Bool
  /-- `decompress_tmp_dir` is given -/
  decompressTmpDir : Bool
  keepUncompressedTar : Bool
  forceRemoveUncompressedTar : Bool
  /-- `remaining_raw_by_gz_has_paths_on_disk` -/
  rawOnDisk : Bool
  deriving DecidableEq, Repr

/-- The write lock of the tar. -/
inductive TarLock where
  | free
  | held
  /-- held, its sidecar removed -/
  | orphaned
  deriving DecidableEq, Repr

/-- `file_write_lock(tar_path)` does not time out. -/
def TarLock.acquires (env : MigrateEnv) : TarLock → Bool
  | .free => true
  | .held => false
  | .orphaned => env.reenters

/-- The lock behind `_seal_skip_existing_zst_equivalent`: the read lock that `get_existing_archive_members` asks
for times out when the tar is locked, and its sidecar is removed. -/
def TarLock.afterSkipCheck (env : MigrateEnv) (zst : Option Content) : TarLock → TarLock
  | .held => if zst.isSome ∧ env.cachedMembers = none then .orphaned else .held
  | lock => lock

/-- `is_daily_tar_sealed_dirty`, with a gzip that is there. -/
def isDailyTarSealedDirty (files : DayFiles) (env : MigrateEnv) : Bool :=
  files.tar.isSome && (files.zst.isNone || env.tarNewer)

/-- What sealing meets: every command succeeds, locks may not be granted. -/
def sealEnv (env : MigrateEnv) (lock : TarLock) (zst : Option Content) : SealEnv where
  zstdOnPath := true
  zstdTest := .passed
  scanReadable := true
  cachedMembers := env.cachedMembers
  tarReadable := decide (lock = .free)
  tarLocked := (lock.afterSkipCheck env zst).acquires env
  tarListed := true
  rescanReadable := true
  tarVerified := .passed
  compressed := true
  tmpTested := true
  moved := true
  keepUncompressedTar := env.keepUncompressedTar
  forceRemoveUncompressedTar := env.forceRemoveUncompressedTar
  rawOnDisk := env.rawOnDisk
  tarRemoved := true

/-! ## The functions of the source -/

/-- `compare_compressed_archive_members`, of readable archives. -/
def compareCompressedArchiveMembers (gz : Content) (zstMembers : MemberMap) : Bool :=
  containedIn (memberMap gz) zstMembers

/-- `drop_legacy_gz_if_equivalent_to_zst`; the sealed map is given or read. -/
def dropLegacyGzIfEquivalentToZst (files : DayFiles) (zstMembers : Option MemberMap) : DayFiles :=
  match files.gz, files.zst with
  | some gz, some zst =>
      if compareCompressedArchiveMembers gz (zstMembers.getD (memberMap zst)) then { files with gz := none }
      else files
  | _, _ => files

/-- `_planned_migrate_action_for_legacy_gz`. -/
def plannedMigrateActionForLegacyGz (files : DayFiles) (env : MigrateEnv) : MigrateStatus :=
  match files.gz with
  | none => .skippedNoGz
  | some gz =>
      match files.zst with
      | some zst =>
          if compareCompressedArchiveMembers gz (memberMap zst) then .droppedOnly
          else if isDailyTarSealedDirty files env then .converted
          else .keptMismatch
      | none => .converted

/-- `_seal_and_drop`: a tar with this content is sealed; its lock is held by the caller, or free.  A lock that
is not granted raises `TimeoutError`, which only the caller of the migration catches. -/
def sealAndDrop (files : DayFiles) (env : MigrateEnv) (lock : TarLock) (tar : Content) :
    MigrateStatus × DayFiles :=
  let sealed := atomicSealTarToZst ⟨some tar, files.zst⟩ (sealEnv env lock files.zst)
  let files₁ := { files with tar := sealed.archives.tar, zst := sealed.archives.zst }
  match sealed.outcome with
  | .raised => (.skippedLocked, files₁)
  | .returned zstMembers =>
      let files₂ := dropLegacyGzIfEquivalentToZst files₁ zstMembers
      (if files₂.gz.isSome then .keptMismatch else .converted, files₂)

/-- `_migrate_one_daily_legacy_gz_locked`. -/
def migrateOneDailyLegacyGzLocked (files : DayFiles) (env : MigrateEnv) : MigrateStatus × DayFiles :=
  match files.gz with
  | none => (.skippedNoGz, files)
  | some gz =>
      match files.zst, files.tar with
      | some zst, tar =>
          if compareCompressedArchiveMembers gz (memberMap zst) then
            let files₁ := dropLegacyGzIfEquivalentToZst files (some (memberMap zst))
            (if files₁.gz.isSome then .keptMismatch else .droppedOnly, files₁)
          else
            match tar with
            | some t =>
                if isDailyTarSealedDirty files env then sealAndDrop files env .held t else (.keptMismatch, files)
            | none => (.keptMismatch, files)
      | none, some tar => sealAndDrop files env .held tar
      | none, none =>
          -- the gzip is locked, not the tar that it is decompressed to
          let result := sealAndDrop files env .free gz
          (result.1, if env.decompressTmpDir then { result.2 with tar := none } else result.2)

/-- `migrate_one_daily_legacy_gz`. -/
def migrateOneDailyLegacyGz (files : DayFiles) (env : MigrateEnv) (dryRun : Bool) : MigrateStatus × DayFiles :=
  if dryRun then (plannedMigrateActionForLegacyGz files env, files)
  else if files.gz.isNone then (.skippedNoGz, files)
  else migrateOneDailyLegacyGzLocked files env

/-! ## Members and maps -/

/-- Every member of the first archive is in the second with the same size. -/
def Contains (old new : Content) : Prop :=
  ∀ name size, largest old name = some size → largest new name = some size

theorem compare_iff {gz zst : Content} :
    compareCompressedArchiveMembers gz (memberMap zst) = true ↔ Contains gz zst := by
  unfold compareCompressedArchiveMembers containedIn
  rw [List.all_eq_true]
  constructor
  · intro h name size hsize
    rw [← lookup_memberMap] at hsize
    have hentry := h (name, size) (PyDict.mem_of_lookup hsize)
    rw [← lookup_memberMap]
    exact eq_of_beq hentry
  · intro h e he
    have hsize : largest gz e.1 = some e.2 := by
      rw [← lookup_memberMap]
      exact PyDict.lookup_of_mem (nodup_memberMap gz) he
    rw [lookup_memberMap, h e.1 e.2 hsize]
    exact beq_self_eq_true _

theorem contains_self (c : Content) : Contains c c := fun _ _ h => h

theorem drop_eq (gz zst : Content) (tar : Option Content) {zstMembers : Option MemberMap}
    (hmembers : ∀ d ∈ zstMembers, d = memberMap zst) :
    (Contains gz zst → dropLegacyGzIfEquivalentToZst ⟨some gz, tar, some zst⟩ zstMembers = ⟨none, tar, some zst⟩) ∧
      (¬ Contains gz zst →
        dropLegacyGzIfEquivalentToZst ⟨some gz, tar, some zst⟩ zstMembers = ⟨some gz, tar, some zst⟩) := by
  have hget : zstMembers.getD (memberMap zst) = memberMap zst := by
    cases zstMembers with
    | none => rfl
    | some d => exact hmembers d rfl
  unfold dropLegacyGzIfEquivalentToZst
  dsimp only
  rw [hget, ← compare_iff]
  exact ⟨fun h => if_pos h, fun h => if_neg h⟩

/-! ## What sealing does -/

/-- What comes of a seal that has returned. -/
theorem sealAndDrop_returned {files : DayFiles} {env : MigrateEnv} {lock : TarLock} {tar gz zst : Content}
    {archives : Archives} {replaced : Bool} {zstMembers : Option MemberMap} (hgz : files.gz = some gz)
    (hseal : atomicSealTarToZst ⟨some tar, files.zst⟩ (sealEnv env lock files.zst) =
      ⟨archives, replaced, .returned zstMembers⟩)
    (hzst : archives.zst = some zst) (hmembers : ∀ d ∈ zstMembers, d = memberMap zst) :
    (Contains gz zst → sealAndDrop files env lock tar = (.converted, ⟨none, archives.tar, some zst⟩)) ∧
      (¬ Contains gz zst → sealAndDrop files env lock tar = (.keptMismatch, ⟨some gz, archives.tar, some zst⟩)) := by
  unfold sealAndDrop
  rw [hseal]
  dsimp only
  rw [hgz, hzst]
  obtain ⟨hdropped, hkept⟩ := drop_eq gz zst archives.tar hmembers
  constructor
  · intro h
    rw [hdropped h]
    rfl
  · intro h
    rw [hkept h]
    rfl

/-- Sealing a tar that nobody has locked, without a sealed archive. -/
theorem sealAndDrop_free (files : DayFiles) {gz : Content} (hgz : files.gz = some gz) (hzst : files.zst = none)
    (env : MigrateEnv) : ∃ tar, sealAndDrop files env .free gz = (.converted, ⟨none, tar, some gz⟩) := by
  have hseal : atomicSealTarToZst ⟨some gz, files.zst⟩ (sealEnv env .free files.zst) =
      ⟨dropTar ⟨some gz, some gz⟩ (sealEnv env .free files.zst), true, .returned (some (memberMap gz))⟩ := by
    rw [hzst]
    rfl
  exact ⟨_, (sealAndDrop_returned hgz hseal (dropTar_zst _ _) fun d hd => (Option.some.inj hd).symm).1
    (contains_self gz)⟩

/-- Without a sealed archive the second acquire times out. -/
theorem sealAndDrop_held_none (files : DayFiles) {tar : Content} (hzst : files.zst = none) (env : MigrateEnv) :
    sealAndDrop files env .held tar = (.skippedLocked, { files with tar := some tar, zst := none }) := by
  have hseal : atomicSealTarToZst ⟨some tar, files.zst⟩ (sealEnv env .held files.zst) =
      ⟨⟨some tar, none⟩, false, .raised⟩ := by
    rw [hzst]
    rfl
  unfold sealAndDrop
  rw [hseal]

/-- Sealing passes the lock a second time, and puts an archive that has the gzip's members in place. -/
def SealsTwice (gz tar zst : Content) (env : MigrateEnv) : Prop :=
  env.reenters = true ∧ env.cachedMembers = none ∧ zst ≠ [] ∧ NoShrink (memberMap zst) (memberMap tar) ∧
    Contains gz tar

theorem mapsEquivalent_nil_iff {zst : Content} : mapsEquivalent (memberMap zst) [] = true ↔ zst = [] := by
  constructor
  · intro h
    cases zst with
    | nil => rfl
    | cons e zst =>
        have hlookup := lookup_eq_of_mapsEquivalent h e.1
        rw [lookup_memberMap, largest_cons, if_pos rfl, List.lookup_nil] at hlookup
        cases hl : largest zst e.1 <;> rw [hl] at hlookup <;> cases hlookup
  · rintro rfl
    rfl

/-- The answer of the skip check under the lock: without a cached map it knows nothing of the tar. -/
theorem skip_held (tar zst : Content) (env : MigrateEnv) :
    sealSkipExistingZstEquivalent ⟨some tar, some zst⟩ (sealEnv env .held (some zst)) =
      some (mapsEquivalent (memberMap zst) (env.cachedMembers.getD []), some (memberMap zst)) := by
  have hmembers : getExistingArchiveMembers (sealEnv env .held (some zst)) tar = env.cachedMembers.getD [] := by
    unfold getExistingArchiveMembers sealEnv
    cases env.cachedMembers <;> rfl
  have hskip : sealSkipExistingZstEquivalent ⟨some tar, some zst⟩ (sealEnv env .held (some zst)) =
      if mapsEquivalent (memberMap zst) (getExistingArchiveMembers (sealEnv env .held (some zst)) tar) then
        some (true, some (memberMap zst))
      else some (false, some (memberMap zst)) := rfl
  rw [hskip, hmembers]
  cases mapsEquivalent (memberMap zst) (env.cachedMembers.getD []) <;> rfl

/-- The second acquire: it passes only behind a read lock that has timed out. -/
theorem acquires_held {env : MigrateEnv} {zst : Content} :
    (TarLock.held.afterSkipCheck env (some zst)).acquires env = true ↔
      env.reenters = true ∧ env.cachedMembers = none := by
  unfold TarLock.afterSkipCheck
  by_cases hcached : env.cachedMembers = none
  · rw [if_pos ⟨rfl, hcached⟩]
    exact ⟨fun h => ⟨h, hcached⟩, fun h => h.1⟩
  · rw [if_neg fun h => hcached h.2]
    exact ⟨fun h => (by cases h), fun h => absurd h.2 hcached⟩

/-- With the lock acquired again and a tar that may replace the archive, the tar is sealed and dropped. -/
theorem sealUnderLock_seals {env : MigrateEnv} {tar zst : Content}
    (hacquired : (sealEnv env .held (some zst)).tarLocked = true) (hguard : NoShrink (memberMap zst) (memberMap tar)) :
    sealUnderLock ⟨some tar, some zst⟩ (sealEnv env .held (some zst)) tar (some (memberMap zst)) =
      ⟨dropTar ⟨some tar, some tar⟩ (sealEnv env .held (some zst)), true, .returned (some (memberMap tar))⟩ := by
  unfold sealUnderLock
  rw [if_neg (by rw [hacquired]; rintro (h | h) <;> cases h)]
  have hpasses : sealRefused (existingMembers ⟨some tar, some zst⟩ (sealEnv env .held (some zst))
      (some (memberMap zst))) (memberMap tar) = false := sealRefused_eq_false.mpr hguard
  rw [hpasses]
  rfl

/-- With the lock acquired again and a tar that would shrink the archive, nothing changes. -/
theorem sealUnderLock_refuses {env : MigrateEnv} {tar zst : Content}
    (hacquired : (sealEnv env .held (some zst)).tarLocked = true)
    (hguard : ¬ NoShrink (memberMap zst) (memberMap tar)) :
    sealUnderLock ⟨some tar, some zst⟩ (sealEnv env .held (some zst)) tar (some (memberMap zst)) =
      ⟨⟨some tar, some zst⟩, false, .returned none⟩ := by
  unfold sealUnderLock
  rw [if_neg (by rw [hacquired]; rintro (h | h) <;> cases h)]
  have hrefused : sealRefused (existingMembers ⟨some tar, some zst⟩ (sealEnv env .held (some zst))
      (some (memberMap zst))) (memberMap tar) = true :=
    Bool.eq_true_of_not_eq_false fun h => hguard (sealRefused_eq_false.mp h)
  rw [hrefused]
  rfl

/-- **Sealing under the lock, over a sealed archive that lacks a member of the gzip**: it converts exactly when it
passes the lock twice, and it removes the gzip only then. -/
theorem sealAndDrop_held (files : DayFiles) {gz tar zst : Content} (hgz : files.gz = some gz)
    (hzst : files.zst = some zst) (env : MigrateEnv) (hlacks : ¬ Contains gz zst) :
    (SealsTwice gz tar zst env ∧ ∃ left, sealAndDrop files env .held tar = (.converted, ⟨none, left, some tar⟩)) ∨
      (¬ SealsTwice gz tar zst env ∧ (sealAndDrop files env .held tar).1 ≠ .converted ∧
        (sealAndDrop files env .held tar).2.gz = some gz) := by
  by_cases hskip : mapsEquivalent (memberMap zst) (env.cachedMembers.getD []) = true
  · -- the seal is skipped, and the gzip is compared with the sealed map again
    have hseal : atomicSealTarToZst ⟨some tar, files.zst⟩ (sealEnv env .held files.zst) =
        ⟨⟨some tar, some zst⟩, false, .returned (some (memberMap zst))⟩ := by
      rw [hzst]
      unfold atomicSealTarToZst
      rw [skip_held, hskip]
      rfl
    have hkept := (sealAndDrop_returned hgz hseal rfl fun d hd => (Option.some.inj hd).symm).2 hlacks
    refine Or.inr ⟨?_, (by rw [hkept]; rintro ⟨⟩), by rw [hkept]⟩
    rintro ⟨-, hcached, hmember, -⟩
    rw [hcached, Option.getD_none, mapsEquivalent_nil_iff] at hskip
    exact hmember hskip
  · have hlocked : atomicSealTarToZst ⟨some tar, files.zst⟩ (sealEnv env .held files.zst) =
        sealUnderLock ⟨some tar, some zst⟩ (sealEnv env .held (some zst)) tar (some (memberMap zst)) := by
      rw [hzst]
      unfold atomicSealTarToZst
      rw [skip_held, Bool.eq_false_iff.mpr hskip]
      rfl
    by_cases hlock : env.reenters = true ∧ env.cachedMembers = none
    · have hmember : zst ≠ [] := by
        rintro rfl
        rw [hlock.2] at hskip
        exact hskip rfl
      have hacquired : (sealEnv env .held (some zst)).tarLocked = true := acquires_held.mpr hlock
      by_cases hguard : NoShrink (memberMap zst) (memberMap tar)
      · have hseal := hlocked.trans (sealUnderLock_seals hacquired hguard)
        obtain ⟨hyes, hno⟩ := sealAndDrop_returned hgz hseal (dropTar_zst _ _) fun d hd => (Option.some.inj hd).symm
        by_cases hcontains : Contains gz tar
        · exact Or.inl ⟨⟨hlock.1, hlock.2, hmember, hguard, hcontains⟩, _, hyes hcontains⟩
        · refine Or.inr ⟨fun h => hcontains h.2.2.2.2, ?_, ?_⟩
          · rw [hno hcontains]
            rintro ⟨⟩
          · rw [hno hcontains]
      · have hseal := hlocked.trans (sealUnderLock_refuses hacquired hguard)
        have hkept := (sealAndDrop_returned hgz hseal rfl fun d hd => (by cases hd)).2 hlacks
        refine Or.inr ⟨fun h => hguard h.2.2.2.1, (by rw [hkept]; rintro ⟨⟩), by rw [hkept]⟩
    · -- the second acquire of the lock times out
      have hacquired : (sealEnv env .held (some zst)).tarLocked = false :=
        Bool.eq_false_iff.mpr fun h => hlock (acquires_held.mp h)
      have hseal : sealUnderLock ⟨some tar, some zst⟩ (sealEnv env .held (some zst)) tar (some (memberMap zst)) =
          ⟨⟨some tar, some zst⟩, false, .raised⟩ := by
        unfold sealUnderLock
        rw [if_pos (Or.inl hacquired)]
      have hresult : sealAndDrop files env .held tar = (.skippedLocked, ⟨files.gz, some tar, some zst⟩) := by
        unfold sealAndDrop
        rw [hlocked, hseal]
      refine Or.inr ⟨fun h => hlock ⟨h.1, h.2.1⟩, (by rw [hresult]; rintro ⟨⟩), by rw [hresult]; exact hgz⟩

/-! ## The dry run -/

/-- **What a migration is to do**: end as its dry run says, and remove the gzip only when the sealed archive that
is left has every member of it with the same size. -/
structure Agrees (files : DayFiles) (env : MigrateEnv) : Prop where
  status : (migrateOneDailyLegacyGz files env false).1 = (migrateOneDailyLegacyGz files env true).1
  removal : ∀ gz, files.gz = some gz → (migrateOneDailyLegacyGz files env false).2.gz = none →
    ∃ zst, (migrateOneDailyLegacyGz files env false).2.zst = some zst ∧ Contains gz zst

/-- No open tar has to be sealed for the gzip, or sealing passes the lock twice. -/
def Predictable (files : DayFiles) (env : MigrateEnv) : Prop :=
  ∀ gz tar, files.gz = some gz → files.tar = some tar →
    ∃ zst, files.zst = some zst ∧ (Contains gz zst ∨ env.tarNewer = false ∨ SealsTwice gz tar zst env)

theorem migrate_run (gz : Content) (tar zst : Option Content) (env : MigrateEnv) :
    migrateOneDailyLegacyGz ⟨some gz, tar, zst⟩ env false = migrateOneDailyLegacyGzLocked ⟨some gz, tar, zst⟩ env := rfl

theorem migrate_dry (files : DayFiles) (env : MigrateEnv) :
    (migrateOneDailyLegacyGz files env true).1 = plannedMigrateActionForLegacyGz files env := rfl

/-- With a sealed archive that holds the gzip's members the gzip is removed. -/
theorem migrate_contained {gz zst : Content} (tar : Option Content) (env : MigrateEnv) (h : Contains gz zst) :
    migrateOneDailyLegacyGz ⟨some gz, tar, some zst⟩ env false = (.droppedOnly, ⟨none, tar, some zst⟩) ∧
      (migrateOneDailyLegacyGz ⟨some gz, tar, some zst⟩ env true).1 = .droppedOnly := by
  have hcompare := compare_iff.mpr h
  have hdrop := (drop_eq gz zst tar fun d hd => (Option.some.inj hd).symm).1 h
  constructor
  · rw [migrate_run]
    unfold migrateOneDailyLegacyGzLocked
    dsimp only
    rw [if_pos hcompare, hdrop]
    rfl
  · rw [migrate_dry]
    unfold plannedMigrateActionForLegacyGz
    dsimp only
    rw [if_pos hcompare]

/-- With a sealed archive that lacks a member, a tar that is newer is sealed and else nothing is done. -/
theorem migrate_lacking {gz zst : Content} (tar : Option Content) (env : MigrateEnv) (h : ¬ Contains gz zst) :
    migrateOneDailyLegacyGz ⟨some gz, tar, some zst⟩ env false =
        (match tar with
        | some t => if env.tarNewer then sealAndDrop ⟨some gz, some t, some zst⟩ env .held t
            else (.keptMismatch, ⟨some gz, some t, some zst⟩)
        | none => (.keptMismatch, ⟨some gz, none, some zst⟩)) ∧
      (migrateOneDailyLegacyGz ⟨some gz, tar, some zst⟩ env true).1 =
        if tar.isSome && env.tarNewer then .converted else .keptMismatch := by
  have hcompare : ¬ compareCompressedArchiveMembers gz (memberMap zst) = true := fun hc => h (compare_iff.mp hc)
  constructor
  · rw [migrate_run]
    unfold migrateOneDailyLegacyGzLocked
    dsimp only
    rw [if_neg hcompare]
    cases tar <;> rfl
  · rw [migrate_dry]
    unfold plannedMigrateActionForLegacyGz
    dsimp only
    rw [if_neg hcompare]
    rfl

/-- A sealed archive that holds the gzip's members: the gzip is redundant. -/
theorem agrees_of_contained {gz zst : Content} (tar : Option Content) (env : MigrateEnv) (h : Contains gz zst) :
    Agrees ⟨some gz, tar, some zst⟩ env ∧ Predictable ⟨some gz, tar, some zst⟩ env := by
  obtain ⟨hrun, hplan⟩ := migrate_contained tar env h
  refine ⟨⟨by rw [hrun, hplan], fun gz' hgz _ => ?_⟩, fun gz' tar' hgz _ => ?_⟩
  · cases hgz
    exact ⟨zst, by rw [hrun], h⟩
  · cases hgz
    exact ⟨zst, rfl, Or.inl h⟩

/-- A migration that does nothing, as planned. -/
theorem agrees_of_kept {gz zst : Content} {tar : Option Content} {env : MigrateEnv}
    (hrun : migrateOneDailyLegacyGz ⟨some gz, tar, some zst⟩ env false = (.keptMismatch, ⟨some gz, tar, some zst⟩))
    (hplan : (migrateOneDailyLegacyGz ⟨some gz, tar, some zst⟩ env true).1 = .keptMismatch) :
    Agrees ⟨some gz, tar, some zst⟩ env := by
  refine ⟨by rw [hrun, hplan], fun gz' _ hnone => ?_⟩
  rw [hrun] at hnone
  cases hnone

/-- A sealed archive that lacks a member, and a newer tar: it is sealed while its lock is held. -/
theorem agrees_iff_of_newer {gz zst : Content} (tar : Content) {env : MigrateEnv} (h : ¬ Contains gz zst)
    (hnewer : env.tarNewer = true) :
    Agrees ⟨some gz, some tar, some zst⟩ env ↔ Predictable ⟨some gz, some tar, some zst⟩ env := by
  obtain ⟨hrun, hplan⟩ := migrate_lacking (some tar) env h
  dsimp only at hrun
  rw [hnewer, if_pos rfl] at hrun
  rw [hnewer] at hplan
  rcases sealAndDrop_held ⟨some gz, some tar, some zst⟩ rfl rfl env h with
    ⟨htwice, left, hsealed⟩ | ⟨honce, hstatus, hkept⟩
  · rw [hsealed] at hrun
    refine iff_of_true ⟨by rw [hrun, hplan]; rfl, fun gz' hgz _ => ?_⟩ fun gz' tar' hgz htar => ?_
    · cases hgz
      exact ⟨tar, by rw [hrun], htwice.2.2.2.2⟩
    · cases hgz
      cases htar
      exact ⟨zst, rfl, Or.inr (Or.inr htwice)⟩
  · constructor
    · intro hagrees
      have hsame := hagrees.status
      rw [hrun, hplan] at hsame
      exact absurd hsame hstatus
    · intro hpredictable
      obtain ⟨zst', hzst, hcase⟩ := hpredictable gz tar rfl rfl
      cases hzst
      rcases hcase with hcontains | hold | htwice
      · exact absurd hcontains h
      · rw [hnewer] at hold
        cases hold
      · exact absurd htwice honce

theorem agrees_iff_of_lacking {gz zst : Content} (tar : Option Content) (env : MigrateEnv)
    (h : ¬ Contains gz zst) :
    Agrees ⟨some gz, tar, some zst⟩ env ↔ Predictable ⟨some gz, tar, some zst⟩ env := by
  obtain ⟨hrun, hplan⟩ := migrate_lacking tar env h
  cases tar with
  | none =>
      refine iff_of_true (agrees_of_kept hrun hplan) fun gz' tar' _ htar => ?_
      cases htar
  | some tar =>
      cases hnewer : env.tarNewer with
      | false =>
          rw [hnewer] at hrun hplan
          exact iff_of_true (agrees_of_kept hrun hplan) fun gz' tar' _ _ => ⟨zst, rfl, Or.inr (Or.inl hnewer)⟩
      | true => exact agrees_iff_of_newer tar h hnewer

/-- No sealed archive: the tar is to be sealed, and its lock is held. -/
theorem agrees_iff_of_unsealed (gz tar : Content) (env : MigrateEnv) :
    Agrees ⟨some gz, some tar, none⟩ env ↔ Predictable ⟨some gz, some tar, none⟩ env := by
  have hrun : migrateOneDailyLegacyGz ⟨some gz, some tar, none⟩ env false =
      (.skippedLocked, ⟨some gz, some tar, none⟩) := by
    rw [migrate_run]
    exact sealAndDrop_held_none ⟨some gz, some tar, none⟩ rfl env
  refine iff_of_false (fun h => ?_) fun h => ?_
  · have hsame := h.status
    rw [hrun] at hsame
    cases hsame
  · obtain ⟨zst, hzst, -⟩ := h gz tar rfl rfl
    cases hzst

/-- The gzip alone: it is decompressed, and the new tar is locked by nobody. -/
theorem agrees_of_alone (gz : Content) (env : MigrateEnv) : Agrees ⟨some gz, none, none⟩ env := by
  obtain ⟨left, hsealed⟩ := sealAndDrop_free ⟨some gz, none, none⟩ rfl rfl env
  have hrun : migrateOneDailyLegacyGz ⟨some gz, none, none⟩ env false =
      (.converted, if env.decompressTmpDir then ⟨none, none, some gz⟩ else ⟨none, left, some gz⟩) := by
    rw [migrate_run]
    unfold migrateOneDailyLegacyGzLocked
    dsimp only
    rw [hsealed]
  have hzst : (migrateOneDailyLegacyGz ⟨some gz, none, none⟩ env false).2.zst = some gz := by
    rw [hrun]
    cases env.decompressTmpDir <;> rfl
  refine ⟨by rw [hrun]; rfl, fun gz' hgz _ => ?_⟩
  cases hgz
  exact ⟨gz, hzst, contains_self gz⟩

/-- **The dry run predicts the migration exactly for these files.** -/
theorem dryRun_agrees_iff (files : DayFiles) (env : MigrateEnv) : Agrees files env ↔ Predictable files env := by
  obtain ⟨gz, tar, zst⟩ := files
  cases gz with
  | none => exact iff_of_true ⟨rfl, fun gz hgz => (by cases hgz)⟩ fun gz tar hgz => (by cases hgz)
  | some gz =>
      cases zst with
      | some zst =>
          by_cases hcontains : Contains gz zst
          · obtain ⟨hagrees, hpredictable⟩ := agrees_of_contained tar env hcontains
            exact iff_of_true hagrees hpredictable
          · exact agrees_iff_of_lacking tar env hcontains
      | none =>
          cases tar with
          | some tar => exact agrees_iff_of_unsealed gz tar env
          | none => exact iff_of_true (agrees_of_alone gz env) fun gz' tar' _ htar => (by cases htar)

/-- No cache, and a lock that is never taken twice. -/
def plainEnv : MigrateEnv := ⟨true, none, false, false, false, false, false⟩

/-- A gzip and the open tar it was made from: the dry run says `converted`, the migration is locked out by its own
lock. -/
theorem not_agrees : ¬ ∀ files : DayFiles, Agrees files plainEnv := by
  intro h
  have hsame := (h ⟨some [("c1/1700000000", 5)], some [("c1/1700000000", 5)], none⟩).status
  revert hsame
  decide

end GzMigration
