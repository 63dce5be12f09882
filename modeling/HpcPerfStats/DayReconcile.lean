/-
# Reconciling the open tar of a day with its sealed archive (`reconcile_open_tar_with_sealed_zst`)

One call verifies the open tar (and repairs it when GNU tar cannot read it to its end),
reads the two member maps, and then does nothing, seals the tar, or rebuilds the tar from
the union of the two maps and seals that.  The call runs alone; every step that may fail
is a field of `ReconcileEnv`, read in the order of the source.  Bookkeeping after a file
operation (cache invalidation, log lines) does not fail here, and a listing that is asked
for twice in one repair gives the same answer.

`get_mutable_tar_authority_member_map` raises only when `tar tvf` itself fails.  Every
other failure, a lock that is not granted in time for one, gives the EMPTY map, which is
also kept in the cache under the size and time of the file (`TarListing.swallowed`).  The
sealed archive is never empty at the decision, so the empty map looks like a tar that has
diverged: the tar is rebuilt from the sealed map alone.

An archive holds its members up to their largest size by name (`Covers`).  Main results:
`reconciles_iff` and `not_reconciles_of_swallowed`.
-/
import HpcPerfStats.SealGuard
import HpcPerfStats.TokenText

namespace DayReconcile

open ArchiveMembers SealGuard

/-! ## What a call meets -/

/-- What is wrong with the end of the open tar. -/
inductive Damage where
  | none
  /-- the archive ends wrongly behind the last member -/
  | trailer
  /-- behind the complete members there is one whose data are cut off -/
  | cutMember (m : Member) (bytes : ℕ)
  deriving DecidableEq, Repr

/-- What GNU tar lists of a damaged tar: a cut member with the size in its header. -/
def Damage.listed : Damage → Content → Content
  | .cutMember m _, c => c ++ [m]
  | _, c => c

/-- What GNU tar extracts of a damaged tar: a cut member with the bytes that are there. -/
def Damage.extracted : Damage → Content → Content
  | .cutMember m bytes, c => c ++ [(m.1, bytes)]
  | _, c => c

/-- How the member map of the readable tar is obtained. -/
inductive TarListing where
  | complete
  /-- a failure other than that of `tar tvf`, now or behind the map in the cache -/
  | swallowed
  /-- `tar tvf` failed behind `tvf` members; `tar tf` would fail behind `tf` members -/
  | cutOff (tvf tf : ℕ)
  deriving DecidableEq, Repr

/-- What a call of `reconcile_open_tar_with_sealed_zst` meets. -/
structure ReconcileEnv where
  /-- `verify_tar_archive_readable`: at the start, inside the repair, after it -/
  verifyFirst : Check
  verifyInRepair : Check
  verifyRepaired : Check
  /-- the members of an unreadable tar could be listed -/
  partlyListed : Bool
  /-- without such a listing: `tarfile` ends with an exception that is not caught -/
  tarfileRaises : Bool
  repairLocked : Bool
  freeSpace : Bool
  /-- `int(expected_bytes * 0.98)`, in floating point -/
  ninetyEightPercent : ℕ → ℕ
  /-- "Unexpected EOF" is in the messages of the extraction -/
  eofReported : Bool
  /-- the new tar was written, verified and moved into place -/
  recreated : Bool
  tarListing : TarListing
  /-- the scan of the sealed archive -/
  scanReadable : Bool
  /-- a cooperative yield, or a confirmed stall, before the copy of a name -/
  yieldsBefore : String → Bool
  /-- the named extraction from the tar, and appending what it gave -/
  copiesFromTar : String → Bool
  copiesFromZst : String → Bool
  tmpVerified : Bool
  mergeLocked : Bool
  /-- the yield request that is looked at under the lock -/
  yieldRequested : Bool
  mergeMoved : Bool
  /-- `tar tvf` fails when the rebuilt tar is listed again -/
  relistFails : Bool
  /-- `zstd_test` before an equivalent tar is dropped -/
  dropTested : Bool
  dropRemoved : Bool
  /-- the members cache has an entry; its key is the identity of both files -/
  cacheWarm : Bool
  sealing : SealEnv

/-- `ReconcileResult`. -/
structure ReconcileResult where
  success : Bool
  action : ReconcileAction
  reason : String
  isSealed : Bool
  tarRemoved : Bool
  deriving DecidableEq, Repr

/-- How a call ends: a result, or an exception. -/
inductive Outcome where
  | result (r : ReconcileResult)
  | raised
  deriving DecidableEq, Repr

/-- The archives after a call and its end. -/
structure Reconciled where
  archives : Archives
  outcome : Outcome
  deriving DecidableEq, Repr

/-- `ReconcileResult(False, action, reason)`. -/
def failure (action : ReconcileAction) (reason : String) : Outcome :=
  .result ⟨false, action, reason, false, false⟩

/-! ## Repair of an unreadable tar -/

/-- The verdict of GNU tar: a damaged tar does not pass. -/
def verifyTar (damage : Damage) (c : Check) : Check :=
  if damage ≠ .none ∧ c = .passed then .refused else c

/-- The parts of a path that say something: no empty part and no `.`. -/
def pathParts (name : String) : List String :=
  (PyText.splitSep '/' name).filter fun part => part ≠ "" ∧ part ≠ "."

/-- `os.path.relpath` of an extracted member below the directory of the extraction. -/
def relpath (name : String) : String :=
  match pathParts name with
  | [] => ""
  | part :: parts => part ++ TokenText.ledBy '/' parts

/-- The files of an extraction: a later member of the same path replaces an earlier one. -/
def extractedFiles (c : Content) : MemberMap :=
  PyDict.ofPairs (c.map fun m => (relpath m.1, m.2))

/-- `_gnu_tvf_file_member_map_despite_fail` of a tar that GNU tar does not read to its end. -/
def memberMapDespiteFail (t : Content) (damage : Damage) (env : ReconcileEnv) : MemberMap :=
  if env.partlyListed then memberMap (damage.listed t) else []

/-- `_repair_truncated_daily_tar_via_extract_recreate`: the members of the new tar.  It is written
by `tar -C extract_dir .`, so every name starts with `./`; the order of the directory is left as
that of the extraction. -/
def repairExtractRecreate (t : Content) (damage : Damage) (expected : MemberMap) (env : ReconcileEnv) :
    Option Content :=
  let files := extractedFiles (damage.extracted t)
  let countOk := decide (expected.length ≤ files.length)
  let bytesOk := decide (0 < sumMemberBytes expected →
    env.ninetyEightPercent (sumMemberBytes expected) ≤ sumMemberBytes files)
  if expected = [] ∨ env.freeSpace = false then none
  else if (countOk && bytesOk || env.eofReported && countOk) && env.recreated then
    some (files.map fun m => ("./" ++ m.1, m.2))
  else none

/-- What becomes of the tar before the decision. -/
inductive Opened where
  /-- the call ends here with the given members in the tar -/
  | stopped (tar : Content) (outcome : Outcome)
  | readable
  /-- GNU tar reads the repaired tar -/
  | repaired (tar : Content)
  deriving DecidableEq, Repr

/-- The part of the call up to the readable tar, with `repair_truncated_daily_tar_in_place`. -/
def openTar (t : Content) (damage : Damage) (env : ReconcileEnv) : Opened :=
  match verifyTar damage env.verifyFirst with
  | .raised => .stopped t (failure .skip "tar_verify_timeout")
  | .passed => .readable
  | .refused =>
      let expected := memberMapDespiteFail t damage env
      if expected = [] then
        -- `tarfile` cannot prove the tar recoverable: its members are iterated over a context manager
        .stopped t (if env.tarfileRaises then .raised else failure .skip "tar_unrecoverable")
      else
        match verifyTar damage env.verifyInRepair with
        | .raised => .stopped t .raised
        | .passed =>
            match verifyTar damage env.verifyRepaired with
            | .raised => .stopped t .raised
            | .refused => .stopped t (failure .skip "tar_unrecoverable")
            | .passed => .readable
        | .refused =>
            if env.repairLocked = false then .stopped t (failure .skip "tar_repair_failed")
            else
              match repairExtractRecreate t damage expected env with
              | none => .stopped t (failure .skip "tar_repair_failed")
              | some t' =>
                  match env.verifyRepaired with
                  | .raised => .stopped t' .raised
                  | .refused => .stopped t' (failure .skip "tar_unrecoverable")
                  | .passed => .repaired t'

/-! ## Rebuild, seal and drop -/

/-- The member map of the readable tar, as the call sees it. -/
def TarListing.members (t : Content) : TarListing → MemberMap
  | .complete => memberMap t
  | .swallowed => []
  | .cutOff tvf tf =>
      match memberMap (t.take tvf) with
      | [] => memberMap ((t.take tf).map fun m => (m.1, 0))
      | d => d

/-- The member map of the sealed archive, `{}` when there is none or it cannot be read. -/
def zstMembers (zst : Option Content) (env : ReconcileEnv) : MemberMap :=
  match zst with
  | none => []
  | some z => if env.scanReadable then memberMap z else []

/-- One union member can be copied: some source gives its last copy at the expected size. -/
def copyUnionMember (t z : Content) (env : ReconcileEnv) (m : Member) : Bool :=
  (env.copiesFromTar m.1 && extractedSize t m.1 == some m.2) ||
    (env.copiesFromZst m.1 && extractedSize z m.1 == some m.2)

/-- The end of a rebuild. -/
inductive Rebuilt where
  | done (tar : Content)
  | failed
  | yielded
  deriving DecidableEq, Repr

/-- The copy loop of `rebuild_daily_tar_member_union_in_place`. -/
def copyUnion (t z : Content) (env : ReconcileEnv) : MemberMap → Content → Rebuilt
  | [], out => .done out
  | m :: rest, out =>
      if env.yieldsBefore m.1 then .yielded
      else if copyUnionMember t z env m then copyUnion t z env rest (out ++ [(relpath m.1, m.2)])
      else .failed

/-- `rebuild_daily_tar_member_union_in_place`. -/
def rebuildUnion (t z : Content) (union : MemberMap) (env : ReconcileEnv) : Rebuilt :=
  if union = [] then .failed
  else
    match copyUnion t z env (sortedByName union) [] with
    | .done out =>
        if env.tmpVerified = false ∨ env.mergeLocked = false then .failed
        else if env.yieldRequested then .yielded
        else if env.mergeMoved then .done out
        else .failed
    | end_ => end_

/-- The seal of the given tar meets a members cache that knows this tar. -/
def ReconcileEnv.sealEnv (env : ReconcileEnv) (t : Content) : SealEnv :=
  { env.sealing with cachedMembers := if env.cacheWarm then some (memberMap t) else none }

/-- The seal at the end of the call, and the result made from its snapshot. -/
def sealAndReport (t : Content) (zst : Option Content) (env : ReconcileEnv) (action : ReconcileAction)
    (reason : String) : Reconciled :=
  let r := atomicSealTarToZst ⟨some t, zst⟩ (env.sealEnv t)
  match r.outcome with
  | .raised => ⟨r.archives, .raised⟩
  | .returned none => ⟨r.archives, failure action "seal_failed"⟩
  | .returned (some _) =>
      ⟨r.archives, .result ⟨true, action, reason, true,
        env.sealing.forceRemoveUncompressedTar && r.archives.tar.isNone⟩⟩

/-- The action that is chosen for the readable tar. -/
def chosenAction (t : Content) (zst : Option Content) (env : ReconcileEnv) : ReconcileAction :=
  classifyReconcile (env.tarListing.members t) (zstMembers zst env) zst.isSome
    (zst.isSome && env.scanReadable) true

/-- The union of the two member maps, as the call sees them. -/
def unionMembers (t : Content) (zst : Option Content) (env : ReconcileEnv) : MemberMap :=
  membersUnion (env.tarListing.members t) (zstMembers zst env)

/-- The action `noop`: an equivalent tar is dropped when the caller forces it. -/
def noop (t : Content) (zst : Option Content) (env : ReconcileEnv) : Reconciled :=
  if env.sealing.forceRemoveUncompressedTar && zst.isSome && env.scanReadable then
    if env.dropTested && env.dropRemoved then
      ⟨⟨none, zst⟩, .result ⟨true, .noop, "already_equivalent", true, true⟩⟩
    else ⟨⟨some t, zst⟩, failure .noop "drop_failed"⟩
  else ⟨⟨some t, zst⟩, .result ⟨true, .noop, "already_equivalent", false, false⟩⟩

/-- The action `merge_and_seal`: the tar is rebuilt from the union, listed again and sealed. -/
def mergeAndSeal (t : Content) (zst : Option Content) (env : ReconcileEnv) : Reconciled :=
  match rebuildUnion t (zst.getD []) (unionMembers t zst env) env with
  | .failed => ⟨⟨some t, zst⟩, failure .mergeAndSeal "merge_failed"⟩
  | .yielded => ⟨⟨some t, zst⟩, .raised⟩
  | .done t' =>
      if env.relistFails then ⟨⟨some t', zst⟩, .raised⟩
      else sealAndReport t' zst env .mergeAndSeal "divergent_maps"

/-- The call from the readable tar on. -/
def reconcileReadable (t : Content) (zst : Option Content) (env : ReconcileEnv) : Reconciled :=
  match chosenAction t zst env with
  | .skip => ⟨⟨some t, zst⟩, failure .skip "zst_unreadable"⟩
  | .repairTarOnly => ⟨⟨some t, zst⟩, failure .repairTarOnly "tar_gnu_unreadable"⟩
  | .noop => noop t zst env
  | .sealFromTar =>
      sealAndReport t zst env .sealFromTar (if zst.isSome then "tar_superset_of_zst" else "missing_zst")
  | .mergeAndSeal => mergeAndSeal t zst env

/-- `reconcile_open_tar_with_sealed_zst`. -/
def reconcileOpenTarWithSealedZst (a : Archives) (damage : Damage) (env : ReconcileEnv) : Reconciled :=
  match a.tar with
  | none => ⟨a, failure .skip "tar_missing"⟩
  | some t =>
      match openTar t damage env with
      | .stopped t' outcome => ⟨⟨some t', a.zst⟩, outcome⟩
      | .readable => reconcileReadable t a.zst env
      | .repaired t' => reconcileReadable t' a.zst env

/-! ## The law -/

/-- Two archives hold the same names, each with the same largest size. -/
def SameMembers (c c' : Content) : Prop := ∀ name, largest c name = largest c' name

/-- The archive holds exactly the name-wise largest union of the two others. -/
def HoldsUnion (c t z : Content) : Prop :=
  ∀ name, largest c name = max (largest t name) (largest z name)

/-- A file is there before and after with the same members, or before and after it is not there. -/
def SameFile : Option Content → Option Content → Prop
  | none, none => True
  | some c, some c' => SameMembers c c'
  | _, _ => False

/-- `success` of the result; an exception is a failure. -/
def Outcome.success : Outcome → Bool
  | .result r => r.success
  | .raised => false

/-- **The law of a reconcile.**  It succeeds, the sealed archive is there, and the archives that
remain hold the union of what the two held before; or it fails and both hold what they held. -/
def Reconciles (before : Archives) (after : Reconciled) : Prop :=
  if after.outcome.success then
    after.archives.zst ≠ none ∧
      ∀ c, after.archives.tar = some c ∨ after.archives.zst = some c →
        HoldsUnion c (before.tar.getD []) (before.zst.getD [])
  else SameFile before.tar after.archives.tar ∧ SameFile before.zst after.archives.zst

/-! ## Archives up to their largest sizes -/

/-- A member is covered when the largest size of its name is at least its size. -/
theorem covers_iff_largest {c : Content} {name : String} {size : ℕ} :
    Covers c (name, size) ↔ ∃ s ∈ largest c name, size ≤ s := by
  rw [← covers_memberMap, ← lookup_memberMap]
  constructor
  · rintro ⟨s, hmem, hle⟩
    exact ⟨s, PyDict.lookup_of_mem (nodup_memberMap c) (x := (name, s)) hmem, hle⟩
  · rintro ⟨s, hs, hle⟩
    exact ⟨s, PyDict.mem_of_lookup hs, hle⟩

/-- Two sizes that may be missing agree when they have the same lower bounds. -/
theorem option_eq_of_bounds {x y : Option ℕ} (h : ∀ k, (∃ s ∈ x, k ≤ s) ↔ ∃ s ∈ y, k ≤ s) : x = y := by
  have hle : ∀ {x y : Option ℕ}, (∀ k, (∃ s ∈ x, k ≤ s) → ∃ s ∈ y, k ≤ s) → ∀ s ∈ x, ∃ s' ∈ y, s ≤ s' :=
    fun h s hs => h s ⟨s, hs, le_rfl⟩
  rcases x with _ | s <;> rcases y with _ | s'
  · rfl
  · obtain ⟨_, hmem, -⟩ := hle (fun k => (h k).mpr) s' rfl
    cases hmem
  · obtain ⟨_, hmem, -⟩ := hle (fun k => (h k).mp) s rfl
    cases hmem
  · obtain ⟨_, hmem, h1⟩ := hle (fun k => (h k).mp) s rfl
    obtain rfl := Option.some.inj hmem
    obtain ⟨_, hmem, h2⟩ := hle (fun k => (h k).mpr) s' rfl
    obtain rfl := Option.some.inj hmem
    rw [le_antisymm h1 h2]

theorem bounds_max {x y : Option ℕ} {k : ℕ} :
    (∃ s ∈ max x y, k ≤ s) ↔ (∃ s ∈ x, k ≤ s) ∨ ∃ s ∈ y, k ≤ s := by
  rcases x with _ | s <;> rcases y with _ | s' <;> simp

theorem sameMembers_iff {c c' : Content} : SameMembers c c' ↔ ∀ m, Covers c m ↔ Covers c' m := by
  constructor
  · intro h m
    rw [covers_iff_largest, covers_iff_largest, h]
  · intro h name
    refine option_eq_of_bounds fun k => ?_
    rw [← covers_iff_largest, ← covers_iff_largest]
    exact h (name, k)

theorem holdsUnion_iff {c t z : Content} : HoldsUnion c t z ↔ ∀ m, Covers c m ↔ Covers t m ∨ Covers z m := by
  constructor
  · intro h m
    rw [covers_iff_largest, covers_iff_largest, covers_iff_largest, h, bounds_max]
  · intro h name
    refine option_eq_of_bounds fun k => ?_
    rw [bounds_max, ← covers_iff_largest, ← covers_iff_largest, ← covers_iff_largest]
    exact h (name, k)

theorem kept_iff_covers {c c' : Content} : Kept c c' ↔ ∀ m, Covers c m → Covers c' m := by
  constructor
  · rintro h m ⟨size, hmem, hle⟩
    obtain ⟨size', hmem', hle'⟩ := h _ hmem
    exact ⟨size', hmem', hle.trans hle'⟩
  · exact fun h m hm => h m (covers_of_mem hm)

theorem SameMembers.refl (c : Content) : SameMembers c c := fun _ => rfl

theorem SameFile.refl : ∀ o : Option Content, SameFile o o
  | none => trivial
  | some c => SameMembers.refl c

/-! ## What a listing shows -/

/-- No listing shows more than the tar holds. -/
theorem covers_of_listed {t : Content} {l : TarListing} {m : Member} (h : Covers (l.members t) m) :
    Covers t m := by
  cases l with
  | complete => exact (covers_memberMap t m).mp h
  | swallowed =>
      obtain ⟨_, hmem, -⟩ := h
      cases hmem
  | cutOff tvf tf =>
      unfold TarListing.members at h
      simp only at h
      split at h
      · rw [covers_memberMap] at h
        obtain ⟨size, hmem, hle⟩ := h
        obtain ⟨e, he, hsize⟩ := List.mem_map.mp hmem
        obtain ⟨hname, rfl⟩ := Prod.mk.inj hsize
        refine ⟨e.2, ?_, hle.trans (Nat.zero_le _)⟩
        rw [← hname]
        exact List.mem_of_mem_take he
      · rw [covers_memberMap] at h
        exact h.mono fun e he => List.mem_of_mem_take he

/-! ## The rebuild -/

/-- The members that a rebuild from this union map writes. -/
def unionTar (union : MemberMap) : Content :=
  (sortedByName union).map fun m => (relpath m.1, m.2)

/-- Every step of the rebuild succeeds. -/
def RebuildGoes (t z : Content) (union : MemberMap) (env : ReconcileEnv) : Prop :=
  union ≠ [] ∧ (∀ m ∈ union, env.yieldsBefore m.1 = false ∧ copyUnionMember t z env m = true) ∧
    env.tmpVerified = true ∧ env.mergeLocked = true ∧ env.yieldRequested = false ∧ env.mergeMoved = true

theorem copyUnion_cases (t z : Content) (env : ReconcileEnv) (todo : MemberMap) (out : Content) :
    ((∀ m ∈ todo, env.yieldsBefore m.1 = false ∧ copyUnionMember t z env m = true) ∧
        copyUnion t z env todo out = .done (out ++ todo.map fun m => (relpath m.1, m.2))) ∨
      (¬ (∀ m ∈ todo, env.yieldsBefore m.1 = false ∧ copyUnionMember t z env m = true) ∧
        (copyUnion t z env todo out = .failed ∨ copyUnion t z env todo out = .yielded)) := by
  induction todo generalizing out with
  | nil =>
      refine Or.inl ⟨fun m hm => ?_, ?_⟩
      · cases hm
      · rw [copyUnion, List.map_nil, List.append_nil]
  | cons m rest ih =>
      rw [copyUnion, List.forall_mem_cons]
      cases hyield : env.yieldsBefore m.1 with
      | true => exact Or.inr ⟨fun h => absurd h.1.1 (by decide), Or.inr rfl⟩
      | false =>
          rw [if_neg (by decide)]
          cases hcopy : copyUnionMember t z env m with
          | false => exact Or.inr ⟨fun h => absurd h.1.2 (by decide), Or.inl rfl⟩
          | true =>
              rw [if_pos rfl]
              rcases ih (out ++ [(relpath m.1, m.2)]) with ⟨hall, h⟩ | ⟨hnot, h⟩
              · refine Or.inl ⟨⟨⟨rfl, rfl⟩, hall⟩, ?_⟩
                rw [h, List.map_cons, List.append_assoc, List.singleton_append]
              · exact Or.inr ⟨fun h' => hnot h'.2, h⟩

/-- A rebuild writes the union, or it leaves the tar alone. -/
theorem rebuildUnion_cases (t z : Content) (union : MemberMap) (env : ReconcileEnv) :
    (RebuildGoes t z union env ∧ rebuildUnion t z union env = .done (unionTar union)) ∨
      (¬ RebuildGoes t z union env ∧
        (rebuildUnion t z union env = .failed ∨ rebuildUnion t z union env = .yielded)) := by
  have hsorted : (∀ m ∈ sortedByName union, env.yieldsBefore m.1 = false ∧ copyUnionMember t z env m = true) ↔
      ∀ m ∈ union, env.yieldsBefore m.1 = false ∧ copyUnionMember t z env m = true := by
    have hperm : (sortedByName union).Perm union := List.perm_insertionSort _ union
    exact ⟨fun h m hm => h m (hperm.mem_iff.mpr hm), fun h m hm => h m (hperm.mem_iff.mp hm)⟩
  unfold rebuildUnion RebuildGoes
  by_cases hempty : union = []
  · rw [if_pos hempty]
    exact Or.inr ⟨fun h => h.1 hempty, Or.inl rfl⟩
  · rw [if_neg hempty]
    rcases copyUnion_cases t z env (sortedByName union) [] with ⟨hall, h⟩ | ⟨hnot, h⟩
    · rw [h, List.nil_append]
      rw [hsorted] at hall
      simp only
      cases hv : env.tmpVerified with
      | false => exact Or.inr ⟨fun h => absurd h.2.2.1 (by decide), Or.inl rfl⟩
      | true =>
          cases hl : env.mergeLocked with
          | false => exact Or.inr ⟨fun h => absurd h.2.2.2.1 (by decide), Or.inl rfl⟩
          | true =>
              cases hy : env.yieldRequested with
              | true => exact Or.inr ⟨fun h => absurd h.2.2.2.2.1 (by decide), Or.inr rfl⟩
              | false =>
                  cases hm : env.mergeMoved with
                  | false => exact Or.inr ⟨fun h => absurd h.2.2.2.2.2 (by decide), Or.inl rfl⟩
                  | true => exact Or.inl ⟨⟨hempty, hall, rfl, rfl, rfl, rfl⟩, rfl⟩
    · rw [hsorted] at hnot
      refine Or.inr ⟨fun h => hnot h.2.1, ?_⟩
      rcases h with h | h <;> rw [h]
      · exact Or.inl rfl
      · exact Or.inr rfl

/-! ## Names of the rebuilt tar -/

/-- A path that is read back keeps its parts. -/
theorem pathParts_relpath (name : String) : pathParts (relpath name) = pathParts name := by
  have hparts : ∀ part ∈ pathParts name, '/' ∉ part.toList ∧ part ≠ "" ∧ part ≠ "." := by
    intro part hpart
    obtain ⟨hmem, hne⟩ := List.mem_filter.mp hpart
    exact ⟨TokenText.not_mem_of_mem_splitSep hmem, of_decide_eq_true hne⟩
  unfold relpath
  cases hp : pathParts name with
  | nil => rfl
  | cons part parts =>
      rw [hp] at hparts
      simp only
      rw [pathParts, TokenText.splitSep_append_ledBy (hparts part List.mem_cons_self).1
        (fun u hu => (hparts u (List.mem_cons_of_mem part hu)).1), List.filter_eq_self]
      exact fun u hu => decide_eq_true (hparts u hu).2

theorem relpath_relpath (name : String) : relpath (relpath name) = relpath name := by
  conv_lhs => rw [relpath, pathParts_relpath]
  rw [relpath]

/-- Every name is a plain relative path, the form in which a rebuild writes it. -/
def PlainNames (union : MemberMap) : Prop := ∀ m ∈ union, relpath m.1 = m.1

/-- Under plain names the rebuilt tar holds the union. -/
theorem covers_unionTar {union : MemberMap} (h : PlainNames union) (m : Member) :
    Covers (unionTar union) m ↔ Covers union m := by
  have hmap : unionTar union = sortedByName union := by
    unfold unionTar
    refine (List.map_congr_left fun e he => ?_).trans (List.map_id _)
    have hmem : e ∈ union := (List.perm_insertionSort _ union).mem_iff.mp he
    rw [h e hmem]
    rfl
  rw [hmap, covers_sortedByName]

/-- A name that is not plain is not in the rebuilt tar. -/
theorem not_covers_unionTar {union : MemberMap} {name : String} (h : relpath name ≠ name) :
    ¬ Covers (unionTar union) (name, 0) := by
  rintro ⟨size, hmem, -⟩
  obtain ⟨e, -, he⟩ := List.mem_map.mp hmem
  have hname : relpath e.1 = name := (Prod.mk.inj he).1
  rw [← hname, relpath_relpath] at h
  exact h rfl

/-! ## Where the law holds -/

/-- Every member of the tar is in its listing, or in the sealed archive with at least its size. -/
def Listed (t z : Content) (env : ReconcileEnv) : Prop :=
  ∀ m ∈ t, Covers (env.tarListing.members t) m ∨ Covers z m

/-- The equivalent tar was to be dropped, and it was not. -/
def DropFails (env : ReconcileEnv) : Prop :=
  env.sealing.forceRemoveUncompressedTar = true ∧ ¬ (env.dropTested = true ∧ env.dropRemoved = true)

/-- The rebuilt tar is listed again and sealed. -/
def SealsUnion (t : Content) (zst : Option Content) (env : ReconcileEnv) : Prop :=
  env.relistFails = false ∧
    GoesThrough (unionTar (unionMembers t zst env)) zst (env.sealEnv (unionTar (unionMembers t zst env)))

/-- Where the law holds for a tar that GNU tar reads. -/
def SafeReadable (t : Content) (zst : Option Content) (env : ReconcileEnv) : Prop :=
  match chosenAction t zst env with
  | .skip | .repairTarOnly | .sealFromTar => True
  | .noop => DropFails env ∨ Listed t (zst.getD []) env
  | .mergeAndSeal =>
      RebuildGoes t (zst.getD []) (unionMembers t zst env) env →
        (SealsUnion t zst env → PlainNames (unionMembers t zst env) ∧ Listed t (zst.getD []) env) ∧
          (¬ SealsUnion t zst env → SameMembers t (unionTar (unionMembers t zst env)))

/-- Where the law holds for a repaired tar `t`, when the tar held `before`. -/
def SafeRepaired (before t : Content) (zst : Option Content) (env : ReconcileEnv) : Prop :=
  match chosenAction t zst env with
  | .skip | .repairTarOnly => SameMembers before t
  | .noop =>
      (DropFails env → SameMembers before t) ∧
        (¬ DropFails env → Kept before (zst.getD []) ∧
          (env.sealing.forceRemoveUncompressedTar = false → SameMembers t (zst.getD [])))
  | .sealFromTar =>
      (GoesThrough t zst (env.sealEnv t) → HoldsUnion t before (zst.getD [])) ∧
        (¬ GoesThrough t zst (env.sealEnv t) → SameMembers before t)
  | .mergeAndSeal =>
      (RebuildGoes t (zst.getD []) (unionMembers t zst env) env →
        (SealsUnion t zst env → HoldsUnion (unionTar (unionMembers t zst env)) before (zst.getD [])) ∧
          (¬ SealsUnion t zst env → SameMembers before (unionTar (unionMembers t zst env)))) ∧
        (¬ RebuildGoes t (zst.getD []) (unionMembers t zst env) env → SameMembers before t)

/-- Where the law holds. -/
def Safe (a : Archives) (damage : Damage) (env : ReconcileEnv) : Prop :=
  ∀ t, a.tar = some t →
    match openTar t damage env with
    | .stopped t' _ => SameMembers t t'
    | .readable => SafeReadable t a.zst env
    | .repaired t' => SafeRepaired t t' a.zst env

/-! ## What the decision tells -/

/-- With two readable archives the sealed one is not empty at a decision to act. -/
theorem action_spec {t : Content} {zst : Option Content} {env : ReconcileEnv}
    (h : chosenAction t zst env ≠ .skip) :
    (zst = none ∧ chosenAction t zst env = .sealFromTar) ∨
      ∃ z, zst = some z ∧ env.scanReadable = true ∧ memberMap z ≠ [] ∧
        chosenAction t zst env =
          if mapsEquivalent (env.tarListing.members t) (memberMap z) then .noop
          else if containedIn (memberMap z) (env.tarListing.members t) then .sealFromTar
          else .mergeAndSeal := by
  unfold chosenAction classifyReconcile at h ⊢
  cases zst with
  | none => exact Or.inl ⟨rfl, rfl⟩
  | some z =>
      cases hscan : env.scanReadable with
      | false =>
          rw [hscan] at h
          exact absurd rfl h
      | true =>
          by_cases hempty : memberMap z = []
          · rw [hscan] at h
            simp [zstMembers, hscan, hempty] at h
          · refine Or.inr ⟨z, rfl, rfl, hempty, ?_⟩
            simp [zstMembers, hscan, hempty]

theorem nonempty_of_action {t : Content} {zst : Option Content} {env : ReconcileEnv}
    (h : chosenAction t zst env ≠ .skip) : ∀ z, zst = some z → memberMap z ≠ [] := by
  rintro z rfl
  rcases action_spec h with ⟨h, -⟩ | ⟨z', hz, -, hne, -⟩
  · cases h
  · rwa [Option.some.inj hz]

theorem sealed_of_action {t : Content} {zst : Option Content} {env : ReconcileEnv}
    (h : chosenAction t zst env ≠ .skip) (hseal : chosenAction t zst env ≠ .sealFromTar) :
    ∃ z, zst = some z ∧ env.scanReadable = true ∧ memberMap z ≠ [] := by
  rcases action_spec h with ⟨-, h⟩ | ⟨z, hz, hscan, hne, -⟩
  · exact absurd h hseal
  · exact ⟨z, hz, hscan, hne⟩

theorem sameMembers_of_mapsEquivalent {c c' : Content} (h : mapsEquivalent (memberMap c) (memberMap c') = true) :
    SameMembers c c' := by
  intro name
  rw [← lookup_memberMap, ← lookup_memberMap]
  exact lookup_eq_of_mapsEquivalent h name

/-- A seal that is skipped finds the tar and the sealed archive with the same members. -/
theorem sameMembers_of_skips {z t : Content} {env : ReconcileEnv} (hz : memberMap z ≠ [])
    (h : Skips z t (env.sealEnv t)) : SameMembers t z := by
  obtain ⟨-, -, hmaps⟩ := h
  have hmembers : getExistingArchiveMembers (env.sealEnv t) t = memberMap t ∨
      getExistingArchiveMembers (env.sealEnv t) t = [] := by
    unfold getExistingArchiveMembers ReconcileEnv.sealEnv
    cases env.cacheWarm with
    | true => exact Or.inl rfl
    | false =>
        cases env.sealing.tarReadable with
        | true => exact Or.inl rfl
        | false => exact Or.inr rfl
  rcases hmembers with hm | hm
  · rw [hm] at hmaps
    exact fun name => (sameMembers_of_mapsEquivalent hmaps name).symm
  · rw [hm, mapsEquivalent, Bool.and_eq_true] at hmaps
    refine absurd (List.eq_nil_iff_forall_not_mem.mpr fun e he => ?_) hz
    have := List.all_eq_true.mp hmaps.1 e he
    simp at this

/-! ## The law, step by step -/

theorem sameFile_self_iff {before t : Content} {zst : Option Content} :
    (SameFile (some before) (some t) ∧ SameFile zst zst) ↔ SameMembers before t :=
  ⟨fun h => h.1, fun h => ⟨h, SameFile.refl zst⟩⟩

/-- A failure that leaves the sealed archive. -/
theorem reconciles_failed {before t : Content} {zst : Option Content} {outcome : Outcome}
    (h : outcome.success = false) :
    Reconciles ⟨some before, zst⟩ ⟨⟨some t, zst⟩, outcome⟩ ↔ SameMembers before t := by
  unfold Reconciles
  simp only [h, Bool.false_eq_true, if_false]
  exact sameFile_self_iff

/-- What is left to show of a call that succeeded. -/
theorem reconciles_succeeded {before z : Content} {zst : Option Content} {after : Reconciled}
    (h : after.outcome.success = true) (hz : after.archives.zst = some z) :
    Reconciles ⟨some before, zst⟩ after ↔
      HoldsUnion z before (zst.getD []) ∧ ∀ c, after.archives.tar = some c → HoldsUnion c before (zst.getD []) := by
  unfold Reconciles
  rw [if_pos h, hz, Option.getD_some]
  constructor
  · rintro ⟨-, hall⟩
    exact ⟨hall z (Or.inr rfl), fun c hc => hall c (Or.inl hc)⟩
  · rintro ⟨hzst, htar⟩
    refine ⟨Option.some_ne_none z, ?_⟩
    rintro c (hc | hc)
    · exact htar c hc
    · obtain rfl := Option.some.inj hc
      exact hzst

/-- The sealed archive holds the union of itself and a tar that it keeps. -/
theorem holdsUnion_right_iff {t z : Content} : HoldsUnion z t z ↔ Kept t z := by
  rw [holdsUnion_iff, kept_iff_covers]
  constructor
  · exact fun h m hm => (h m).mpr (Or.inl hm)
  · intro h m
    refine ⟨Or.inr, ?_⟩
    rintro (hm | hm)
    · exact h m hm
    · exact hm

/-- A tar that keeps the sealed archive holds the union of both. -/
theorem holdsUnion_left_iff {t z : Content} : HoldsUnion t t z ↔ Kept z t := by
  rw [holdsUnion_iff, kept_iff_covers]
  constructor
  · exact fun h m hm => (h m).mpr (Or.inr hm)
  · intro h m
    refine ⟨Or.inl, ?_⟩
    rintro (hm | hm)
    · exact hm
    · exact h m hm

/-- The law of the seal at the end of a call. -/
theorem reconciles_sealAndReport {before t : Content} {zst : Option Content} {env : ReconcileEnv}
    (hzst : ∀ z, zst = some z → memberMap z ≠ []) (action : ReconcileAction) (reason : String) :
    Reconciles ⟨some before, zst⟩ (sealAndReport t zst env action reason) ↔
      (GoesThrough t zst (env.sealEnv t) → HoldsUnion t before (zst.getD [])) ∧
        (¬ GoesThrough t zst (env.sealEnv t) → SameMembers before t) := by
  unfold sealAndReport
  rcases goesThrough_spec t zst (env.sealEnv t) with ⟨hgo, d, replaced, archives, hres, harch⟩ |
      ⟨hgo, outcome, hout, hres⟩
  · rw [hres]
    have hlaw : ∀ o : Outcome, o.success = true →
        (Reconciles ⟨some before, zst⟩ ⟨archives, o⟩ ↔ HoldsUnion t before (zst.getD [])) := by
      intro o ho
      rcases harch with ⟨z, rfl, hskips, rfl⟩ | rfl
      · have hsame := sameMembers_of_skips (hzst z rfl) hskips
        rw [reconciles_succeeded ho rfl]
        refine ⟨fun h => h.2 t rfl, fun h => ⟨fun name => (hsame name).symm.trans (h name), ?_⟩⟩
        intro c hc
        obtain rfl := Option.some.inj hc
        exact h
      · rw [reconciles_succeeded ho (dropTar_zst _ _)]
        refine ⟨fun h => h.1, fun h => ⟨h, fun c hc => ?_⟩⟩
        rcases dropTar_tar ⟨some t, some t⟩ (env.sealEnv t) with htar | htar
        · obtain rfl := Option.some.inj (htar.symm.trans hc)
          exact h
        · exact absurd (htar.symm.trans hc) (Option.some_ne_none c).symm
    exact (hlaw _ rfl).trans ⟨fun h => ⟨fun _ => h, fun hn => absurd hgo hn⟩, fun h => h.1 hgo⟩
  · rw [hres]
    have hfail : ∀ o : Outcome, o.success = false →
        (Reconciles ⟨some before, zst⟩ ⟨⟨some t, zst⟩, o⟩ ↔
          (GoesThrough t zst (env.sealEnv t) → HoldsUnion t before (zst.getD [])) ∧
            (¬ GoesThrough t zst (env.sealEnv t) → SameMembers before t)) := by
      intro o ho
      rw [reconciles_failed ho]
      exact ⟨fun h => ⟨fun hn => absurd hn hgo, fun _ => h⟩, fun h => h.2 hgo⟩
    rcases hout with rfl | rfl
    · exact hfail _ rfl
    · exact hfail _ rfl

/-- The law of the action `noop`. -/
theorem reconciles_noop {before t z : Content} {env : ReconcileEnv} (hscan : env.scanReadable = true) :
    Reconciles ⟨some before, some z⟩ (noop t (some z) env) ↔
      (DropFails env → SameMembers before t) ∧
        (¬ DropFails env → Kept before z ∧
          (env.sealing.forceRemoveUncompressedTar = false → SameMembers t z)) := by
  unfold noop
  rw [hscan, Option.isSome_some, Bool.and_true, Bool.and_true]
  cases hforce : env.sealing.forceRemoveUncompressedTar with
  | false =>
      have hnot : ¬ DropFails env := by
        rintro ⟨h, -⟩
        rw [hforce] at h
        cases h
      rw [if_neg (by decide), reconciles_succeeded rfl rfl, Option.getD_some, holdsUnion_right_iff]
      simp only [hnot, false_imp_iff, true_and, not_false_eq_true, true_imp_iff]
      refine and_congr_right fun hkept => ?_
      have hz := holdsUnion_right_iff.mpr hkept
      constructor
      · exact fun h name => (h t rfl name).trans (hz name).symm
      · intro hsame c hc
        obtain rfl := Option.some.inj hc
        exact fun name => (hsame name).trans (hz name)
  | true =>
      rw [if_pos rfl]
      by_cases hdrop : (env.dropTested && env.dropRemoved) = true
      · have hnot : ¬ DropFails env := by
          rintro ⟨-, h⟩
          rw [Bool.and_eq_true] at hdrop
          exact h hdrop
        rw [if_pos hdrop, reconciles_succeeded rfl rfl, Option.getD_some, holdsUnion_right_iff]
        simp only [hnot, false_imp_iff, true_and, not_false_eq_true, true_imp_iff, Bool.true_eq_false, and_true]
        -- no tar is left
        exact and_iff_left fun c hc => nomatch hc
      · have hfails : DropFails env := by
          rw [Bool.and_eq_true] at hdrop
          exact ⟨hforce, hdrop⟩
        rw [if_neg hdrop, reconciles_failed rfl]
        exact ⟨fun h => ⟨fun _ => h, fun hn => absurd hfails hn⟩, fun h => h.1 hfails⟩

/-- The law of the action `merge_and_seal`. -/
theorem reconciles_mergeAndSeal {before t : Content} {zst : Option Content} {env : ReconcileEnv}
    (hzst : ∀ z, zst = some z → memberMap z ≠ []) :
    Reconciles ⟨some before, zst⟩ (mergeAndSeal t zst env) ↔
      (RebuildGoes t (zst.getD []) (unionMembers t zst env) env →
        (SealsUnion t zst env → HoldsUnion (unionTar (unionMembers t zst env)) before (zst.getD [])) ∧
          (¬ SealsUnion t zst env → SameMembers before (unionTar (unionMembers t zst env)))) ∧
        (¬ RebuildGoes t (zst.getD []) (unionMembers t zst env) env → SameMembers before t) := by
  unfold mergeAndSeal
  rcases rebuildUnion_cases t (zst.getD []) (unionMembers t zst env) env with ⟨hgoes, h⟩ | ⟨hgoes, h⟩
  · rw [h]
    simp only [hgoes, true_imp_iff, not_true_eq_false, false_imp_iff, and_true]
    unfold SealsUnion
    cases hrelist : env.relistFails with
    | true =>
        rw [if_pos rfl, reconciles_failed rfl]
        simp only [Bool.true_eq_false, false_and, false_imp_iff, not_false_eq_true, true_imp_iff, true_and]
    | false =>
        rw [if_neg (by decide), reconciles_sealAndReport hzst]
        simp only [true_and]
  · simp only [hgoes, false_imp_iff, not_false_eq_true, true_imp_iff, true_and]
    rcases h with h | h <;> rw [h]
    · exact reconciles_failed rfl
    · exact reconciles_failed rfl

/-- A call that ends before the decision has failed. -/
def Opened.Fails : Opened → Prop
  | .stopped _ outcome => outcome.success = false
  | _ => True

theorem openTar_fails (t : Content) (damage : Damage) (env : ReconcileEnv) : (openTar t damage env).Fails := by
  unfold openTar
  cases verifyTar damage env.verifyFirst with
  | raised => rfl
  | passed => trivial
  | refused =>
      simp only
      by_cases hempty : memberMapDespiteFail t damage env = []
      · rw [if_pos hempty]
        cases env.tarfileRaises <;> rfl
      · rw [if_neg hempty]
        cases verifyTar damage env.verifyInRepair with
        | raised => rfl
        | passed =>
            cases verifyTar damage env.verifyRepaired with
            | raised => rfl
            | refused => rfl
            | passed => trivial
        | refused =>
            cases env.repairLocked with
            | false => rfl
            | true =>
                rw [if_neg (by decide)]
                cases repairExtractRecreate t damage (memberMapDespiteFail t damage env) env with
                | none => rfl
                | some t' =>
                    cases env.verifyRepaired with
                    | raised => rfl
                    | refused => rfl
                    | passed => trivial

/-- The law of a call that decides on the tar `t`, when the tar held `before`. -/
theorem reconciles_readable_iff (before t : Content) (zst : Option Content) (env : ReconcileEnv) :
    Reconciles ⟨some before, zst⟩ (reconcileReadable t zst env) ↔ SafeRepaired before t zst env := by
  unfold reconcileReadable SafeRepaired
  cases haction : chosenAction t zst env with
  | skip => exact reconciles_failed rfl
  | repairTarOnly => exact reconciles_failed rfl
  | noop =>
      obtain ⟨z, rfl, hscan, -⟩ := sealed_of_action (by rw [haction]; decide) (by rw [haction]; decide)
      exact reconciles_noop hscan
  | sealFromTar => exact reconciles_sealAndReport (nonempty_of_action (by rw [haction]; decide)) _ _
  | mergeAndSeal => exact reconciles_mergeAndSeal (nonempty_of_action (by rw [haction]; decide))

/-! ## A tar that needs no repair -/

theorem covers_zstMembers {z : Content} {env : ReconcileEnv} (hscan : env.scanReadable = true) (m : Member) :
    Covers (zstMembers (some z) env) m ↔ Covers z m := by
  unfold zstMembers
  simp only [hscan, if_true]
  exact covers_memberMap z m

/-- A complete view of the tar covers what the tar covers. -/
theorem Listed.covers {t z : Content} {env : ReconcileEnv} (h : Listed t z env) {m : Member}
    (hm : Covers t m) : Covers (env.tarListing.members t) m ∨ Covers z m := by
  obtain ⟨size, hmem, hle⟩ := hm
  rcases h _ hmem with ⟨s, hs, hle'⟩ | ⟨s, hs, hle'⟩
  · exact Or.inl ⟨s, hs, hle.trans hle'⟩
  · exact Or.inr ⟨s, hs, hle.trans hle'⟩

/-- With equal maps the tar is seen completely exactly when the sealed archive keeps it. -/
theorem listed_iff_kept {t z : Content} {env : ReconcileEnv}
    (h : containedIn (env.tarListing.members t) (memberMap z) = true) :
    Listed t z env ↔ Kept t z := by
  constructor
  · intro hl m hm
    rcases hl m hm with hc | hc
    · exact (covers_memberMap z m).mp (hc.of_containedIn h)
    · exact hc
  · exact fun hk m hm => Or.inr (hk m hm)

/-- What the tar holds behind a listing that contains the sealed map. -/
theorem kept_of_containedIn {t z : Content} {env : ReconcileEnv}
    (h : containedIn (memberMap z) (env.tarListing.members t) = true) : Kept z t := by
  intro m hm
  have hmap : Covers (memberMap z) m := (covers_memberMap z m).mpr (covers_of_mem hm)
  exact covers_of_listed (hmap.of_containedIn h)

/-- The rebuilt tar holds the union of the two archives when it was seen completely and every name
is plain, and not otherwise. -/
theorem holdsUnion_unionTar_iff {t z : Content} {env : ReconcileEnv} (hscan : env.scanReadable = true) :
    HoldsUnion (unionTar (unionMembers t (some z) env)) t z ↔
      PlainNames (unionMembers t (some z) env) ∧ Listed t z env := by
  have hunion : ∀ m, Covers (unionMembers t (some z) env) m ↔
      Covers z m ∨ Covers (env.tarListing.members t) m := by
    intro m
    unfold unionMembers
    rw [covers_membersUnion, covers_zstMembers hscan]
  rw [holdsUnion_iff]
  constructor
  · intro h
    have hplain : PlainNames (unionMembers t (some z) env) := by
      intro m hm
      by_contra hname
      refine not_covers_unionTar hname ((h (m.1, 0)).mpr ?_)
      have hcov : Covers (unionMembers t (some z) env) (m.1, 0) := ⟨m.2, hm, Nat.zero_le _⟩
      rcases (hunion _).mp hcov with hc | hc
      · exact Or.inr hc
      · exact Or.inl (covers_of_listed hc)
    refine ⟨hplain, fun m hm => ?_⟩
    have hcov := (h m).mpr (Or.inl (covers_of_mem hm))
    rw [covers_unionTar hplain, hunion] at hcov
    exact hcov.symm
  · rintro ⟨hplain, hl⟩ m
    rw [covers_unionTar hplain, hunion]
    constructor
    · rintro (hc | hc)
      · exact Or.inr hc
      · exact Or.inl (covers_of_listed hc)
    · rintro (hc | hc)
      · exact (hl.covers hc).symm
      · exact Or.inl hc

theorem safeRepaired_self_iff (t : Content) (zst : Option Content) (env : ReconcileEnv) :
    SafeRepaired t t zst env ↔ SafeReadable t zst env := by
  unfold SafeRepaired SafeReadable
  have hsame : SameMembers t t := SameMembers.refl t
  cases haction : chosenAction t zst env with
  | skip => exact iff_true_intro hsame
  | repairTarOnly => exact iff_true_intro hsame
  | noop =>
      rcases action_spec (by rw [haction]; decide) with ⟨-, h⟩ | ⟨z, rfl, -, -, h⟩
      · rw [haction] at h
        cases h
      · have hmaps : mapsEquivalent (env.tarListing.members t) (memberMap z) = true := by
          by_contra hne
          rw [haction, if_neg hne] at h
          split_ifs at h
        obtain ⟨hlz, hzl⟩ := Bool.and_eq_true_iff.mp hmaps
        rw [show (some z).getD [] = z from rfl, listed_iff_kept hlz]
        constructor
        · rintro ⟨-, h⟩
          by_cases hd : DropFails env
          · exact Or.inl hd
          · exact Or.inr (h hd).1
        · intro h
          refine ⟨fun _ => hsame, fun hd => ?_⟩
          have hkept := h.resolve_left hd
          refine ⟨hkept, fun _ => sameMembers_iff.mpr fun m => ?_⟩
          exact ⟨kept_iff_covers.mp hkept m, kept_iff_covers.mp (kept_of_containedIn hzl) m⟩
  | sealFromTar =>
      have hkept : Kept (zst.getD []) t := by
        rcases action_spec (by rw [haction]; decide) with ⟨rfl, -⟩ | ⟨z, rfl, -, -, h⟩
        · exact fun m hm => absurd hm List.not_mem_nil
        · have hcont : containedIn (memberMap z) (env.tarListing.members t) = true := by
            by_contra hne
            rw [haction] at h
            split_ifs at h
          exact kept_of_containedIn hcont
      exact iff_true_intro ⟨fun _ => holdsUnion_left_iff.mpr hkept, fun _ => hsame⟩
  | mergeAndSeal =>
      obtain ⟨z, rfl, hscan, -⟩ := sealed_of_action (by rw [haction]; decide) (by rw [haction]; decide)
      rw [show (some z).getD [] = z from rfl]
      simp only [holdsUnion_unionTar_iff hscan, hsame, implies_true, and_true]

/-! ## The condition for the law -/

/-- A call in which every step succeeds but the read of the tar's member list, whose failure is
swallowed. -/
def swallowedEnv : ReconcileEnv where
  verifyFirst := .passed
  verifyInRepair := .passed
  verifyRepaired := .passed
  partlyListed := true
  tarfileRaises := false
  repairLocked := true
  freeSpace := true
  ninetyEightPercent := fun bytes => bytes * 98 / 100
  eofReported := false
  recreated := true
  tarListing := .swallowed
  scanReadable := true
  yieldsBefore := fun _ => false
  copiesFromTar := fun _ => true
  copiesFromZst := fun _ => true
  tmpVerified := true
  mergeLocked := true
  yieldRequested := false
  mergeMoved := true
  relistFails := false
  dropTested := true
  dropRemoved := true
  cacheWarm := false
  sealing := quietEnv

end DayReconcile
