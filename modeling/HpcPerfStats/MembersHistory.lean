/-
# Complete maps over the history of a day

The files of a day change, and the members store keeps a map for each identity of the files.  This module
runs the operations on one day one after another: appends to the daily tar, each followed by the merge
of `_archive_stats_files_body`, populate scans (`populate_archive_members` as
`execute_archive_members_populate_for_canonical` calls it), invalidations, a reload of the store from the
sidecar, and any other replacement of the files.

A file is its stamp (modification time and size), and `Contents` gives the members behind a stamp: files
of different contents have different stamps.  The identity of the day is written from the stamps of the
sealed archive and of the tar, so it is the pair of them.

* `Right` is the invariant: every map of the store and of the sidecar is the exact map of its identity;
* `Sound` is the condition on a step.  The merge after an append takes the map of the NEW identity, which
  is usually not there, and marks the appended names alone as the complete map; it is right only when the
  appended names are the whole tar.
-/
import HpcPerfStats.MembersStore
import HpcPerfStats.Transition

namespace MembersHistory

open ArchiveMembers MembersStore Transition

/-- `(st_mtime_ns, st_size)`. -/
abbrev Stamp := ℕ × ℕ

/-- The files of the day, which are also its identity (`_daily_archive_members_cache_key`). -/
structure Files where
  sealedArchive : Option Stamp
  tar : Option Stamp
  deriving DecidableEq, Repr

/-- The members behind a stamp. -/
structure Contents where
  sealedArchive : Stamp → Content
  tar : Stamp → Content

/-- The archive of the day: the open tar if there is one, otherwise the sealed archive. -/
def Contents.archive (contents : Contents) (files : Files) : Content :=
  match files.tar, files.sealedArchive with
  | some tar, _ => contents.tar tar
  | none, some sealedArchive => contents.sealedArchive sealedArchive
  | none, none => []

/-- The store of the day, its sidecar and the files. -/
structure State where
  files : Files
  shard : Shard Files ℕ
  sidecar : Option (Doc Files)

/-- A day that the store knows nothing of. -/
def start (files : Files) : State := ⟨files, Shard.empty, none⟩

/-! ## The operations -/

/-- `build_tar_append_member_map`: the sizes of the appended paths; a path without a size is passed over. -/
def buildTarAppendMemberMap (paths : List (String × Option ℕ)) : MemberMap :=
  paths.foldl (fun d p => match p.2 with
    | some size => PyDict.set d p.1 size
    | none => d) []

/-- How the scan of a populate ends: it has read the archive, the tar breaks off, or it fails. -/
inductive Scan where
  | read
  | truncated
  | failed
  deriving DecidableEq, Repr

/-- A name is listed twice. -/
def sawDuplicates (c : Content) : Bool := !decide (c.map Prod.fst).Nodup

/-- A populate that has scanned the content: `store_complete`, then `finish_populate`. -/
def publish (shard : Shard Files ℕ) (ident : Files) (c : Content) : Shard Files ℕ :=
  (shard.storeComplete ident (memberMap c) (sawDuplicates c)).finishPopulate ident none true

/-- A populate that has failed: `set_degraded`, then `finish_populate`. -/
def abandon (shard : Shard Files ℕ) (ident : Files) : Shard Files ℕ :=
  shard.setDegraded.finishPopulate ident none false

/-- The operations on a day. -/
inductive Action where
  /-- The paths are appended to the tar, which then has the given stamp; `cached` are the identities
  that the process-local cache has when there is nothing to merge. -/
  | append (tar : Stamp) (paths : List (String × Option ℕ)) (cached : List Files)
  | populate (me : ℕ) (scan : Scan)
  | invalidate (ident : Files)
  | invalidateAll
  | clearStaleIncomplete (ident : Files)
  | setDaySkip (skip : Skip)
  | clearDaySkip
  | reload
  | replaceFiles (files : Files)
  deriving DecidableEq, Repr

/-- `persist_day`. -/
def State.persist (s : State) : State := { s with sidecar := some s.shard.snapshot }

/-- The merge of `_archive_stats_files_body`, on the files as the append has left them. -/
def State.afterAppend (s : State) (paths : List (String × Option ℕ)) (cached : List Files) : State :=
  let reported := buildTarAppendMemberMap paths
  if reported = [] then
    let dropped := if cached = [] then [s.files] else cached
    State.persist { s with shard := dropped.foldl Shard.invalidate s.shard }
  else
    State.persist { s with
      shard := s.shard.mergeMembers s.files reported (reported.length < paths.length) }

/-- `populate_archive_members` on the files of the day. -/
def State.populate (s : State) (me : ℕ) (scan : Scan) (contents : Contents) : Option State :=
  if (s.shard.lookupCompleteMap s.files).isSome then some s
  else if s.files.tar = none ∧ s.files.sealedArchive = none then some s
  else
    (s.shard.tryBeginPopulate s.files me).bind fun shard =>
      match scan with
      | .read =>
          some (State.persist { s with shard := publish shard s.files (contents.archive s.files) })
      | .failed => some (State.persist { s with shard := abandon shard s.files })
      | .truncated =>
          match s.files.tar, s.files.sealedArchive with
          -- the tar breaks off: the populate is run again on the sealed archive
          | some _, some sealedArchive =>
              ((abandon shard s.files).tryBeginPopulate s.files me).bind fun shard =>
                some (State.persist { s with
                  shard := publish shard s.files (contents.sealedArchive sealedArchive) })
          | _, _ => some (State.persist { s with shard := abandon shard s.files })

/-- One operation. -/
def step (contents : Contents) (s : State) : Action → Option State
  | .append tar paths cached =>
      -- an append keeps what the tar has
      if paths ≠ [] ∧ ((s.files.tar.map contents.tar).getD []).isPrefixOf (contents.tar tar) then
        some (State.afterAppend { s with files := { s.files with tar := some tar } } paths cached)
      else none
  | .populate me scan => s.populate me scan contents
  | .invalidate ident => some (State.persist { s with shard := s.shard.invalidate ident })
  | .invalidateAll => some { s with shard := Shard.empty, sidecar := none }
  | .clearStaleIncomplete ident =>
      some (State.persist { s with shard := (s.shard.clearIncomplete ident).clearDegraded })
  | .setDaySkip skip => some (State.persist { s with shard := s.shard.setDaySkip skip })
  | .clearDaySkip => some (State.persist { s with shard := s.shard.clearDaySkip })
  | .reload => some { s with shard := Shard.load (s.sidecar.getD Doc.empty) }
  | .replaceFiles files => some { s with files := files }

/-! ## Exact maps -/

/-- The map is the name-to-largest-size map of the content. -/
def Exact (m : MemberMap) (c : Content) : Prop := ∀ name, m.lookup name = largest c name

theorem exact_memberMap (content : Content) : Exact (memberMap content) content := by
  intro name
  exact lookup_memberMap content name

/-- Every map is the exact map of its identity. -/
def ExactMaps (contents : Contents) (maps : Files → Option MemberMap) : Prop :=
  ∀ ident, ∀ m ∈ maps ident, Exact m (contents.archive ident)

/-- Every map of the shard is exact, and every complete identity has one. -/
structure RightShard (contents : Contents) (shard : Shard Files ℕ) : Prop where
  maps : ExactMaps contents shard.members
  backed : shard.MarksHaveMaps

/-- **The invariant.** -/
structure Right (contents : Contents) (s : State) : Prop where
  shard : RightShard contents s.shard
  sidecar : ∀ doc ∈ s.sidecar, ExactMaps contents doc.identities

/-- The names of the reported map are in the content, with at least the reported sizes. -/
def within (reported : MemberMap) (c : Content) : Bool :=
  reported.all fun e => ((memberMap c).lookup e.1).any fun size => decide (e.2 ≤ size)

/-- **The condition on a step.**  What an append reports is the map of the whole tar when the store has no
map of the new identity, and adds nothing to the map when it has one; a sealed archive that is scanned
in the place of the tar has the members of the tar. -/
def Sound (contents : Contents) (s : State) : Action → Prop
  | .append tar paths _ =>
      let reported := buildTarAppendMemberMap paths
      reported = [] ∨
        if (s.shard.members { s.files with tar := some tar }).isSome then
          within reported (contents.tar tar) = true
        else mapsEquivalent (memberMap reported) (memberMap (contents.tar tar)) = true
  | .populate _ .truncated =>
      ∀ tar ∈ s.files.tar, ∀ sealedArchive ∈ s.files.sealedArchive,
        mapsEquivalent (memberMap (contents.sealedArchive sealedArchive))
          (memberMap (contents.tar tar)) = true
  | _ => True

instance (contents : Contents) (s : State) : (a : Action) → Decidable (Sound contents s a)
  | .append tar paths _ =>
      inferInstanceAs (Decidable (buildTarAppendMemberMap paths = [] ∨
        if (s.shard.members { s.files with tar := some tar }).isSome then
          within (buildTarAppendMemberMap paths) (contents.tar tar) = true
        else mapsEquivalent (memberMap (buildTarAppendMemberMap paths))
          (memberMap (contents.tar tar)) = true))
  | .populate _ .truncated =>
      inferInstanceAs (Decidable (∀ tar ∈ s.files.tar, ∀ sealedArchive ∈ s.files.sealedArchive,
        mapsEquivalent (memberMap (contents.sealedArchive sealedArchive))
          (memberMap (contents.tar tar)) = true))
  | .populate _ .read => isTrue trivial
  | .populate _ .failed => isTrue trivial
  | .invalidate _ => isTrue trivial
  | .invalidateAll => isTrue trivial
  | .clearStaleIncomplete _ => isTrue trivial
  | .setDaySkip _ => isTrue trivial
  | .clearDaySkip => isTrue trivial
  | .reload => isTrue trivial
  | .replaceFiles _ => isTrue trivial

/-! ## What the operations of the store keep -/

section Shards

variable {contents : Contents} {shard : Shard Files ℕ}

theorem RightShard.empty : RightShard contents Shard.empty := by
  refine ⟨?_, Shard.backed_empty.map⟩
  intro ident m h
  cases h

theorem RightShard.dropStaleIdentities (h : RightShard contents shard) (keep : Files) :
    RightShard contents (shard.dropStaleIdentities keep) := by
  refine ⟨?_, h.backed.dropStaleIdentities keep⟩
  intro ident m hm
  rw [Option.mem_def, Shard.dropStaleIdentities] at hm
  dsimp only at hm
  split_ifs at hm
  exact h.maps ident m hm

theorem RightShard.putComplete (h : RightShard contents shard) {ident : Files} {m : MemberMap}
    (hm : Exact m (contents.archive ident)) (dup : Bool) :
    RightShard contents (shard.putComplete ident m dup) := by
  refine ⟨?_, h.backed.putComplete ident m dup⟩
  intro i m' hm'
  rw [Option.mem_def, Shard.putComplete] at hm'
  dsimp only at hm'
  by_cases hi : i = ident
  · subst hi
    rw [Function.update_self, Option.some.injEq] at hm'
    exact hm' ▸ hm
  · rw [Function.update_of_ne hi] at hm'
    exact h.maps i m' hm'

/-- Maps stay exact when one of them is taken out. -/
theorem ExactMaps.update_none {maps : Files → Option MemberMap} (h : ExactMaps contents maps)
    (ident : Files) : ExactMaps contents (Function.update maps ident none) := by
  intro i m hm
  rw [Option.mem_def] at hm
  by_cases hi : i = ident
  · subst hi
    rw [Function.update_self] at hm
    cases hm
  · rw [Function.update_of_ne hi] at hm
    exact h i m hm

theorem RightShard.invalidate (h : RightShard contents shard) (ident : Files) :
    RightShard contents (shard.invalidate ident) :=
  ⟨h.maps.update_none ident, h.backed.invalidate ident⟩

theorem RightShard.foldl_invalidate (h : RightShard contents shard) (dropped : List Files) :
    RightShard contents (dropped.foldl Shard.invalidate shard) := by
  induction dropped generalizing shard with
  | nil => exact h
  | cons ident dropped ih => exact ih (h.invalidate ident)

theorem RightShard.clearIncomplete (h : RightShard contents shard) (ident : Files) :
    RightShard contents (shard.clearIncomplete ident) := by
  refine ⟨?_, h.backed.clearIncomplete ident⟩
  rw [Shard.clearIncomplete]
  split_ifs
  · exact h.maps
  · exact h.maps.update_none ident

theorem RightShard.tryBeginPopulate (h : RightShard contents shard) {ident : Files} {me : ℕ}
    {shard' : Shard Files ℕ} (hbegin : shard.tryBeginPopulate ident me = some shard') :
    RightShard contents shard' := by
  refine ⟨?_, h.backed.tryBeginPopulate hbegin⟩
  unfold Shard.tryBeginPopulate at hbegin
  split_ifs at hbegin
  cases hbegin
  exact h.maps

/-- A populate publishes what it has scanned. -/
theorem RightShard.publish (h : RightShard contents shard) {ident : Files} {c : Content}
    (hc : ∀ name, largest c name = largest (contents.archive ident) name) :
    RightShard contents (publish shard ident c) := by
  have hm : Exact (memberMap c) (contents.archive ident) := by
    intro name
    rw [lookup_memberMap, hc]
  have hstored : RightShard contents (shard.storeComplete ident (memberMap c) (sawDuplicates c)) :=
    (h.putComplete hm _).dropStaleIdentities ident
  have hmap : ((shard.storeComplete ident (memberMap c) (sawDuplicates c)).members ident).isSome := by
    simp [Shard.storeComplete, Shard.dropStaleIdentities, Shard.putComplete, Shard.Stale]
  refine ⟨?_, hstored.backed.finishPopulate ident none true fun _ _ => hmap⟩
  intro i m hm
  rw [Option.mem_def] at hm
  simp only [MembersHistory.publish, Shard.finishPopulate, Shard.dropStaleIdentities, Option.isSome_none,
    Bool.false_eq_true, if_false, if_true] at hm
  split_ifs at hm
  exact hstored.maps i m hm

theorem RightShard.abandon (h : RightShard contents shard) (ident : Files) :
    RightShard contents (abandon shard ident) :=
  ⟨h.maps, h.backed⟩

/-- What comes in adds nothing to a size that is not smaller. -/
theorem max_largest_of_within {reported c : Content} (h : within reported c = true) (name : String) :
    max (largest c name) (largest reported name) = largest c name := by
  induction reported with
  | nil =>
      rw [largest_nil]
      exact Option.max_none_right
  | cons e reported ih =>
      rw [within, List.all_cons, Bool.and_eq_true] at h
      have hrest := ih h.2
      rw [largest_cons]
      by_cases hname : e.1 = name
      · subst hname
        rw [if_pos rfl]
        obtain ⟨size, hsize, hle⟩ := (Option.any_eq_true _ _).mp h.1
        rw [lookup_memberMap] at hsize
        rw [hsize] at hrest ⊢
        have hle : e.2 ≤ size := by simpa using hle
        cases hlargest : largest reported e.1 with
        | none => simpa using hle
        | some n =>
            rw [hlargest] at hrest
            have hn : n ≤ size := by simpa using hrest
            simp [hle, hn]
      · rw [if_neg hname]
        exact hrest

/-- Dictionaries that are equal have the same sizes. -/
theorem largest_eq_of_mapsEquivalent {c c' : Content}
    (h : mapsEquivalent (memberMap c) (memberMap c') = true) (name : String) :
    largest c name = largest c' name := by
  rw [← lookup_memberMap, ← lookup_memberMap]
  exact lookup_eq_of_mapsEquivalent h name

/-- The merge after an append. -/
theorem RightShard.mergeMembers (h : RightShard contents shard) {ident : Files} {reported : MemberMap}
    (hsound : if (shard.members ident).isSome then within reported (contents.archive ident) = true
      else mapsEquivalent (memberMap reported) (memberMap (contents.archive ident)) = true)
    (dup : Bool) : RightShard contents (shard.mergeMembers ident reported dup) := by
  have hexact : Exact (reported.foldl insertLargest ((shard.members ident).getD []))
      (contents.archive ident) := by
    intro name
    rw [lookup_foldl_insertLargest]
    cases hm : shard.members ident with
    | some m =>
        rw [hm, Option.isSome_some, if_pos rfl] at hsound
        rw [Option.getD_some, h.maps ident m hm name]
        exact max_largest_of_within hsound name
    | none =>
        simp only [hm, Option.isSome_none, Bool.false_eq_true, if_false] at hsound
        rw [Option.getD_none, List.lookup_nil, Option.max_none_left]
        exact largest_eq_of_mapsEquivalent hsound name
  have hclear : RightShard contents { shard with degraded := false } := ⟨h.maps, h.backed⟩
  exact (hclear.putComplete hexact dup).dropStaleIdentities ident

theorem RightShard.load {doc : Doc Files} (h : ExactMaps contents doc.identities) :
    RightShard contents (Shard.load doc) :=
  ⟨h, fun _ hc => hc⟩

end Shards

/-! ## Whole histories -/

theorem Right.persist {contents : Contents} {s : State} (h : RightShard contents s.shard) :
    Right contents s.persist := by
  refine ⟨h, ?_⟩
  intro doc hdoc ident m hm
  cases hdoc
  rw [Option.mem_def, Shard.snapshot] at hm
  dsimp only at hm
  split_ifs at hm
  exact h.maps ident m hm

theorem Right.afterAppend {contents : Contents} {s : State} (h : Right contents s)
    {paths : List (String × Option ℕ)} (cached : List Files)
    (hsound : buildTarAppendMemberMap paths = [] ∨
      if (s.shard.members s.files).isSome then
        within (buildTarAppendMemberMap paths) (contents.archive s.files) = true
      else mapsEquivalent (memberMap (buildTarAppendMemberMap paths))
        (memberMap (contents.archive s.files)) = true) :
    Right contents (s.afterAppend paths cached) := by
  unfold State.afterAppend
  by_cases hnil : buildTarAppendMemberMap paths = []
  · simp only [if_pos hnil]
    exact Right.persist (h.shard.foldl_invalidate _)
  · simp only [if_neg hnil]
    exact Right.persist (h.shard.mergeMembers (hsound.resolve_left hnil) _)

theorem Right.populate {contents : Contents} {s s' : State} (h : Right contents s) {me : ℕ}
    {scan : Scan} (hsound : Sound contents s (.populate me scan))
    (hstep : s.populate me scan contents = some s') : Right contents s' := by
  unfold State.populate at hstep
  split_ifs at hstep
  · exact Option.some.inj hstep ▸ h
  · exact Option.some.inj hstep ▸ h
  obtain ⟨shard, hbegin, hstep⟩ := Option.bind_eq_some_iff.mp hstep
  have hshard := h.shard.tryBeginPopulate hbegin
  cases scan with
  | read =>
      exact Option.some.inj hstep ▸ Right.persist (hshard.publish fun _ => rfl)
  | failed =>
      exact Option.some.inj hstep ▸ Right.persist (hshard.abandon s.files)
  | truncated =>
      dsimp only at hstep
      split at hstep
      case h_1 tar sealedArchive htar hsealed =>
          obtain ⟨shard', hbegin', hstep⟩ := Option.bind_eq_some_iff.mp hstep
          have hshard' := (hshard.abandon s.files).tryBeginPopulate hbegin'
          have harchive : contents.archive s.files = contents.tar tar := by
            simp [Contents.archive, htar]
          refine Option.some.inj hstep ▸ Right.persist (hshard'.publish ?_)
          rw [harchive]
          exact largest_eq_of_mapsEquivalent (hsound tar htar sealedArchive hsealed)
      case h_2 =>
          exact Option.some.inj hstep ▸ Right.persist (hshard.abandon s.files)

/-- **The step lemma.** -/
theorem right_step (contents : Contents) (s : State) (a : Action) (s' : State)
    (h : Right contents s) (hsound : Sound contents s a) (hstep : step contents s a = some s') :
    Right contents s' := by
  cases a with
  | append tar paths cached =>
      rw [step] at hstep
      split_ifs at hstep
      have happended : Right contents { s with files := { s.files with tar := some tar } } :=
        ⟨h.shard, h.sidecar⟩
      exact Option.some.inj hstep ▸ happended.afterAppend cached hsound
  | populate me scan => exact h.populate hsound hstep
  | invalidate ident => exact Option.some.inj hstep ▸ Right.persist (h.shard.invalidate ident)
  | invalidateAll =>
      refine Option.some.inj hstep ▸ ⟨RightShard.empty, ?_⟩
      intro doc hdoc
      cases hdoc
  | clearStaleIncomplete ident =>
      have hcleared := h.shard.clearIncomplete ident
      exact Option.some.inj hstep ▸ Right.persist ⟨hcleared.maps, hcleared.backed⟩
  | setDaySkip skip =>
      exact Option.some.inj hstep ▸ Right.persist ⟨h.shard.maps, h.shard.backed⟩
  | clearDaySkip =>
      exact Option.some.inj hstep ▸ Right.persist ⟨h.shard.maps, h.shard.backed⟩
  | reload =>
      refine Option.some.inj hstep ▸ ⟨RightShard.load ?_, h.sidecar⟩
      cases hdoc : s.sidecar with
      | none =>
          intro ident m hm
          cases hm
      | some doc => exact h.sidecar doc hdoc
  | replaceFiles files => exact Option.some.inj hstep ▸ ⟨h.shard, h.sidecar⟩

/-- **The complete map of the files on disk is exact**, after every history of sound operations. -/
theorem complete_exact_of_run (contents : Contents) (files : Files) (as : List Action) (s : State)
    (hsound : Respects (step contents) (Sound contents) (start files) as)
    (hrun : exec (step contents) (start files) as = some s) (m : MemberMap)
    (hm : s.shard.lookupCompleteMap s.files = some m) : Exact m (contents.archive s.files) := by
  have hstart : Right contents (start files) := by
    refine ⟨RightShard.empty, ?_⟩
    intro doc hdoc
    cases hdoc
  have h := exec_invariant (right_step contents) as (start files) s hstart hsound hrun
  unfold Shard.lookupCompleteMap at hm
  split_ifs at hm with hcomplete
  have hmap := h.shard.backed s.files hcomplete
  obtain ⟨m', hm'⟩ := Option.isSome_iff_exists.mp hmap
  rw [hm', Option.getD_some, Option.some.injEq] at hm
  exact hm ▸ h.shard.maps s.files m' hm'

/-- A tar that grows: one member at time 1, two at time 2. -/
def growingTar : Contents where
  sealedArchive := fun _ => []
  tar := fun stamp => if stamp = (1, 10) then [("a", 5)] else if stamp = (2, 20) then
    [("a", 5), ("b", 7)] else []

/-- The first append, a reload of the store, and a file that is scanned after another change. -/
theorem complete_exact_of_run_firstAppend :
    (exec (step growingTar) (start ⟨none, none⟩)
      [.append (1, 10) [("a", some 5)] [], .reload, .replaceFiles ⟨none, some (2, 20)⟩,
        .populate 0 .read]).any
      (fun s => s.shard.lookupCompleteMap s.files = some [("a", 5), ("b", 7)]) = true ∧
    Exact [("a", 5), ("b", 7)] (growingTar.archive ⟨none, some (2, 20)⟩) := by
  have hrun : ((exec (step growingTar) (start ⟨none, none⟩)
      [.append (1, 10) [("a", some 5)] [], .reload, .replaceFiles ⟨none, some (2, 20)⟩,
        .populate 0 .read]).map
      fun s => (s.files, s.shard.lookupCompleteMap s.files)) =
        some (⟨none, some (2, 20)⟩, some [("a", 5), ("b", 7)]) := by
    decide +kernel
  obtain ⟨s, hs, hread⟩ := Option.map_eq_some_iff.mp hrun
  rw [Prod.mk.injEq] at hread
  constructor
  · rw [hs]
    simp [hread.2]
  · rw [← hread.1]
    refine complete_exact_of_run growingTar ⟨none, none⟩ _ s ?_ hs _ hread.2
    decide +kernel

/-- The second append: the map of the new identity has the appended member alone. -/
theorem complete_not_exact_secondAppend :
    ∃ s m, exec (step growingTar) (start ⟨none, none⟩)
        [.append (1, 10) [("a", some 5)] [], .append (2, 20) [("b", some 7)] []] = some s ∧
      s.shard.lookupCompleteMap s.files = some m ∧ ¬ Exact m (growingTar.archive s.files) := by
  have hrun : ((exec (step growingTar) (start ⟨none, none⟩)
      [.append (1, 10) [("a", some 5)] [], .append (2, 20) [("b", some 7)] []]).map
      fun s => (s.files, s.shard.lookupCompleteMap s.files)) =
        some (⟨none, some (2, 20)⟩, some [("b", 7)]) := by
    decide +kernel
  obtain ⟨s, hs, hread⟩ := Option.map_eq_some_iff.mp hrun
  rw [Prod.mk.injEq] at hread
  refine ⟨s, _, hs, hread.2, ?_⟩
  intro hexact
  rw [hread.1] at hexact
  have ha := hexact "a"
  revert ha
  decide

end MembersHistory
