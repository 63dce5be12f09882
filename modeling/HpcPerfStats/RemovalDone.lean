/-
# When a day of raw removal is done

`RawRemoval` leaves the end of a delete pass to an oracle.  Here it is computed: after the delete loop
`_batch_delete_completion_context` looks at the entries of the manifest and at the files, and
`_apply_batch_delete_body` then sets the phase; `try_finish_tar_drop_if_ready` does the same for a day
whose archive is sealed.  The check and the change of the phase are two steps, between which the other
workers go on.

* `Day` is a state of `RawRemoval` with what each worker is about to do to the phase;
* `Day.step` is a step of `RawRemoval`, a completion check, a tar drop, or the change of the phase;
* `Completed` is what `done` should mean: every raw file of the manifest is gone or in quarantine, and
  the counters count the entries;
* `completed_of_run`: it holds whenever `done` is set, in every run that meets `Watched`.

The check lets entries with some statuses pass although their file is still there, and the delete loop
changes a status without the counters: `Watched` names these cases.
-/
import HpcPerfStats.OrderedDict
import HpcPerfStats.RawRemoval

namespace RemovalDone

open RawRemoval
open scoped Transition

variable {n : ℕ}

/-! ## Entries -/

/-- What the completion checks read of an entry: its status and its reason. -/
abbrev Tag := Status × String

def tag (e : Entry) : Tag := (e.status, e.reason)

/-- The manifest as the completion checks read it. -/
def view (s : State n) : List (String × Tag) :=
  s.entries.map fun x => (x.1, tag x.2)

/-- `RETRYABLE_SKIP_REASONS`. -/
def retryableSkipReasons : List String :=
  ["not_head_tail_ingested", "not_sample_ingested", "not_head_ingested", "not_in_sealed_archive",
    "size_mismatch"]

/-- `RETRYABLE_SKIP_STATUSES`, without those of legacy manifests. -/
def retryableSkipStatuses : List Status :=
  [.skippedNotHeadTailIngested, .skippedNotInArchive, .skippedSizeMismatch]

/-- `_entry_is_retryable_skip`. -/
def entryIsRetryableSkip (t : Tag) : Bool :=
  t.2 ∈ retryableSkipReasons || t.1 ∈ retryableSkipStatuses

/-- `_entry_is_quarantine_terminal_skip`. -/
def entryIsQuarantineTerminalSkip (t : Tag) : Bool :=
  t.2 == "quarantine" || t.1 == .skippedQuarantine

/-- `_entry_is_verified_ghost_on_disk`. -/
def entryIsVerifiedGhost (e : Entry) : Bool :=
  e.deleted && e.status == .verified

/-- Verified and not deleted. -/
def verifiedPending (e : Entry) : Bool :=
  e.status == .verified && !e.deleted

/-! ## What the completion checks look at -/

/-- What a check asks of the world outside: the closed raw files of the day by the directory census, the
paths whose calendar day is that of another archive, the paths that quarantine skips, and whether the
census may be used. -/
structure Outside where
  listing : List String
  misaligned : List String
  skipPaths : List String
  dayScoped : Bool
  deriving DecidableEq

section Checks

variable (s : State n) (o : Outside)

/-- `os.path.isfile`. -/
def isFile (path : String) : Bool :=
  (s.files path).isSome

/-- `_manifest_entries_on_disk`. -/
def manifestEntriesOnDisk : Entries :=
  s.entries.filter fun x => isFile s x.1

/-- `_blocking_manifest_paths_on_disk`. -/
def blockingManifestPathsOnDisk : List String :=
  ((manifestEntriesOnDisk s).filter fun x =>
    !entryIsVerifiedGhost x.2 && !entryIsQuarantineTerminalSkip (tag x.2)
      && !(o.misaligned.contains x.1)).map Prod.fst

/-- `_manifest_retryable_paths_on_disk`. -/
def manifestRetryablePathsOnDisk : List String :=
  ((manifestEntriesOnDisk s).filter fun x => entryIsRetryableSkip (tag x.2)).map Prod.fst

/-- `_ghost_deleted_paths_on_disk`. -/
def ghostDeletedPathsOnDisk : List String :=
  ((manifestEntriesOnDisk s).filter fun x => entryIsVerifiedGhost x.2).map Prod.fst

/-- `_only_quarantine_terminal_on_disk`. -/
def onlyQuarantineTerminalOnDisk : Bool :=
  !(manifestEntriesOnDisk s).isEmpty
    && (manifestEntriesOnDisk s).all fun x => entryIsQuarantineTerminalSkip (tag x.2)

/-- `_closed_raw_paths_on_disk`: the manifest once it is verified, the census before. -/
def closedRawPathsOnDisk : List String :=
  match s.phase with
  | .done => blockingManifestPathsOnDisk s o
  | .verifying => o.listing
  | _ =>
      let blocking := blockingManifestPathsOnDisk s o
      blocking ++ (manifestRetryablePathsOnDisk s).filter fun p => !blocking.contains p

/-- The tag of a path's entry. -/
def tagOf (path : String) : Option Tag :=
  (s.entries.lookup path).map tag

/-- `_all_closed_raw_terminal_or_gone`.  In the phases of the delete pass an entry on disk is in the way
only when it is retryable or waits for its deletion. -/
def allClosedRawTerminalOrGone : Bool :=
  if s.phase = .verificationComplete ∨ s.phase = .deleting then
    (manifestEntriesOnDisk s).all fun x =>
      entryIsQuarantineTerminalSkip (tag x.2)
        || (!entryIsRetryableSkip (tag x.2) && !verifiedPending x.2)
  else
    ((closedRawPathsOnDisk s o).filter (isFile s)).all fun p =>
      match tagOf s p with
      | none => false
      | some t => entryIsQuarantineTerminalSkip t || !entryIsRetryableSkip t

/-- `_unmanifested_closed_raw_paths`. -/
def unmanifestedClosedRawPaths : List String :=
  if s.phase = .verifying then
    (o.listing.filter (isFile s)).filter fun p => (tagOf s p).isNone
  else []

/-- A retryable entry among the tags, and otherwise quarantine only. -/
def waitingTags (tags : List Tag) : Bool :=
  (tags.all fun t => entryIsRetryableSkip t || entryIsQuarantineTerminalSkip t)
    && tags.any entryIsRetryableSkip

/-- `_only_waiting_on_ingest_blocks_completion`. -/
def onlyWaitingOnIngestBlocksCompletion : Bool :=
  if s.phase = .verifying then
    (unmanifestedClosedRawPaths s o).isEmpty
      && waitingTags ((o.listing.filter (isFile s)).filterMap (tagOf s))
  else waitingTags ((manifestEntriesOnDisk s).map fun x => tag x.2)

/-- `_has_closed_raw_existing_on_disk`, which is asked only when a retryable file is on disk. -/
def hasClosedRawExistingOnDisk : Bool :=
  match s.phase with
  | .done => !(blockingManifestPathsOnDisk s o).isEmpty
  | .verifying => o.listing.any (isFile s)
  | _ =>
      !(blockingManifestPathsOnDisk s o).isEmpty || !(ghostDeletedPathsOnDisk s).isEmpty
        || !(manifestRetryablePathsOnDisk s).isEmpty

/-- `_remaining_raw_paths_blocking_tar_drop`, without the case of quarantine only. -/
def remainingRawPathsBlockingTarDrop : List String :=
  if s.phase = .verifying then
    (o.listing.filter (isFile s)).filter fun p =>
      !o.skipPaths.contains p
        && !((tagOf s p).any entryIsQuarantineTerminalSkip) && !o.misaligned.contains p
  else blockingManifestPathsOnDisk s o

/-- `handoff_paths_for_ingest`. -/
def handoffPathsForIngest : List String :=
  if s.phase = .verifying ∧ o.dayScoped = true then
    (o.listing.filter (isFile s)).filter fun p => (tagOf s p).all entryIsRetryableSkip
  else manifestRetryablePathsOnDisk s

/-- The retryable files that `_mark_done_waiting_on_ingest` counts. -/
def retryableClosedRaw : List String :=
  ((closedRawPathsOnDisk s o).filter (isFile s)).filter fun p =>
    (tagOf s p).any entryIsRetryableSkip

end Checks

/-! ## The end of a pass -/

/-- What a worker is about to do to the phase. -/
inductive Finish where
  /-- `_finalize_quarantine_terminal_done`; the caller then goes on to set `done` itself -/
  | finalize
  /-- `_mark_done_waiting_on_ingest` -/
  | mark
  | setPhase (phase : Phase)
  deriving DecidableEq

/-- The finish sets `done` next. -/
def Finish.setsDone : Finish → Bool
  | .finalize => true
  | .mark => false
  | .setPhase phase => phase == .done

/-- `_batch_delete_completion_context` and the branches on it; `none`: the manifest is saved as it is. -/
def completion (s : State n) (o : Outside) : Option Finish :=
  if pendingDelete s.entries ≠ [] then none
  else if allClosedRawTerminalOrGone s o then
    if onlyQuarantineTerminalOnDisk s then some .finalize else some (.setPhase .done)
  else if onlyWaitingOnIngestBlocksCompletion s o && hasClosedRawExistingOnDisk s o then some .mark
  else if unmanifestedClosedRawPaths s o ≠ [] then some (.setPhase .verifying)
  else some (.setPhase .verificationComplete)

/-- The test of `try_finish_tar_drop_if_ready` for a day with a sealed archive; `none`: raw files are in
the way. -/
def tarDrop (s : State n) (o : Outside) : Option Finish :=
  if onlyQuarantineTerminalOnDisk s then some .finalize
  else if remainingRawPathsBlockingTarDrop s o ≠ [] then none
  else some (.setPhase .done)

/-- A day of raw removal. -/
structure Day (n : ℕ) where
  removal : State n
  finish : Fin n → Option Finish

inductive DayAct (n : ℕ) where
  | removal (a : Act n)
  /-- the completion check after a delete loop -/
  | complete (w : Fin n) (o : Outside)
  | tarDrop (w : Fin n) (o : Outside)
  /-- the phase is changed as the worker has decided -/
  | conclude (w : Fin n) (o : Outside)
  /-- the removal of the tar has failed -/
  | giveUp (w : Fin n)
  deriving DecidableEq

/-- The worker that performs an action. -/
def actor : Act n → Option (Fin n)
  | .append _ _ _ => none
  | .phaseChange _ => none
  | .verify w _ _ _ _ _ _ => some w
  | .gate w _ _ => some w
  | .applyBatchDelete w _ => some w
  | .finishDelete w _ => some w
  | .removeVerifiedArchived w _ _ _ _ => some w
  | .next w _ => some w
  | .stop w => some w

/-- The oracle for the end of a pass is not used here. -/
def usesOracle : Act n → Bool
  | .finishDelete _ _ => true
  | _ => false

namespace Day

def setFinish (s : Day n) (w : Fin n) (f : Option Finish) : Day n :=
  { s with finish := Function.update s.finish w f }

def setPhase (s : Day n) (phase : Phase) : Day n :=
  { s with removal := { s.removal with phase := phase } }

/-- The change of the phase. -/
def conclude (s : Day n) (w : Fin n) (o : Outside) : Finish → Day n
  | .finalize => (s.setPhase .done).setFinish w (some (.setPhase .done))
  | .mark =>
      if handoffPathsForIngest s.removal o = [] then s.setFinish w none
      else if retryableClosedRaw s.removal o ≠ [] then s.setFinish w none
      else s.setFinish w (some (.setPhase .done))
  | .setPhase phase => (s.setPhase phase).setFinish w none

def step (s : Day n) : DayAct n → Option (Day n)
  | .removal a =>
      if usesOracle a = false ∧ (∀ w ∈ actor a, s.finish w = none) then
        (RawRemoval.step s.removal a).map fun r => { s with removal := r }
      else none
  | .complete w o =>
      match s.removal.pc w with
      | .deleting d =>
          if d.todo = [] ∨ d.maxDeletes ≠ 0 ∧ d.maxDeletes ≤ d.deleted then
            some { removal := s.removal.setPc w .idle
                   finish := Function.update s.finish w (completion s.removal o) }
          else none
      | _ => none
  | .tarDrop w o =>
      if s.removal.pc w = .idle ∧ s.finish w = none then
        some (s.setFinish w (RemovalDone.tarDrop s.removal o))
      else none
  | .conclude w o => (s.finish w).map (s.conclude w o)
  | .giveUp w => some (s.setFinish w none)

end Day

/-! ## The property and its condition -/

/-- Every raw path of the manifest is gone or in quarantine. -/
def AllGone (s : State n) : Prop :=
  ∀ x ∈ view s, s.files x.1 = none ∨ entryIsQuarantineTerminalSkip x.2 = true

/-- The counters count the entries. -/
def CountsMatch (s : State n) : Prop :=
  s.verifiedCount = (view s).countP (fun x => x.2.1 == .verified) ∧
    s.skippedCount = (view s).countP fun x => x.2.1 != .verified

/-- **What `done` should mean.** -/
def Completed (s : State n) : Prop :=
  AllGone s ∧ CountsMatch s

/-- Entries that the completion check lets pass although their file is there: skips that are neither
retryable nor quarantine, and verified entries that are marked as deleted. -/
def overlooked (e : Entry) : Bool :=
  match e.status with
  | .skippedSealInvalid | .skippedActiveSegment | .skippedFingerprintChanged => true
  | .verified => e.deleted
  | _ => false

/-- The action finds that the fingerprint of an entry of the manifest has changed. -/
def findsChange (s : State n) : Act n → Bool
  | .next w _ =>
      match s.pc w with
      | .deletingPath path (.statted fp) d =>
          d.gen == s.gen && ((s.dicts d.gen).lookup path).any fun e => e.fp != fp
      | _ => false
  | _ => false

/-- The action neither creates a raw file of the manifest nor enters a path that is on disk. -/
def quiet (s : State n) : Act n → Bool
  | .append path _ _ => isFile s path || (s.entries.lookup path).isNone
  | .next w _ =>
      match s.pc w with
      | .recordLocked r _ _ _ _ => !isFile s r.path || r.status == .skippedQuarantine
      | _ => true
  | _ => true

/-- A worker is about to set `done`. -/
def Day.settingDone (s : Day n) (w : Fin n) : Bool :=
  (s.finish w).any Finish.setsDone

/-- **The condition.**  No delete pass finds a changed fingerprint; a completion check is made in the
phases of the delete pass, with no overlooked entry on disk; a tar drop after the verification, with no
ghost and no path of another day on disk; and while a worker is about to set `done`, the others are
quiet. -/
def Watched (s : Day n) : DayAct n → Prop
  | .removal a =>
      findsChange s.removal a = false ∧
        ((∃ w, s.settingDone w = true) → quiet s.removal a = true)
  | .complete _ _ =>
      (s.removal.phase = .verificationComplete ∨ s.removal.phase = .deleting) ∧
        ∀ x ∈ manifestEntriesOnDisk s.removal, overlooked x.2 = false
  | .tarDrop _ o =>
      s.removal.phase ≠ .verifying ∧
        ∀ x ∈ manifestEntriesOnDisk s.removal,
          entryIsVerifiedGhost x.2 = false ∧ x.1 ∉ o.misaligned
  | .conclude w _ =>
      s.finish w = some .mark →
        s.removal.phase = .verificationComplete ∨ s.removal.phase = .deleting
  | .giveUp _ => True

instance (s : Day n) : ∀ a, Decidable (Watched s a)
  | .removal a => inferInstanceAs (Decidable (findsChange s.removal a = false ∧
      ((∃ w, s.settingDone w = true) → quiet s.removal a = true)))
  | .complete _ _ => inferInstanceAs (Decidable
      ((s.removal.phase = .verificationComplete ∨ s.removal.phase = .deleting) ∧
        ∀ x ∈ manifestEntriesOnDisk s.removal, overlooked x.2 = false))
  | .tarDrop _ o => inferInstanceAs (Decidable (s.removal.phase ≠ .verifying ∧
      ∀ x ∈ manifestEntriesOnDisk s.removal,
        entryIsVerifiedGhost x.2 = false ∧ x.1 ∉ o.misaligned))
  | .conclude w _ => inferInstanceAs (Decidable (s.finish w = some .mark →
      s.removal.phase = .verificationComplete ∨ s.removal.phase = .deleting))
  | .giveUp _ => isTrue trivial

/-! ## What a step of a pass does to the manifest -/

/-- No raw file appears but one that is appended to. -/
def NoneAppears (s s' : State n) (a : Act n) : Prop :=
  ∀ path, s.files path = none → s'.files path = none ∨ ∃ bytes mtime, a = .append path bytes mtime

/-- The changes of the manifest, as the completion checks read it, and of its counters. -/
inductive ManifestChange (s s' : State n) (a : Act n) : Prop
  | kept (hview : view s' = view s) (hverified : s'.verifiedCount = s.verifiedCount)
      (hskipped : s'.skippedCount = s.skippedCount) (hfiles : NoneAppears s s' a)
  | recorded (w : Fin n) (ok : Bool) (r : Verdict) (fp : Option Fingerprint)
      (todo : List Verdict) (ready : List Item) (v : Pass) (ha : a = .next w ok)
      (hpc : s.pc w = .recordLocked r fp todo ready v) (hview : view s' = view (s.recordEntry r fp))
      (hverified : s'.verifiedCount = (s.recordEntry r fp).verifiedCount)
      (hskipped : s'.skippedCount = (s.recordEntry r fp).skippedCount) (hfiles : s'.files = s.files)
  | emptied (hview : view s' = []) (hverified : s'.verifiedCount = 0) (hskipped : s'.skippedCount = 0)

theorem ManifestChange.same {s s' : State n} {a : Act n} (hview : view s' = view s)
    (hverified : s'.verifiedCount = s.verifiedCount) (hskipped : s'.skippedCount = s.skippedCount)
    (hfiles : s'.files = s.files) : ManifestChange s s' a := by
  refine .kept hview hverified hskipped ?_
  intro path hpath
  rw [hfiles]
  exact Or.inl hpath

theorem ManifestChange.ite {s t u : State n} {a : Act n} {c : Prop} [Decidable c]
    (ht : ManifestChange s t a) (hu : ManifestChange s u a) :
    ManifestChange s (if c then t else u) a := by
  split
  · exact ht
  · exact hu

/-- Afterwards nothing but the phase and the workers changes. -/
theorem ManifestChange.congr {s t u : State n} {a : Act n} (h : ManifestChange s t a)
    (hview : view u = view t) (hverified : u.verifiedCount = t.verifiedCount)
    (hskipped : u.skippedCount = t.skippedCount) (hfiles : u.files = t.files) :
    ManifestChange s u a := by
  cases h with
  | kept hv hn hm hf =>
      refine .kept (hview.trans hv) (hverified.trans hn) (hskipped.trans hm) ?_
      unfold NoneAppears
      rwa [hfiles]
  | recorded w ok r fp todo ready v ha hpc hv hn hm hf =>
      exact .recorded w ok r fp todo ready v ha hpc (hview.trans hv) (hverified.trans hn)
        (hskipped.trans hm) (hfiles.trans hf)
  | emptied hv hn hm => exact .emptied (hview.trans hv) (hverified.trans hn) (hskipped.trans hm)

/-- Marks on an entry that the checks do not read. -/
theorem view_modifyEntry (s : State n) (gen : ℕ) (path : String) (f : Entry → Entry)
    (hf : ∀ e, (s.dicts gen).lookup path = some e → gen = s.gen → tag (f e) = tag e) :
    view (s.modifyEntry gen path f) = view s := by
  unfold State.modifyEntry
  cases hlookup : (s.dicts gen).lookup path with
  | none => rfl
  | some e =>
      unfold view State.entries
      by_cases hgen : gen = s.gen
      · subst hgen
        show List.map _ ((s.setDict s.gen (PyDict.set (s.dicts s.gen) path (f e))).dicts s.gen) = _
        rw [setDict_dicts_self, PyDict.map_set_values, hf e hlookup rfl]
        exact PyDict.set_lookup (by rw [PyDict.lookup_map_values, hlookup]; rfl)
      · show List.map _ ((s.setDict gen (PyDict.set (s.dicts gen) path (f e))).dicts s.gen) = _
        rw [setDict_dicts_of_ne _ _ (Ne.symm hgen)]

theorem recordEntry_files (s : State n) (r : Verdict) (fp : Option Fingerprint) :
    (s.recordEntry r fp).files = s.files := by
  unfold State.recordEntry
  simp only
  split
  · split_ifs <;> rfl
  · split_ifs <;> rfl

/-- A raw file is removed. -/
theorem manifestChange_remove (s : State n) (path : String) (f : Fingerprint) (c : Checks) (a : Act n) :
    ManifestChange s (s.remove path f c) a := by
  refine .kept rfl rfl rfl ?_
  intro q hq
  left
  show Function.update s.files path none q = none
  by_cases hpath : q = path
  · rw [hpath, Function.update_self]
  · rw [Function.update_of_ne hpath, hq]

/-- Ghosts that are pending again keep their status. -/
theorem view_prepareGhostDeleteRetry (s : State n) : view s.prepareGhostDeleteRetry = view s := by
  unfold State.prepareGhostDeleteRetry
  split
  · unfold view State.entries
    show List.map _ ((s.setDict s.gen _).dicts s.gen) = _
    rw [setDict_dicts_self, List.map_map]
    apply List.map_congr_left
    intro x _
    simp only [Function.comp]
    split
    · rfl
    · rfl
  · rfl

theorem manifestChange_prepareGhostDeleteRetry (s : State n) (a : Act n) :
    ManifestChange s s.prepareGhostDeleteRetry a := by
  have hview := view_prepareGhostDeleteRetry s
  unfold State.prepareGhostDeleteRetry at hview ⊢
  split
  · rename_i hany
    rw [if_pos hany] at hview
    exact .same hview rfl rfl rfl
  · exact .same rfl rfl rfl rfl

theorem manifestChange_changePhase (s : State n) (c : PhaseChange) (a : Act n) :
    ManifestChange s (s.changePhase c) a := by
  cases c with
  | ghostRetry => exact manifestChange_prepareGhostDeleteRetry s a
  | resetForReverify =>
      refine .emptied ?_ rfl rfl
      unfold view State.entries
      show List.map _ ((s.setDict (s.gen + 1) []).dicts (s.gen + 1)) = _
      rw [setDict_dicts_self]
      rfl
  | postSealVerified => exact .same rfl rfl rfl rfl
  | finalizeDone => exact .same rfl rfl rfl rfl
  | beginDeleting blocking => exact .ite (.same rfl rfl rfl rfl) (.same rfl rfl rfl rfl)
  | reopenDeletePhase => exact .ite (.same rfl rfl rfl rfl) (.same rfl rfl rfl rfl)
  | reopenStaleDone => exact .ite (.same rfl rfl rfl rfl) (.same rfl rfl rfl rfl)
  | promotePhase waiting => exact .ite (.same rfl rfl rfl rfl) (.same rfl rfl rfl rfl)

theorem manifestChange_modifyEntry (s : State n) (gen : ℕ) (path : String) (f : Entry → Entry)
    (hf : ∀ e, (s.dicts gen).lookup path = some e → gen = s.gen → tag (f e) = tag e) (a : Act n) :
    ManifestChange s (s.modifyEntry gen path f) a := by
  have hview := view_modifyEntry s gen path f hf
  unfold State.modifyEntry at hview ⊢
  split
  · exact .same rfl rfl rfl rfl
  · rename_i e he
    simp only [he] at hview
    exact .same hview rfl rfl rfl

/-- One step of the delete loop inside a path changes no tag, unless it finds a changed fingerprint. -/
theorem manifestChange_deletePathNext (s : State n) (w : Fin n) (path : String) (d : DeletePass) (ok : Bool)
    (stage : DeleteStage) (hpc : s.pc w = .deletingPath path stage d)
    (hfind : findsChange s (.next w ok) = false) :
    ManifestChange s (s.deletePathNext w path d ok stage) (.next w ok) := by
  -- the flag `deleted` is not part of the tag
  have hmark : ManifestChange s (s.modifyEntry d.gen path fun e => { e with deleted := true })
      (.next w ok) := by
    apply manifestChange_modifyEntry
    intro e _ _
    rfl
  cases stage with
  | found =>
      unfold State.deletePathNext
      exact .ite (hmark.congr rfl rfl rfl rfl) (.same rfl rfl rfl rfl)
  | present => exact .same rfl rfl rfl rfl
  | statted fp =>
      unfold State.deletePathNext
      simp only
      cases hlookup : (s.dicts d.gen).lookup path with
      | none => exact .same rfl rfl rfl rfl
      | some e =>
          simp only
          by_cases hfp : e.fp = fp
          · rw [if_pos hfp]
            exact .same rfl rfl rfl rfl
          · rw [if_neg hfp]
            refine (manifestChange_modifyEntry s d.gen path _ ?_ _).congr rfl rfl rfl rfl
            -- the pass works on a dictionary that a reset has replaced
            intro e' _ hgen
            simp only [findsChange, hpc, hlookup, Option.any_some, Bool.and_eq_false_iff] at hfind
            rcases hfind with hother | hsame
            · exact absurd hgen (by simpa using hother)
            · exact absurd (by simpa using hsame) hfp
  | checked c =>
      unfold State.deletePathNext
      simp only
      split
      · rename_i f _
        exact (manifestChange_remove s path f c _).congr rfl rfl rfl rfl
      · exact .same rfl rfl rfl rfl
  | removed => exact hmark.congr rfl rfl rfl rfl

/-- The next step of a worker. -/
theorem manifestChange_next {s s' : State n} {w : Fin n} {ok : Bool}
    (hfind : findsChange s (.next w ok) = false) (h : s.next w ok = some s') :
    ManifestChange s s' (.next w ok) := by
  -- only the record of a classified path and the two deletions change the manifest
  unfold State.next at h
  split at h
  · cases h
  · split at h
    · rw [Option.some.injEq] at h
      subst h
      exact .same rfl rfl rfl rfl
    · cases h
  · rename_i todo results v hpc
    rw [Option.some.injEq] at h
    subst h
    unfold State.classifyNext
    split
    · exact .same rfl rfl rfl rfl
    · exact .ite (.ite (.same rfl rfl rfl rfl) (.same rfl rfl rfl rfl)) (.same rfl rfl rfl rfl)
  · rename_i v hpc
    rw [Option.some.injEq] at h
    subst h
    unfold State.nextBatch
    split
    · exact .same rfl rfl rfl rfl
    · exact .same rfl rfl rfl rfl
    · exact .ite (.same rfl rfl rfl rfl) (.ite (.same rfl rfl rfl rfl) (.same rfl rfl rfl rfl))
  · rw [Option.some.injEq] at h
    subst h
    exact .same rfl rfl rfl rfl
  · rw [Option.some.injEq] at h
    subst h
    exact .same rfl rfl rfl rfl
  · rename_i r fp todo ready v hpc
    rw [Option.some.injEq] at h
    subst h
    exact .recorded w ok r fp todo ready v rfl hpc rfl rfl rfl (recordEntry_files s r fp)
  · rename_i d hpc
    unfold State.deleteNext at h
    split at h
    · cases h
    · split at h
      · cases h
      · simp only at h
        split at h
        · rw [Option.some.injEq] at h
          subst h
          exact .same rfl rfl rfl rfl
        · split at h
          · rw [Option.some.injEq] at h
            subst h
            exact .same rfl rfl rfl rfl
          · rw [Option.some.injEq] at h
            subst h
            exact .same rfl rfl rfl rfl
  · rename_i path stage d hpc
    rw [Option.some.injEq] at h
    subst h
    exact manifestChange_deletePathNext s w path d ok stage hpc hfind
  · split at h
    · rw [Option.some.injEq] at h
      subst h
      exact .same rfl rfl rfl rfl
    · rw [Option.some.injEq] at h
      subst h
      exact .same rfl rfl rfl rfl
  · rename_i path stage m hpc
    rw [Option.some.injEq] at h
    subst h
    cases stage with
    | toGate =>
        exact .ite (.same rfl rfl rfl rfl) (.ite (.same rfl rfl rfl rfl) (.same rfl rfl rfl rfl))
    | toClassify gate => exact .ite (.same rfl rfl rfl rfl) (.same rfl rfl rfl rfl)
    | verified c => exact .ite (.same rfl rfl rfl rfl) (.ite (.same rfl rfl rfl rfl) (.same rfl rfl rfl rfl))
    | statted c expected => exact .ite (.same rfl rfl rfl rfl) (.same rfl rfl rfl rfl)
    | compared c =>
        unfold State.maintPathNext
        simp only
        split
        · rename_i f _
          exact (manifestChange_remove s path f c _).congr rfl rfl rfl rfl
        · exact .same rfl rfl rfl rfl

/-- **A step of a pass and the manifest.** -/
theorem manifestChange_step {s s' : State n} {a : Act n} (hfind : findsChange s a = false)
    (h : RawRemoval.step s a = some s') : ManifestChange s s' a := by
  cases a with
  | append path bytes mtime =>
      rw [RawRemoval.step, Option.some.injEq] at h
      subst h
      refine .kept rfl rfl rfl ?_
      intro q hq
      by_cases hpath : q = path
      · exact Or.inr ⟨bytes, mtime, by rw [hpath]⟩
      · exact Or.inl ((append_files_of_ne s bytes mtime hpath).trans hq)
  | phaseChange c =>
      rw [RawRemoval.step, Option.some.injEq] at h
      subst h
      exact manifestChange_changePhase s c _
  | verify w kind skips paths gateFn members pathsPerTick =>
      rw [RawRemoval.step] at h
      split at h
      · rw [Option.some.injEq] at h
        subst h
        unfold State.startVerify
        simp only
        split
        · exact .same rfl rfl rfl rfl
        · exact .same rfl rfl rfl rfl
        · exact .same rfl rfl rfl rfl
        · exact .same rfl rfl rfl rfl
        · exact .same rfl rfl rfl rfl
      · cases h
  | gate w path ready =>
      rw [RawRemoval.step] at h
      split at h
      · split at h
        · simp only at h
          split at h
          · rw [Option.some.injEq] at h
            subst h
            exact .same rfl rfl rfl rfl
          · rw [Option.some.injEq] at h
            subst h
            exact .same rfl rfl rfl rfl
        · cases h
      · cases h
  | applyBatchDelete w maxDeletes =>
      rw [RawRemoval.step] at h
      split at h
      · rw [Option.some.injEq] at h
        subst h
        have hretry : ManifestChange s
            (if s.needsGhostDeleteRetry = true then s.prepareGhostDeleteRetry else s)
            (.applyBatchDelete w maxDeletes) :=
          .ite (manifestChange_prepareGhostDeleteRetry s _) (.same rfl rfl rfl rfl)
        unfold State.startDelete
        exact .ite (hretry.congr rfl rfl rfl rfl) hretry
      · cases h
  | finishDelete w census =>
      rw [RawRemoval.step] at h
      split at h
      · split at h
        · rw [Option.some.injEq] at h
          subst h
          exact .same rfl rfl rfl rfl
        · cases h
      · cases h
  | removeVerifiedArchived w paths gateFn members requireFingerprint =>
      rw [RawRemoval.step] at h
      split at h
      · rw [Option.some.injEq] at h
        subst h
        exact .same rfl rfl rfl rfl
      · cases h
  | next w ok => exact manifestChange_next hfind h
  | stop w =>
      rw [RawRemoval.step, Option.some.injEq] at h
      subst h
      exact .same rfl rfl rfl rfl

/-! ## Recording an entry -/

/-- The manifest once an entry is stored. -/
theorem view_stored {s t : State n} {path : String} {e : Entry} (hgen : t.gen = s.gen)
    (hdicts : t.dicts = (s.setDict s.gen (PyDict.set s.entries path e)).dicts) :
    view t = PyDict.set (view s) path (tag e) := by
  unfold view State.entries
  rw [hgen, hdicts, setDict_dicts_self, PyDict.map_set_values]
  rfl

/-- **`_record_entry`.**  An entry that is verified or has the status already is kept; a new path and a
path with another status get the verdict, and the counters follow. -/
theorem recordEntry_spec (s : State n) (r : Verdict) (fp : Option Fingerprint) :
    (view (s.recordEntry r fp) = view s ∧ (s.recordEntry r fp).verifiedCount = s.verifiedCount ∧
      (s.recordEntry r fp).skippedCount = s.skippedCount) ∨
    (view (s.recordEntry r fp) = PyDict.set (view s) r.path (r.status, r.status.reason) ∧
      (((view s).lookup r.path = none ∧
          (s.recordEntry r fp).verifiedCount = s.verifiedCount + (if r.status = .verified then 1 else 0) ∧
          (s.recordEntry r fp).skippedCount = s.skippedCount + (if r.status = .verified then 0 else 1)) ∨
        ∃ u, (view s).lookup r.path = some u ∧ u.1 ≠ .verified ∧
          (s.recordEntry r fp).verifiedCount = s.verifiedCount + (if r.status = .verified then 1 else 0) ∧
          (s.recordEntry r fp).skippedCount = s.skippedCount - (if r.status = .verified then 1 else 0))) := by
  have hlookup : (view s).lookup r.path = (s.entries.lookup r.path).map tag := by
    unfold view
    exact PyDict.lookup_map_values s.entries (fun x => tag x.2) r.path
  have hview : ∀ t : State n, t.gen = s.gen → t.dicts = (s.setDict s.gen (PyDict.set s.entries r.path
      ⟨r.status, r.status.reason, fp, false, r.checks⟩)).dicts →
      view t = PyDict.set (view s) r.path (r.status, r.status.reason) :=
    fun t hgen hdicts => view_stored hgen hdicts
  rw [hlookup]
  unfold State.recordEntry
  simp only
  -- the three cases of `_record_entry`: new, terminal or unchanged, and overwritten
  cases hprior : s.entries.lookup r.path with
  | none =>
      right
      by_cases hst : r.status = .verified
      · simp only [if_pos hst]
        refine ⟨hview _ rfl rfl, Or.inl ⟨?_, ?_, ?_⟩⟩ <;> simp [State.setDict]
      · simp only [if_neg hst]
        refine ⟨hview _ rfl rfl, Or.inl ⟨?_, ?_, ?_⟩⟩ <;> simp [State.setDict]
  | some prior =>
      simp only
      by_cases hverified : prior.status = .verified
      · rw [if_pos hverified]
        exact Or.inl ⟨rfl, rfl, rfl⟩
      · rw [if_neg hverified]
        by_cases hsame : prior.status = r.status
        · rw [if_pos hsame]
          exact Or.inl ⟨rfl, rfl, rfl⟩
        · rw [if_neg hsame]
          right
          by_cases hst : r.status = .verified
          · simp only [if_pos hst]
            refine ⟨hview _ rfl rfl, Or.inr ⟨tag prior, rfl, hverified, ?_, ?_⟩⟩ <;> simp
          · simp only [if_neg hst]
            refine ⟨hview _ rfl rfl, Or.inr ⟨tag prior, rfl, hverified, ?_, ?_⟩⟩ <;> simp [State.setDict]

/-- **Recording an entry keeps the counters right.** -/
theorem countsMatch_recordEntry {s : State n} (h : CountsMatch s) (r : Verdict)
    (fp : Option Fingerprint) : CountsMatch (s.recordEntry r fp) := by
  obtain ⟨hverified, hskipped⟩ := h
  have hv := PyDict.countP_set (view s) (fun u => u.1 == .verified) r.path (r.status, r.status.reason)
  have hk := PyDict.countP_set (view s) (fun u => u.1 != .verified) r.path (r.status, r.status.reason)
  unfold CountsMatch
  rcases recordEntry_spec s r fp with ⟨hview, hv', hk'⟩ | ⟨hview, ⟨hnone, hv', hk'⟩ | ⟨u, hu, hne, hv', hk'⟩⟩
  · rw [hview, hv', hk']
    exact ⟨hverified, hskipped⟩
  · rw [hnone] at hv hk
    rw [hview, hv', hk', hverified, hskipped]
    by_cases hst : r.status = .verified
    · simp [hst] at hv hk ⊢
      omega
    · simp [hst] at hv hk ⊢
      omega
  · rw [hu] at hv hk
    rw [hview, hv', hk', hverified, hskipped]
    by_cases hst : r.status = .verified
    · simp [hst, hne] at hv hk ⊢
      omega
    · simp [hst, hne] at hv hk ⊢
      omega

/-! ## What the changes keep -/

theorem lookup_ne_none_of_mem_view {s : State n} {x : String × Tag} (hx : x ∈ view s) :
    s.entries.lookup x.1 ≠ none := by
  obtain ⟨e, he, rfl⟩ := List.mem_map.mp hx
  intro hnone
  rw [List.lookup_eq_none_iff] at hnone
  simpa using hnone e he

theorem CountsMatch.of_change {s s' : State n} {a : Act n} (h : CountsMatch s)
    (hchange : ManifestChange s s' a) : CountsMatch s' := by
  cases hchange with
  | kept hview hverified hskipped hfiles =>
      unfold CountsMatch
      rw [hview, hverified, hskipped]
      exact h
  | recorded w ok r fp todo ready v ha hpc hview hverified hskipped hfiles =>
      unfold CountsMatch
      rw [hview, hverified, hskipped]
      exact countsMatch_recordEntry h r fp
  | emptied hview hverified hskipped =>
      unfold CountsMatch
      rw [hview, hverified, hskipped]
      exact ⟨rfl, rfl⟩

theorem keys_of_change {s s' : State n} {a : Act n} (h : ((view s).map Prod.fst).Nodup)
    (hchange : ManifestChange s s' a) : ((view s').map Prod.fst).Nodup := by
  cases hchange with
  | kept hview hverified hskipped hfiles =>
      rw [hview]
      exact h
  | recorded w ok r fp todo ready v ha hpc hview hverified hskipped hfiles =>
      rw [hview]
      rcases recordEntry_spec s r fp with ⟨hrec, -, -⟩ | ⟨hrec, -⟩
      · rw [hrec]
        exact h
      · rw [hrec]
        exact OrderedDict.nodup_set h r.path _
  | emptied hview hverified hskipped =>
      rw [hview]
      exact List.nodup_nil

/-- While the others are quiet, what is gone or in quarantine stays so. -/
theorem AllGone.of_change {s s' : State n} {a : Act n} (h : AllGone s)
    (hchange : ManifestChange s s' a) (hquiet : quiet s a = true) : AllGone s' := by
  intro x hx
  cases hchange with
  | kept hview hverified hskipped hfiles =>
      rw [hview] at hx
      rcases h x hx with hnone | hquarantine
      · rcases hfiles x.1 hnone with hnone' | ⟨bytes, mtime, ha⟩
        · exact Or.inl hnone'
        -- a file that comes back is one the manifest does not name
        · rw [ha, quiet, isFile, hnone] at hquiet
          exact absurd (by simpa using hquiet) (lookup_ne_none_of_mem_view hx)
      · exact Or.inr hquarantine
  | recorded w ok r fp todo ready v ha hpc hview hverified hskipped hfiles =>
      rw [ha, quiet, hpc] at hquiet
      rw [hview] at hx
      rw [hfiles]
      rcases recordEntry_spec s r fp with ⟨hrec, -, -⟩ | ⟨hrec, -⟩
      · rw [hrec] at hx
        exact h x hx
      · rw [hrec] at hx
        -- the entry is the one that was recorded, or an old one
        rcases PyDict.mem_set hx with hnew | hold
        · subst hnew
          simp only [isFile, Bool.or_eq_true, Bool.not_eq_true', Option.isSome_eq_false_iff,
            Option.isNone_iff_eq_none, beq_iff_eq] at hquiet
          rcases hquiet with hnone | hquarantine
          · exact Or.inl hnone
          · right
            simp [entryIsQuarantineTerminalSkip, hquarantine]
        · exact h x hold
  | emptied hview hverified hskipped =>
      rw [hview] at hx
      cases hx

/-! ## What the checks establish -/

/-- Every entry on disk is in quarantine. -/
theorem allGone_of_onDisk {s : State n}
    (h : ∀ x ∈ manifestEntriesOnDisk s, entryIsQuarantineTerminalSkip (tag x.2) = true) : AllGone s := by
  intro x hx
  obtain ⟨e, he, rfl⟩ := List.mem_map.mp hx
  cases hfile : s.files e.1 with
  | none => exact Or.inl rfl
  | some f =>
      right
      refine h e (List.mem_filter.mpr ⟨he, ?_⟩)
      rw [isFile, hfile]
      rfl

/-- An entry that the check lets pass and does not overlook is in quarantine. -/
theorem quarantine_of_passed {e : Entry} (hoverlooked : overlooked e = false)
    (hpassed : (entryIsQuarantineTerminalSkip (tag e) ||
      (!entryIsRetryableSkip (tag e) && !verifiedPending e)) = true) :
    entryIsQuarantineTerminalSkip (tag e) = true := by
  obtain ⟨status, reason, fp, deleted, checks⟩ := e
  cases status <;>
    simp_all [overlooked, entryIsQuarantineTerminalSkip, entryIsRetryableSkip, retryableSkipStatuses,
      verifiedPending, tag]

theorem allGone_of_onlyQuarantine {s : State n} (h : onlyQuarantineTerminalOnDisk s = true) :
    AllGone s := by
  unfold onlyQuarantineTerminalOnDisk at h
  rw [Bool.and_eq_true, List.all_eq_true] at h
  exact allGone_of_onDisk h.2

/-- **The completion check**, in the phases of the delete pass and with nothing overlooked. -/
theorem allGone_of_completion {s : State n} {o : Outside} {f : Finish}
    (hphase : s.phase = .verificationComplete ∨ s.phase = .deleting)
    (hoverlooked : ∀ x ∈ manifestEntriesOnDisk s, overlooked x.2 = false)
    (h : completion s o = some f) (hf : f.setsDone = true) : AllGone s := by
  unfold completion at h
  split at h
  · cases h
  · split at h
    · rename_i hall
      unfold allClosedRawTerminalOrGone at hall
      rw [if_pos hphase, List.all_eq_true] at hall
      exact allGone_of_onDisk fun x hx => quarantine_of_passed (hoverlooked x hx) (hall x hx)
    · split at h
      · rw [Option.some.injEq] at h
        subst h
        cases hf
      · split at h
        · rw [Option.some.injEq] at h
          subst h
          cases hf
        · rw [Option.some.injEq] at h
          subst h
          cases hf

/-- **The tar drop**, after the verification and with no ghost and no path of another day on disk. -/
theorem allGone_of_tarDrop {s : State n} {o : Outside} {f : Finish} (hphase : s.phase ≠ .verifying)
    (hclean : ∀ x ∈ manifestEntriesOnDisk s, entryIsVerifiedGhost x.2 = false ∧ x.1 ∉ o.misaligned)
    (h : tarDrop s o = some f) : AllGone s := by
  unfold tarDrop at h
  split at h
  · rename_i honly
    exact allGone_of_onlyQuarantine honly
  · split at h
    · cases h
    · rename_i hblocking
      rw [not_not, remainingRawPathsBlockingTarDrop, if_neg hphase, blockingManifestPathsOnDisk,
        List.map_eq_nil_iff, List.filter_eq_nil_iff] at hblocking
      refine allGone_of_onDisk fun x hx => ?_
      obtain ⟨hghost, haligned⟩ := hclean x hx
      simpa [hghost, haligned] using hblocking x hx

/-- A handoff to the ingest does not set `done` in the phases of the delete pass. -/
theorem retryableClosedRaw_ne_nil {s : State n} {o : Outside}
    (hkeys : ((view s).map Prod.fst).Nodup)
    (hphase : s.phase = .verificationComplete ∨ s.phase = .deleting)
    (h : handoffPathsForIngest s o ≠ []) : retryableClosedRaw s o ≠ [] := by
  have hverifying : ¬ (s.phase = .verifying ∧ o.dayScoped = true) := by
    rintro ⟨hverifying, -⟩
    rcases hphase with hphase | hphase <;> rw [hphase] at hverifying <;> cases hverifying
  rw [handoffPathsForIngest, if_neg hverifying] at h
  obtain ⟨path, hpath⟩ := List.exists_mem_of_ne_nil _ h
  obtain ⟨x, hx, rfl⟩ := List.mem_map.mp hpath
  obtain ⟨hdisk, hretry⟩ := List.mem_filter.mp hx
  obtain ⟨hmem, hfile⟩ := List.mem_filter.mp hdisk
  have hentries : (s.entries.map Prod.fst).Nodup := by
    rw [view, List.map_map] at hkeys
    exact hkeys
  -- a path is in the manifest once, so the lookup finds this entry
  have htag : tagOf s x.1 = some (tag x.2) := by
    unfold tagOf
    rw [PyDict.lookup_of_mem hentries hmem]
    rfl
  -- in these phases the closed paths are the blocking and the retryable ones
  have hclosed : x.1 ∈ closedRawPathsOnDisk s o := by
    unfold closedRawPathsOnDisk
    by_cases hblocking : x.1 ∈ blockingManifestPathsOnDisk s o
    · rcases hphase with hphase | hphase <;> rw [hphase] <;> exact List.mem_append_left _ hblocking
    · have hrest : x.1 ∈ (manifestRetryablePathsOnDisk s).filter
          fun p => !(blockingManifestPathsOnDisk s o).contains p :=
        List.mem_filter.mpr ⟨hpath, by simpa using hblocking⟩
      rcases hphase with hphase | hphase <;> rw [hphase] <;> exact List.mem_append_right _ hrest
  apply List.ne_nil_of_mem (a := x.1)
  refine List.mem_filter.mpr ⟨List.mem_filter.mpr ⟨hclosed, hfile⟩, ?_⟩
  rw [htag]
  exact hretry

/-! ## Runs -/

/-- What holds in every state of a watched run. -/
structure Inv (s : Day n) : Prop where
  keys : ((view s.removal).map Prod.fst).Nodup
  counts : CountsMatch s.removal
  done : ∀ w, s.settingDone w = true → AllGone s.removal

/-- A worker decides what to do to the phase. -/
theorem Inv.decide {s s' : Day n} (h : Inv s) (w : Fin n) (f : Option Finish)
    (hview : view s'.removal = view s.removal) (hfiles : s'.removal.files = s.removal.files)
    (hverified : s'.removal.verifiedCount = s.removal.verifiedCount)
    (hskipped : s'.removal.skippedCount = s.removal.skippedCount)
    (hfinish : s'.finish = Function.update s.finish w f)
    (hf : f.any Finish.setsDone = true → AllGone s.removal) : Inv s' := by
  have hgone : AllGone s.removal → AllGone s'.removal := by
    unfold AllGone
    rw [hview, hfiles]
    exact id
  refine ⟨by rw [hview]; exact h.keys, ?_, ?_⟩
  · unfold CountsMatch
    rw [hview, hverified, hskipped]
    exact h.counts
  -- the worker itself decides, and what the others have decided stays
  · intro q hq
    apply hgone
    unfold Day.settingDone at hq
    rw [hfinish] at hq
    by_cases hqw : q = w
    · rw [hqw, Function.update_self] at hq
      exact hf hq
    · rw [Function.update_of_ne hqw] at hq
      exact h.done q hq

/-- **One watched step.** -/
theorem inv_step {s s' : Day n} {a : DayAct n} (h : Inv s) (hok : Watched s a)
    (hstep : s.step a = some s') : Inv s' := by
  cases a with
  | removal a =>
      rw [Day.step] at hstep
      split at hstep
      · obtain ⟨r, hr, rfl⟩ := Option.map_eq_some_iff.mp hstep
        have hchange := manifestChange_step hok.1 hr
        refine ⟨keys_of_change h.keys hchange, h.counts.of_change hchange, ?_⟩
        intro w hw
        exact (h.done w hw).of_change hchange (hok.2 ⟨w, hw⟩)
      · cases hstep
  | complete w o =>
      rw [Day.step] at hstep
      split at hstep
      · split at hstep
        · rw [Option.some.injEq] at hstep
          subst hstep
          refine h.decide w (completion s.removal o) rfl rfl rfl rfl rfl ?_
          intro hany
          obtain ⟨f, hf, hdone⟩ := (Option.any_eq_true _ _).mp hany
          exact allGone_of_completion hok.1 hok.2 hf hdone
        · cases hstep
      · cases hstep
  | tarDrop w o =>
      rw [Day.step] at hstep
      split at hstep
      · rw [Option.some.injEq] at hstep
        subst hstep
        refine h.decide w (tarDrop s.removal o) rfl rfl rfl rfl rfl ?_
        intro hany
        obtain ⟨f, hf, -⟩ := (Option.any_eq_true _ _).mp hany
        exact allGone_of_tarDrop hok.1 hok.2 hf
      · cases hstep
  | conclude w o =>
      rw [Day.step] at hstep
      obtain ⟨f, hf, rfl⟩ := Option.map_eq_some_iff.mp hstep
      -- what was established at the check still holds
      have hdone : f.setsDone = true → AllGone s.removal := by
        intro hf'
        apply h.done w
        rw [Day.settingDone, hf]
        exact hf'
      cases f with
      | finalize =>
          exact h.decide w (some (.setPhase .done)) rfl rfl rfl rfl rfl (fun _ => hdone rfl)
      | mark =>
          unfold Day.conclude
          simp only
          by_cases hhandoff : handoffPathsForIngest s.removal o = []
          · rw [if_pos hhandoff]
            exact h.decide w none rfl rfl rfl rfl rfl (fun hany => by cases hany)
          · rw [if_neg hhandoff, if_pos (retryableClosedRaw_ne_nil h.keys (hok hf) hhandoff)]
            exact h.decide w none rfl rfl rfl rfl rfl (fun hany => by cases hany)
      | setPhase phase =>
          exact h.decide w none rfl rfl rfl rfl rfl (fun hany => by cases hany)
  | giveUp w =>
      rw [Day.step, Option.some.injEq] at hstep
      subst hstep
      exact h.decide w none rfl rfl rfl rfl rfl (fun hany => by cases hany)

/-- A manifest as a process finds it: no path twice, the counters right, and no worker at the end of a
pass. -/
structure Start (s : Day n) : Prop where
  keys : ((view s.removal).map Prod.fst).Nodup
  counts : CountsMatch s.removal
  finish : ∀ w, s.finish w = none

/-- **When a day is done.**  For any number of workers, any raw files and any manifest: in every run of
watched steps, whenever a batch delete or a tar drop sets the phase to `done`, every raw path of the
manifest is gone or in quarantine and the counters count the entries. -/
theorem completed_of_run {s₀ s s' : Day n} {as : List (DayAct n)} (hstart : Start s₀)
    (hrun : Transition.exec Day.step s₀ as = some s)
    (hok : Transition.Respects Day.step Watched s₀ as) {w : Fin n} {o : Outside}
    (hw : s.settingDone w = true) (hstep : s.step (.conclude w o) = some s') :
    s'.removal.phase = .done ∧ Completed s'.removal := by
  have hinv : Inv s := by
    refine Transition.exec_invariant (fun _ _ _ h hsafe hs => inv_step h hsafe hs) as s₀ s ?_ hok hrun
    refine ⟨hstart.keys, hstart.counts, ?_⟩
    intro q hq
    rw [Day.settingDone, hstart.finish q] at hq
    cases hq
  have hgone := hinv.done w hw
  rw [Day.step] at hstep
  obtain ⟨f, hf, rfl⟩ := Option.map_eq_some_iff.mp hstep
  rw [Day.settingDone, hf] at hw
  cases f with
  | finalize => exact ⟨rfl, hgone, hinv.counts⟩
  | mark => cases hw
  | setPhase phase =>
      have hphase : phase = .done := by simpa [Finish.setsDone] using hw
      exact ⟨hphase, hgone, hinv.counts⟩

/-- A new manifest over arbitrary raw files. -/
def Day.init (n : ℕ) (files : String → Option Fingerprint) : Day n :=
  ⟨State.init n files, fun _ => none⟩

theorem start_init (n : ℕ) (files : String → Option Fingerprint) : Start (Day.init n files) :=
  ⟨List.nodup_nil, ⟨rfl, rfl⟩, fun _ => rfl⟩

/-- The census of a day without other files. -/
def nothingElse : Outside := ⟨[], [], [], true⟩

/-- A pre-seal pass verifies the one raw file and the delete phase begins. -/
def verifyOneFile : List (DayAct 1) :=
  ([.verify 0 .preSeal [] ["/h/1"] false (some [("h/1", 5)]) 8, .next 0 true, .next 0 true,
    .next 0 true, .next 0 true, .next 0 true, .next 0 true,
    .phaseChange (.beginDeleting true)] : List (Act 1)).map .removal

/-- The delete pass over the one path, up to the check of its completion. -/
def deleteOneFile (k : ℕ) : List (DayAct 1) :=
  DayAct.removal (.applyBatchDelete 0 0) :: List.replicate k (DayAct.removal (.next 0 true)) ++
    [DayAct.complete 0 nothingElse]

theorem completed_of_run_deletedFile :
    ∃ s s', Transition.exec Day.step (Day.init 1 oneRawFile) (verifyOneFile ++ deleteOneFile 6) = some s ∧
      s.step (.conclude 0 nothingElse) = some s' ∧ s'.removal.phase = .done ∧
      s'.removal.verifiedCount = 1 ∧ Completed s'.removal := by
  have hsome : ((Transition.exec Day.step (Day.init 1 oneRawFile)
      (verifyOneFile ++ deleteOneFile 6)).map fun s => s.finish 0) = some (some (.setPhase .done)) := by
    decide +kernel
  have hcount : ((Transition.exec Day.step (Day.init 1 oneRawFile)
      (verifyOneFile ++ deleteOneFile 6)).map fun s => s.removal.verifiedCount) = some 1 := by
    decide +kernel
  have hok : Transition.Respects Day.step Watched (Day.init 1 oneRawFile)
      (verifyOneFile ++ deleteOneFile 6) := by
    decide +kernel
  obtain ⟨s, hs, hfinish⟩ := Option.map_eq_some_iff.mp hsome
  rw [hs] at hcount
  have hw : s.settingDone 0 = true := by
    rw [Day.settingDone, hfinish]
    rfl
  have hstep : s.step (.conclude 0 nothingElse) = some (s.conclude 0 nothingElse (.setPhase .done)) := by
    rw [Day.step, hfinish]
    rfl
  have hdone := completed_of_run (start_init 1 oneRawFile) hs hok hw hstep
  exact ⟨s, _, hs, hstep, hdone.1, Option.some.inj hcount, hdone.2⟩

/-- **A file that changed before its deletion is closed.**  The raw file grows between the verification
and the delete pass.  The pass marks its entry as skipped, lets it stay on disk and sets `done`; the
counters still count it as verified. -/
theorem not_completed_changedFile :
    ∃ s s', Transition.exec Day.step (Day.init 1 oneRawFile)
        (verifyOneFile ++ .removal (.append "/h/1" 2 110) :: deleteOneFile 4) = some s ∧
      s.settingDone 0 = true ∧ s.step (.conclude 0 nothingElse) = some s' ∧
      s'.removal.phase = .done ∧ ¬ AllGone s'.removal ∧ ¬ CountsMatch s'.removal := by
  have hsome : ((Transition.exec Day.step (Day.init 1 oneRawFile)
      (verifyOneFile ++ .removal (.append "/h/1" 2 110) :: deleteOneFile 4)).map
        fun s => s.finish 0) = some (some (.setPhase .done)) := by
    decide +kernel
  have hviews : ((Transition.exec Day.step (Day.init 1 oneRawFile)
      (verifyOneFile ++ .removal (.append "/h/1" 2 110) :: deleteOneFile 4)).map
        fun s => view s.removal) =
      some [("/h/1", .skippedFingerprintChanged, "fingerprint_changed_before_delete")] := by
    decide +kernel
  have hrest : ((Transition.exec Day.step (Day.init 1 oneRawFile)
      (verifyOneFile ++ .removal (.append "/h/1" 2 110) :: deleteOneFile 4)).map
        fun s => (s.removal.files "/h/1", s.removal.verifiedCount)) = some (some ⟨110, 7⟩, 1) := by
    decide +kernel
  obtain ⟨s, hs, hfinish⟩ := Option.map_eq_some_iff.mp hsome
  rw [hs, Option.map_some, Option.some.injEq] at hviews hrest
  obtain ⟨hfile, hcount⟩ := Prod.mk.inj hrest
  refine ⟨s, s.conclude 0 nothingElse (.setPhase .done), hs, ?_, ?_, rfl, ?_, ?_⟩
  · rw [Day.settingDone, hfinish]
    rfl
  · rw [Day.step, hfinish]
    rfl
  · intro hgone
    have hx := hgone ("/h/1", .skippedFingerprintChanged, "fingerprint_changed_before_delete")
      (by show _ ∈ view s.removal; rw [hviews]; exact List.mem_singleton_self _)
    rcases hx with hx | hx
    · rw [show s.removal.files "/h/1" = none from hx] at hfile
      cases hfile
    · exact absurd hx (by decide)
  · intro hcounts
    have hv : s.removal.verifiedCount = (view s.removal).countP fun x => x.2.1 == .verified := hcounts.1
    rw [hviews, hcount] at hv
    exact absurd hv (by decide)

end RemovalDone
