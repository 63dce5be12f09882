/-
# Removal of archived raw stats files

`sync_timedb_day_raw_removal` removes the raw stats files of a day once they are archived
and ingested.  A verify pass looks at each file twice, first for the ingest gate and then
for its size against the member map of the archive, and `_record_entry` takes the
fingerprint `(mtime, size)` of the file a third time, when it enters the verdict in the
manifest.  A delete pass compares that fingerprint with the file once more and then removes
it.  `remove_verified_archived_raw_files` does the same without a manifest.

Any number of workers run these passes step by step while the raw files are appended to.
Each observation is one step; every entry and every removal carries, as history, what the
file looked like when its gate and its membership were checked (`Checks`).  The property is
`RemovedUnchanged`: a removed file had, at the moment of its removal, the fingerprint that
both checks saw.

The outside world answers in the actions: whether a gate lets a path pass, whether a lock
is granted, which paths a pass is started with and which member map was validated.

* `State.next`, `step`: the passes, the delete loop and the phase changes
* `Unraced`: the steps that leave the checks of a path valid
* `removed_unchanged_of_run`: the property along every run of such steps
-/
import HpcPerfStats.ArchiveMembers
import HpcPerfStats.PyDict
import HpcPerfStats.Transition

namespace RawRemoval

open ArchiveMembers
open scoped Transition

/-! ## Files, verdicts and manifest entries -/

/-- `raw_stats_path_fingerprint`: what `os.stat` tells of a raw file. -/
structure Fingerprint where
  mtime : ℕ
  size : ℕ
  deriving DecidableEq, Repr

/-- The statuses of a manifest entry. -/
inductive Status where
  | verified
  | skippedNotHeadTailIngested
  | skippedNotInArchive
  | skippedSizeMismatch
  | skippedSealInvalid
  | skippedActiveSegment
  | skippedQuarantine
  | skippedFingerprintChanged
  deriving DecidableEq, Repr

/-- The reason that is recorded with each status. -/
def Status.reason : Status → String
  | .verified => ""
  | .skippedNotHeadTailIngested => "not_head_tail_ingested"
  | .skippedNotInArchive => "not_in_sealed_archive"
  | .skippedSizeMismatch => "size_mismatch"
  | .skippedSealInvalid => "seal_validation_failed"
  | .skippedActiveSegment => "active_segment"
  | .skippedQuarantine => "quarantine"
  | .skippedFingerprintChanged => "fingerprint_changed_before_delete"

/-- History: the file as the gate check saw it (`none` when the pass has no gate) and as
the membership check saw it. -/
structure Checks where
  gate : Option (Option Fingerprint)
  member : Option Fingerprint
  deriving DecidableEq, Repr

/-- What the checks saw. -/
def Checks.observed (c : Checks) : List (Option Fingerprint) :=
  c.member :: c.gate.toList

/-- Every check saw the file with the fingerprint `f`. -/
def Checks.Saw (c : Checks) (f : Fingerprint) : Prop :=
  ∀ o ∈ c.observed, o = some f

instance (c : Checks) (f : Fingerprint) : Decidable (c.Saw f) :=
  inferInstanceAs (Decidable (∀ o ∈ c.observed, o = some f))

/-- A path that waits for its membership check; `gate` is set once its gate was checked. -/
structure Item where
  path : String
  gate : Option (Option Fingerprint)
  deriving DecidableEq, Repr

/-- What the classification returns for one path. -/
structure Verdict where
  path : String
  status : Status
  checks : Checks
  deriving DecidableEq, Repr

/-- One entry of the manifest. -/
structure Entry where
  status : Status
  reason : String
  fp : Option Fingerprint
  deleted : Bool
  checks : Checks
  deriving DecidableEq, Repr

/-- The `entries` dictionary of a manifest. -/
abbrev Entries := List (String × Entry)

/-- `get_tar_member_name`: the path without its leading slashes. -/
def getTarMemberName (path : String) : String :=
  String.ofList (path.toList.dropWhile (· == '/'))

/-- The status `classify_removable_raw_paths_for_members` gives a path whose gate is passed:
`get_verified_files_to_remove` compares the size seen now with the member's. -/
def classifyPath (members : MemberMap) (path : String) (seen : Option Fingerprint) : Status :=
  match members.lookup (getTarMemberName path) with
  | none => .skippedNotInArchive
  | some size =>
      match seen with
      | some f => if f.size = size then .verified else .skippedSizeMismatch
      | none => .skippedSizeMismatch

/-! ## Passes, program points and states -/

inductive Phase where
  | verifying
  | verificationComplete
  | deleting
  | done
  deriving DecidableEq, Repr

inductive VerifyStage where
  | none
  | preSeal
  | postSeal
  deriving DecidableEq, Repr

/-- The three functions that classify and record. -/
inductive PassKind where
  /-- `_verify_body` -/
  | verifyBody
  /-- `_pre_seal_verify_body` -/
  | preSeal
  /-- `_reclassify_retryable_skips_on_disk` -/
  | reclassify
  deriving DecidableEq, Repr

/-- The parameters of a verify pass; `later` are the paths of its later batches. -/
structure Pass where
  kind : PassKind
  gateFn : Bool
  members : MemberMap
  pathsPerTick : ℕ
  later : List String
  deriving DecidableEq, Repr

/-- The gate is consulted inside the classification; the pre-seal pass has asked it before. -/
def Pass.gatesInside (v : Pass) : Bool :=
  v.gateFn && v.kind != .preSeal

/-- Where a delete pass stands with one path. -/
inductive DeleteStage where
  /-- its entry is verified and not deleted; next: `os.path.isfile` -/
  | found
  /-- the file is there; next: `_path_fingerprint` -/
  | present
  /-- next: compare with the entry -/
  | statted (fp : Option Fingerprint)
  /-- the fingerprints were equal; next: lock and `os.remove` -/
  | checked (checks : Checks)
  /-- the file is removed; next: mark the entry -/
  | removed
  deriving DecidableEq, Repr

/-- Where `remove_verified_archived_raw_files` stands with one path. -/
inductive MaintStage where
  | toGate
  | toClassify (gate : Option (Option Fingerprint))
  | verified (checks : Checks)
  /-- `expected_fp` is taken; next: `delete_raw_stats_path_if_fingerprint_unchanged` -/
  | statted (checks : Checks) (expected : Option Fingerprint)
  /-- next: lock and `os.remove` -/
  | compared (checks : Checks)
  deriving DecidableEq, Repr

/-- The rest of a delete pass over the dictionary `gen`. -/
structure DeletePass where
  gen : ℕ
  todo : List String
  deleted : ℕ
  maxDeletes : ℕ
  deriving DecidableEq, Repr

/-- The rest of a maintenance pass. -/
structure MaintPass where
  gateFn : Bool
  members : MemberMap
  requireFingerprint : Bool
  todo : List String
  deriving DecidableEq, Repr

/-- Program points of a worker. -/
inductive PC where
  | idle
  /-- the gate pool of a pre-seal batch -/
  | gating (todo : List String) (ready : List Item) (skipped : List Verdict) (pass : Pass)
  /-- the classification loop -/
  | classifying (todo : List Item) (results : List Verdict) (pass : Pass)
  /-- the recording loop; `ready` is classified after it -/
  | recording (todo : List Verdict) (ready : List Item) (pass : Pass)
  /-- inside `_record_entry`: the fingerprint is taken; next: the manifest, under its lock -/
  | recordLocked (verdict : Verdict) (fp : Option Fingerprint) (todo : List Verdict)
      (ready : List Item) (pass : Pass)
  | deleting (pass : DeletePass)
  | deletingPath (path : String) (stage : DeleteStage) (pass : DeletePass)
  | maintaining (pass : MaintPass)
  | maintainingPath (path : String) (stage : MaintStage) (pass : MaintPass)
  deriving DecidableEq, Repr

/-- History: a removal, with the file at that moment and the checks it rested on. -/
structure Removal where
  path : String
  atRemoval : Fingerprint
  checks : Checks
  deriving DecidableEq, Repr

/-- The raw files, the manifest and the workers.  `dicts gen` is the current `entries`
dictionary; a delete pass keeps working on the dictionary it started with. -/
structure State (n : ℕ) where
  files : String → Option Fingerprint
  dicts : ℕ → Entries
  gen : ℕ
  phase : Phase
  stage : VerifyStage
  verifiedCount : ℕ
  skippedCount : ℕ
  deletedCount : ℕ
  pc : Fin n → PC
  removals : List Removal

variable {n : ℕ}

/-- Arbitrary raw files and a new manifest. -/
def State.init (n : ℕ) (files : String → Option Fingerprint) : State n :=
  ⟨files, fun _ => [], 0, .verifying, .none, 0, 0, 0, fun _ => .idle, []⟩

def State.setPc (s : State n) (w : Fin n) (c : PC) : State n :=
  { s with pc := Function.update s.pc w c }

def State.entries (s : State n) : Entries :=
  s.dicts s.gen

/-- Replace one dictionary. -/
def State.setDict (s : State n) (gen : ℕ) (es : Entries) : State n :=
  { s with dicts := Function.update s.dicts gen es }

/-- Set one entry of a dictionary, if it is there. -/
def State.modifyEntry (s : State n) (gen : ℕ) (path : String) (f : Entry → Entry) : State n :=
  match (s.dicts gen).lookup path with
  | none => s
  | some e => s.setDict gen (PyDict.set (s.dicts gen) path (f e))

/-- `os.remove` of a file that is there. -/
def State.remove (s : State n) (path : String) (f : Fingerprint) (c : Checks) : State n :=
  { s with
    files := Function.update s.files path none
    removals := s.removals ++ [⟨path, f, c⟩] }

/-- An append to a raw file; it creates a missing one. -/
def State.append (s : State n) (path : String) (bytes mtime : ℕ) : State n :=
  { s with
    files := Function.update s.files path
      (some ⟨mtime, ((s.files path).map Fingerprint.size).getD 0 + bytes⟩) }

@[simp] theorem setPc_pc_self (s : State n) (w : Fin n) (c : PC) : (s.setPc w c).pc w = c :=
  Function.update_self ..

theorem setPc_pc_of_ne (s : State n) {v w : Fin n} (c : PC) (h : v ≠ w) :
    (s.setPc w c).pc v = s.pc v :=
  Function.update_of_ne h ..

@[simp] theorem setDict_dicts_self (s : State n) (gen : ℕ) (es : Entries) :
    (s.setDict gen es).dicts gen = es :=
  Function.update_self ..

theorem setDict_dicts_of_ne (s : State n) {gen g : ℕ} (es : Entries) (h : g ≠ gen) :
    (s.setDict gen es).dicts g = s.dicts g :=
  Function.update_of_ne h ..

theorem append_files_of_ne (s : State n) {path q : String} (bytes mtime : ℕ) (h : q ≠ path) :
    (s.append path bytes mtime).files q = s.files q :=
  Function.update_of_ne h ..

/-! ## Manifest operations -/

/-- `_record_entry` under the manifest lock: a verified entry and an entry of the same
status are kept. -/
def State.recordEntry (s : State n) (v : Verdict) (fp : Option Fingerprint) : State n :=
  let entry : Entry := ⟨v.status, v.status.reason, fp, false, v.checks⟩
  let stored := s.setDict s.gen (PyDict.set s.entries v.path entry)
  match s.entries.lookup v.path with
  | some prior =>
      if prior.status = .verified then s
      else if prior.status = v.status then s
      else if v.status = .verified then
        { stored with
          skippedCount := s.skippedCount - 1
          verifiedCount := s.verifiedCount + 1 }
      else stored
  | none =>
      if v.status = .verified then { stored with verifiedCount := s.verifiedCount + 1 }
      else { stored with skippedCount := s.skippedCount + 1 }

/-- `_entry_is_verified_ghost_on_disk`: the entry says deleted and the file is there. -/
def State.isGhost (s : State n) (x : String × Entry) : Bool :=
  x.2.deleted && x.2.status == .verified && (s.files x.1).isSome

/-- `_prepare_ghost_delete_retry`: the ghosts are pending again. -/
def State.prepareGhostDeleteRetry (s : State n) : State n :=
  if s.entries.any s.isGhost then
    { s.setDict s.gen
        (s.entries.map fun x => if s.isGhost x then (x.1, { x.2 with deleted := false }) else x)
      with phase := .deleting }
  else s

/-- `needs_ghost_delete_retry`. -/
def State.needsGhostDeleteRetry (s : State n) : Bool :=
  (s.phase == .done || s.phase == .deleting) && s.entries.any s.isGhost

/-- The paths of the dictionary in sorted order. -/
def sortedKeys (es : Entries) : List String :=
  (es.map Prod.fst).insertionSort (· ≤ ·)

/-- Verified entries that are not deleted. -/
def pendingDelete (es : Entries) : List String :=
  (es.filter fun x => x.2.status == .verified && !x.2.deleted).map Prod.fst

/-- What the day's directory listing says after a delete loop that left nothing pending. -/
structure Census where
  /-- `_all_closed_raw_terminal_or_gone` -/
  allTerminal : Bool
  /-- only paths that wait for ingest are left, and they are on disk -/
  waitingOnIngest : Bool
  /-- `_mark_done_waiting_on_ingest` finds paths to hand off and no retryable one -/
  markDone : Bool
  /-- some closed raw path has no entry -/
  unmanifested : Bool
  deriving DecidableEq, Repr

/-- The phase at the end of `_apply_batch_delete_body`, which looks at the manifest as it is then. -/
def State.phaseAfterDelete (s : State n) (c : Census) : Phase :=
  if pendingDelete s.entries ≠ [] then s.phase
  else if c.allTerminal then .done
  else if c.waitingOnIngest then (if c.markDone then .done else s.phase)
  else if c.unmanifested then .verifying
  else .verificationComplete

/-- The functions that only change the phase, the stage or the manifest as a whole. -/
inductive PhaseChange where
  /-- `begin_deleting`; `blocking`: manifest paths of the day are on disk -/
  | beginDeleting (blocking : Bool)
  /-- `reopen_delete_phase_if_verified_on_disk` -/
  | reopenDeletePhase
  /-- `reopen_stale_done_all_skipped` -/
  | reopenStaleDone
  /-- `promote_phase_if_verify_stage_ahead`; `waiting`: the pre-seal case applies -/
  | promotePhase (waiting : Bool)
  /-- `_post_seal_verify_body` with equal archives -/
  | postSealVerified
  /-- `_finalize_quarantine_terminal_done` and the end of a tar drop -/
  | finalizeDone
  /-- `_prepare_ghost_delete_retry` -/
  | ghostRetry
  /-- `_reset_for_reverify` -/
  | resetForReverify
  deriving DecidableEq, Repr

def State.changePhase (s : State n) : PhaseChange → State n
  | .beginDeleting blocking =>
      if s.phase = .verificationComplete
          ∨ s.phase = .done ∧ (pendingDelete s.entries ≠ [] ∨ blocking = true) then
        { s with phase := .deleting }
      else s
  | .reopenDeletePhase =>
      if s.phase = .done ∧ pendingDelete s.entries ≠ [] then { s with phase := .deleting } else s
  | .reopenStaleDone =>
      if s.phase = .done ∧ s.verifiedCount = 0
          ∧ s.entries.any (fun x => (s.files x.1).isSome) = true then
        { s with phase := .verifying, stage := .none }
      else s
  | .promotePhase waiting =>
      if s.phase = .verifying
          ∧ (s.stage = .postSeal ∨ s.stage = .preSeal ∧ waiting = true) then
        { s with phase := .verificationComplete }
      else s
  | .postSealVerified => { s with stage := .postSeal }
  | .finalizeDone => { s with phase := .done }
  | .ghostRetry => s.prepareGhostDeleteRetry
  | .resetForReverify =>
      { s.setDict (s.gen + 1) [] with
        gen := s.gen + 1, phase := .verifying, stage := .none
        verifiedCount := 0, skippedCount := 0, deletedCount := 0 }

/-! ## The steps of the passes -/

/-- The verify pass goes on with its next pre-seal batch, or ends. -/
def State.nextBatch (s : State n) (w : Fin n) (v : Pass) : State n :=
  match v.kind with
  | .verifyBody => { s with phase := .verificationComplete }.setPc w .idle
  | .reclassify => s.setPc w .idle
  | .preSeal =>
      if v.later = [] then
        { s with stage := .preSeal, phase := .verificationComplete }.setPc w .idle
      else
        let batch := v.later.take v.pathsPerTick
        let rest := { v with later := v.later.drop v.pathsPerTick }
        if v.gateFn then s.setPc w (.gating batch [] [] rest)
        else s.setPc w (.classifying (batch.map fun p => ⟨p, none⟩) [] rest)

/-- One step of `classify_removable_raw_paths_for_members`: the gate of the first path,
then its membership; at the end the verdicts are recorded, by a reclassification the
verified ones only. -/
def State.classifyNext (s : State n) (w : Fin n) (todo : List Item) (results : List Verdict)
    (v : Pass) (ok : Bool) : State n :=
  match todo with
  | [] =>
      let kept :=
        if v.kind = .reclassify then results.filter (·.status == .verified) else results
      s.setPc w (.recording kept [] v)
  | x :: rest =>
      let seen := s.files x.path
      if v.gatesInside = true ∧ x.gate = none then
        if ok then s.setPc w (.classifying (⟨x.path, some seen⟩ :: rest) results v)
        else
          let skip : Verdict := ⟨x.path, .skippedNotHeadTailIngested, ⟨some seen, none⟩⟩
          s.setPc w (.classifying rest (results ++ [skip]) v)
      else
        let verdict : Verdict :=
          ⟨x.path, classifyPath v.members x.path seen, ⟨x.gate, seen⟩⟩
        s.setPc w (.classifying rest (results ++ [verdict]) v)

/-- One step of the delete loop between two paths; `none` at its end. -/
def State.deleteNext (s : State n) (w : Fin n) (d : DeletePass) : Option (State n) :=
  match d.todo with
  | [] => none
  | path :: rest =>
      if d.maxDeletes ≠ 0 ∧ d.maxDeletes ≤ d.deleted then none
      else
        let d' := { d with todo := rest }
        match (s.dicts d.gen).lookup path with
        | none => some (s.setPc w (.deleting d'))
        | some e =>
            if e.status ≠ .verified ∨ e.deleted = true then some (s.setPc w (.deleting d'))
            else some (s.setPc w (.deletingPath path .found d'))

/-- One step of the delete loop inside a path. -/
def State.deletePathNext (s : State n) (w : Fin n) (path : String) (d : DeletePass)
    (ok : Bool) : DeleteStage → State n
  | .found =>
      if s.files path = none then
        (s.modifyEntry d.gen path fun e => { e with deleted := true }).setPc w
          (.deleting { d with deleted := d.deleted + 1 })
      else s.setPc w (.deletingPath path .present d)
  | .present => s.setPc w (.deletingPath path (.statted (s.files path)) d)
  | .statted fp =>
      match (s.dicts d.gen).lookup path with
      | none => s.setPc w (.deleting d)
      | some e =>
          if e.fp = fp then s.setPc w (.deletingPath path (.checked e.checks) d)
          else
            (s.modifyEntry d.gen path fun e =>
              { e with
                status := .skippedFingerprintChanged
                reason := Status.skippedFingerprintChanged.reason }).setPc w (.deleting d)
  | .checked c =>
      match s.files path, ok with
      | some f, true => (s.remove path f c).setPc w (.deletingPath path .removed d)
      | _, _ => s.setPc w (.deleting d)
  | .removed =>
      { s.modifyEntry d.gen path fun e => { e with deleted := true } with
        deletedCount := s.deletedCount + 1 }.setPc w
          (.deleting { d with deleted := d.deleted + 1 })

/-- One step of `remove_verified_archived_raw_files` inside a path. -/
def State.maintPathNext (s : State n) (w : Fin n) (path : String) (m : MaintPass)
    (ok : Bool) : MaintStage → State n
  | .toGate =>
      if m.gateFn = false then s.setPc w (.maintainingPath path (.toClassify none) m)
      else if ok then s.setPc w (.maintainingPath path (.toClassify (some (s.files path))) m)
      else s.setPc w (.maintaining m)
  | .toClassify gate =>
      if classifyPath m.members path (s.files path) = .verified then
        s.setPc w (.maintainingPath path (.verified ⟨gate, s.files path⟩) m)
      else s.setPc w (.maintaining m)
  | .verified c =>
      if ok = false then s.setPc w (.maintaining m)
      else if m.requireFingerprint then
        s.setPc w (.maintainingPath path (.statted c (s.files path)) m)
      else s.setPc w (.maintainingPath path (.compared c) m)
  | .statted c expected =>
      if expected ≠ none ∧ s.files path ≠ expected then s.setPc w (.maintaining m)
      else s.setPc w (.maintainingPath path (.compared c) m)
  | .compared c =>
      match s.files path, ok with
      | some f, true => (s.remove path f c).setPc w (.maintaining m)
      | _, _ => s.setPc w (.maintaining m)

/-- The next step of a worker; `ok` is the answer of the gate, of the lock or of the
skip-path test that the step asks. -/
def State.next (s : State n) (w : Fin n) (ok : Bool) : Option (State n) :=
  match s.pc w with
  | .idle => none
  | .gating todo ready skipped v =>
      if todo = [] then some (s.setPc w (.recording skipped ready v)) else none
  | .classifying todo results v => some (s.classifyNext w todo results v ok)
  | .recording [] [] v => some (s.nextBatch w v)
  | .recording [] (x :: ready) v => some (s.setPc w (.classifying (x :: ready) [] v))
  | .recording (r :: todo) ready v =>
      some (s.setPc w (.recordLocked r (s.files r.path) todo ready v))
  | .recordLocked r fp todo ready v =>
      some ((s.recordEntry r fp).setPc w (.recording todo ready v))
  | .deleting d => s.deleteNext w d
  | .deletingPath path stage d => some (s.deletePathNext w path d ok stage)
  | .maintaining m =>
      match m.todo with
      | [] => some (s.setPc w .idle)
      | path :: rest => some (s.setPc w (.maintainingPath path .toGate { m with todo := rest }))
  | .maintainingPath path stage m => some (s.maintPathNext w path m ok stage)

/-- What happens next: an append from outside, or a step of a worker. -/
inductive Act (n : ℕ) where
  | append (path : String) (bytes mtime : ℕ)
  | phaseChange (c : PhaseChange)
  /-- a verify pass is started with the paths it skips at once and those it classifies;
  `members = none`: the archive could not be validated -/
  | verify (w : Fin n) (kind : PassKind) (skips : List (String × Status)) (paths : List String)
      (gateFn : Bool) (members : Option MemberMap) (pathsPerTick : ℕ)
  /-- one call of the gate pool -/
  | gate (w : Fin n) (path : String) (ready : Bool)
  | applyBatchDelete (w : Fin n) (maxDeletes : ℕ)
  | finishDelete (w : Fin n) (census : Census)
  | removeVerifiedArchived (w : Fin n) (paths : List String) (gateFn : Bool)
      (members : MemberMap) (requireFingerprint : Bool)
  | next (w : Fin n) (ok : Bool)
  /-- the pass ends early: shutdown, batch limit or an exception -/
  | stop (w : Fin n)
  deriving DecidableEq, Repr

/-- May a verify pass of this kind start? -/
def State.mayVerify (s : State n) : PassKind → Bool
  | .verifyBody => s.phase == .verifying
  | .preSeal => s.phase == .verifying && s.stage == .none
  | .reclassify => s.phase != .verifying

/-- The start of a verify pass. -/
def State.startVerify (s : State n) (w : Fin n) (kind : PassKind)
    (skips : List (String × Status)) (paths : List String) (gateFn : Bool)
    (members : Option MemberMap) (pathsPerTick : ℕ) : State n :=
  let skipped : List Verdict := skips.map fun x => ⟨x.1, x.2, ⟨none, none⟩⟩
  let items : List Item := paths.map fun p => ⟨p, none⟩
  match kind, members with
  | .verifyBody, some m =>
      s.setPc w (.recording skipped items ⟨kind, gateFn, m, pathsPerTick, []⟩)
  | .verifyBody, none =>
      let invalid : List Verdict := paths.map fun p => ⟨p, .skippedSealInvalid, ⟨none, none⟩⟩
      s.setPc w (.recording (skipped ++ invalid) [] ⟨kind, gateFn, [], pathsPerTick, []⟩)
  | .preSeal, some m =>
      s.setPc w (.recording skipped [] ⟨kind, gateFn, m, pathsPerTick, paths⟩)
  | .reclassify, some m =>
      s.setPc w (.classifying items [] ⟨kind, gateFn, m, pathsPerTick, []⟩)
  | _, none => s

/-- The start of `_apply_batch_delete_body`. -/
def State.startDelete (s : State n) (w : Fin n) (maxDeletes : ℕ) : State n :=
  let s' := if s.needsGhostDeleteRetry then s.prepareGhostDeleteRetry else s
  if s'.phase = .verificationComplete ∨ s'.phase = .deleting then
    { s' with phase := .deleting }.setPc w (.deleting ⟨s'.gen, sortedKeys s'.entries, 0, maxDeletes⟩)
  else s'

def step (s : State n) : Act n → Option (State n)
  | .append path bytes mtime => some (s.append path bytes mtime)
  | .phaseChange c => some (s.changePhase c)
  | .verify w kind skips paths gateFn members pathsPerTick =>
      if s.pc w = .idle ∧ s.mayVerify kind = true ∧ 0 < pathsPerTick
          ∧ ∀ x ∈ skips, x.2 = .skippedActiveSegment ∨ x.2 = .skippedQuarantine then
        some (s.startVerify w kind skips paths gateFn members pathsPerTick)
      else none
  | .gate w path ready =>
      match s.pc w with
      | .gating todo ready' skipped v =>
          if path ∈ todo then
            let seen := s.files path
            if ready then
              some (s.setPc w (.gating (todo.erase path) (ready' ++ [⟨path, some seen⟩]) skipped v))
            else
              let skip : Verdict := ⟨path, .skippedNotHeadTailIngested, ⟨some seen, none⟩⟩
              some (s.setPc w (.gating (todo.erase path) ready' (skipped ++ [skip]) v))
          else none
      | _ => none
  | .applyBatchDelete w maxDeletes =>
      if s.pc w = .idle then some (s.startDelete w maxDeletes) else none
  | .finishDelete w census =>
      match s.pc w with
      | .deleting d =>
          if d.todo = [] ∨ d.maxDeletes ≠ 0 ∧ d.maxDeletes ≤ d.deleted then
            some ({ s with phase := s.phaseAfterDelete census }.setPc w .idle)
          else none
      | _ => none
  | .removeVerifiedArchived w paths gateFn members requireFingerprint =>
      if s.pc w = .idle then
        some (s.setPc w (.maintaining ⟨gateFn, members, requireFingerprint, paths⟩))
      else none
  | .next w ok => s.next w ok
  | .stop w => some (s.setPc w .idle)

/-! ## The property and its condition -/

/-- **The property.**  Every removed file had, when it was removed, the size and the
modification time that its membership check and its gate check saw. -/
def RemovedUnchanged (s : State n) : Prop :=
  ∀ r ∈ s.removals, r.checks.Saw r.atRemoval

/-- Observations of a path that the rest of a pass relies on and does not repeat. -/
structure Pledge where
  path : String
  observed : List (Option Fingerprint)
  deriving DecidableEq, Repr

def Item.pledges (x : Item) : List Pledge :=
  match x.gate with
  | none => []
  | some o => [⟨x.path, [o]⟩]

def Verdict.pledges (r : Verdict) : List Pledge :=
  if r.status = .verified then [⟨r.path, r.checks.observed⟩] else []

/-- The pledges of a program point.  A verdict is pledged until its fingerprint is taken; a
delete pass pledges from `_path_fingerprint` to `os.remove`. -/
def PC.pledges : PC → List Pledge
  | .idle => []
  | .gating _ ready skipped _ => ready.flatMap Item.pledges ++ skipped.flatMap Verdict.pledges
  | .classifying todo results _ => todo.flatMap Item.pledges ++ results.flatMap Verdict.pledges
  | .recording todo ready _ => ready.flatMap Item.pledges ++ todo.flatMap Verdict.pledges
  | .recordLocked _ _ todo ready _ =>
      ready.flatMap Item.pledges ++ todo.flatMap Verdict.pledges
  | .deleting _ => []
  | .deletingPath path (.statted fp) _ => [⟨path, [fp]⟩]
  | .deletingPath path (.checked c) _ => [⟨path, c.observed⟩]
  | .deletingPath _ _ _ => []
  | .maintaining _ => []
  | .maintainingPath path (.toClassify gate) _ => Item.pledges ⟨path, gate⟩
  | .maintainingPath path (.verified c) _ => [⟨path, c.observed⟩]
  | .maintainingPath path (.statted c none) _ => [⟨path, c.observed⟩]
  | .maintainingPath path (.compared c) _ => [⟨path, c.observed⟩]
  | .maintainingPath _ _ _ => []

/-- A delete pass has found the entry of `path` verified in the dictionary `gen` and has not
yet compared its fingerprint. -/
def PC.comparing (c : PC) (gen : ℕ) (path : String) : Bool :=
  match c with
  | .deletingPath p .found d => p == path && d.gen == gen
  | .deletingPath p .present d => p == path && d.gen == gen
  | .deletingPath p (.statted _) d => p == path && d.gen == gen
  | _ => false

/-- A skip that is about to be entered in the manifest. -/
def PC.recordsSkip : PC → Option Verdict
  | .recordLocked r _ _ _ _ => if r.status = .verified then none else some r
  | _ => none

/-- The condition.  A raw file is appended to only while no pass relies on an observation of
it, and a skip replaces an entry only while no delete pass is about to compare it. -/
def Unraced (s : State n) : Act n → Prop
  | .append path _ _ => ∀ w, ∀ pl ∈ (s.pc w).pledges, pl.path ≠ path
  | .next w _ =>
      ∀ r ∈ (s.pc w).recordsSkip, (s.entries.lookup r.path).map Entry.status = some .verified
        ∨ ∀ w', (s.pc w').comparing s.gen r.path = false
  | _ => True

instance (s : State n) : ∀ a, Decidable (Unraced s a)
  | .append path _ _ =>
      inferInstanceAs (Decidable (∀ w, ∀ pl ∈ (s.pc w).pledges, pl.path ≠ path))
  | .next w _ => inferInstanceAs (Decidable (∀ r ∈ (s.pc w).recordsSkip,
      (s.entries.lookup r.path).map Entry.status = some .verified
        ∨ ∀ w', (s.pc w').comparing s.gen r.path = false))
  | .phaseChange _ | .verify _ _ _ _ _ _ _ | .gate _ _ _ | .applyBatchDelete _ _
  | .finishDelete _ _ | .removeVerifiedArchived _ _ _ _ _ | .stop _ => isTrue trivial

/-! ## The invariant -/

/-- The recorded fingerprint is the one both checks saw. -/
def Entry.Trusted (e : Entry) : Prop :=
  ∀ f, e.fp = some f → e.checks.Saw f

/-- While the file of a pledge is there, it is as observed. -/
def Pledge.Holds (files : String → Option Fingerprint) (pl : Pledge) : Prop :=
  ∀ f, files pl.path = some f → ∀ o ∈ pl.observed, o = some f

/-- What a fingerprint that a pass carries along says. -/
def PC.Carries : PC → Prop
  | .recordLocked r fp _ _ _ => r.status = .verified → ∀ f, fp = some f → r.checks.Saw f
  | .maintainingPath _ (.statted c (some f)) _ => c.Saw f
  | _ => True

/-- The entry that a delete pass is about to compare can be trusted. -/
def State.TrustedAt (s : State n) (gen : ℕ) (path : String) : Prop :=
  ∀ e, (s.dicts gen).lookup path = some e → e.Trusted

/-- What holds in every state of an unraced run. -/
structure Inv (s : State n) : Prop where
  entries : ∀ gen, ∀ x ∈ s.dicts gen, x.2.status = .verified → x.2.Trusted
  pledges : ∀ w, ∀ pl ∈ (s.pc w).pledges, pl.Holds s.files
  carries : ∀ w, (s.pc w).Carries
  comparing : ∀ w gen path, (s.pc w).comparing gen path = true → s.TrustedAt gen path
  removals : RemovedUnchanged s

/-- A pledge survives when the file is unchanged or gone. -/
theorem Pledge.Holds.mono {files files' : String → Option Fingerprint} {pl : Pledge}
    (h : pl.Holds files) (hf : ∀ f, files' pl.path = some f → files pl.path = some f) :
    pl.Holds files' :=
  fun f hfile => h f (hf f hfile)

theorem Pledge.holds_self (files : String → Option Fingerprint) (path : String) :
    (⟨path, [files path]⟩ : Pledge).Holds files := by
  intro f hf o ho
  rw [List.mem_singleton.mp ho]
  exact hf

/-- A worker moves to `c`, from a state `u` that differs from `s` in the manifest, in files
that are gone and in sound removals. -/
theorem Inv.move {s u : State n} (h : Inv s) (w : Fin n) (c : PC) (hpc : u.pc = s.pc)
    (hfiles : ∀ p f, u.files p = some f → s.files p = some f)
    (hentries : ∀ gen, ∀ x ∈ u.dicts gen, x.2.status = .verified → x.2.Trusted)
    (htrust : ∀ v gen path, (s.pc v).comparing gen path = true → s.TrustedAt gen path →
      u.TrustedAt gen path)
    (hrem : RemovedUnchanged u) (hpl : ∀ pl ∈ c.pledges, pl.Holds u.files)
    (hcar : c.Carries)
    (hcomp : ∀ gen path, c.comparing gen path = true → u.TrustedAt gen path) :
    Inv (u.setPc w c) where
  entries := hentries
  pledges := by
    intro v pl hmem
    by_cases hv : v = w
    · subst hv
      rw [setPc_pc_self] at hmem
      exact hpl pl hmem
    · rw [setPc_pc_of_ne _ _ hv, hpc] at hmem
      exact (h.pledges v pl hmem).mono (hfiles pl.path)
  carries := by
    intro v
    by_cases hv : v = w
    · subst hv
      simpa using hcar
    · simpa [setPc_pc_of_ne _ _ hv, hpc] using h.carries v
  comparing := by
    intro v gen path hcmp
    by_cases hv : v = w
    · subst hv
      rw [setPc_pc_self] at hcmp
      exact hcomp gen path hcmp
    · rw [setPc_pc_of_ne _ _ hv, hpc] at hcmp
      exact htrust v gen path hcmp (h.comparing v gen path hcmp)
  removals := hrem

/-- Only the program point changes. -/
theorem Inv.moveOnly {s : State n} (h : Inv s) (w : Fin n) (c : PC)
    (hpl : ∀ pl ∈ c.pledges, pl.Holds s.files) (hcar : c.Carries)
    (hcomp : ∀ gen path, c.comparing gen path = true → s.TrustedAt gen path) :
    Inv (s.setPc w c) :=
  h.move w c rfl (fun _ _ hf => hf) h.entries (fun _ _ _ _ ht => ht) h.removals hpl hcar hcomp

/-- A worker moves to a point that relies on nothing. -/
theorem Inv.release {s : State n} (h : Inv s) (w : Fin n) (c : PC) (hpl : c.pledges = [])
    (hcar : c.Carries) (hcomp : ∀ gen path, c.comparing gen path = false) :
    Inv (s.setPc w c) :=
  h.moveOnly w c (by simp [hpl]) hcar fun gen path hc => by simp [hcomp] at hc

/-- The phase, the stage and the counters play no part. -/
theorem Inv.congr {s u : State n} (h : Inv s) (hfiles : u.files = s.files)
    (hdicts : u.dicts = s.dicts) (hpc : u.pc = s.pc) (hrem : u.removals = s.removals) :
    Inv u where
  entries := by rw [hdicts]; exact h.entries
  pledges := by rw [hfiles, hpc]; exact h.pledges
  carries := by rw [hpc]; exact h.carries
  comparing := by
    intro w gen path hc e he
    rw [hdicts] at he
    rw [hpc] at hc
    exact h.comparing w gen path hc e he
  removals := by
    intro r hr
    rw [hrem] at hr
    exact h.removals r hr

theorem Inv.append {s : State n} (h : Inv s) (path : String) (bytes mtime : ℕ)
    (hfree : ∀ w, ∀ pl ∈ (s.pc w).pledges, pl.path ≠ path) : Inv (s.append path bytes mtime) where
  entries := h.entries
  pledges := by
    intro w pl hmem
    refine (h.pledges w pl hmem).mono fun f hf => ?_
    rw [append_files_of_ne _ _ _ (hfree w pl hmem)] at hf
    exact hf
  carries := h.carries
  comparing := h.comparing
  removals := h.removals

/-! ## Steps that change the manifest -/

/-- Setting an entry keeps the entries trusted, when the new one is. -/
theorem trusted_set {es : Entries} {path : String} {e : Entry}
    (h : ∀ x ∈ es, x.2.status = .verified → x.2.Trusted)
    (he : e.status = .verified → e.Trusted) :
    ∀ x ∈ PyDict.set es path e, x.2.status = .verified → x.2.Trusted := by
  intro x hx hst
  rcases PyDict.mem_set hx with rfl | hx
  · exact he hst
  · exact h x hx hst

/-- The entries of every dictionary, after one of them is replaced. -/
theorem Inv.entries_setDict {s : State n} (h : Inv s) {gen : ℕ} {es : Entries}
    (hes : ∀ x ∈ es, x.2.status = .verified → x.2.Trusted) :
    ∀ g, ∀ x ∈ (s.setDict gen es).dicts g, x.2.status = .verified → x.2.Trusted := by
  intro g x hx
  by_cases hg : g = gen
  · subst hg
    rw [setDict_dicts_self] at hx
    exact hes x hx
  · rw [setDict_dicts_of_ne _ _ hg] at hx
    exact h.entries g x hx

/-- Setting one entry leaves trust at the other paths, and gives it at its own. -/
theorem trustedAt_set {s : State n} {gen : ℕ} {path : String} {e : Entry} {g : ℕ}
    {q : String} (hold : s.TrustedAt g q) (hnew : g = gen → q = path → e.Trusted) :
    (s.setDict gen (PyDict.set (s.dicts gen) path e)).TrustedAt g q := by
  intro e' he'
  by_cases hg : g = gen
  · subst hg
    rw [setDict_dicts_self] at he'
    by_cases hq : q = path
    · subst hq
      rw [PyDict.lookup_set_self, Option.some.injEq] at he'
      subst he'
      exact hnew rfl rfl
    · rw [PyDict.lookup_set_of_ne _ _ hq] at he'
      exact hold e' he'
  · rw [setDict_dicts_of_ne _ _ hg] at he'
    exact hold e' he'

/-- A change of an entry that keeps its fingerprint and its checks, and does not verify it. -/
structure Harmless (f : Entry → Entry) : Prop where
  fp : ∀ e, (f e).fp = e.fp
  checks : ∀ e, (f e).checks = e.checks
  status : ∀ e, (f e).status = .verified → e.status = .verified

theorem Harmless.trusted {f : Entry → Entry} (hf : Harmless f) {e : Entry} (h : e.Trusted) :
    (f e).Trusted := by
  intro fp hfp
  rw [hf.checks]
  rw [hf.fp] at hfp
  exact h fp hfp

theorem Inv.modifyEntry {s : State n} (h : Inv s) (gen : ℕ) (path : String)
    {f : Entry → Entry} (hf : Harmless f) (w : Fin n) (c : PC) (hpl : c.pledges = [])
    (hcar : c.Carries) (hcomp : ∀ g p, c.comparing g p = false) :
    Inv ((s.modifyEntry gen path f).setPc w c) := by
  rw [State.modifyEntry]
  split
  · exact h.release w c hpl hcar hcomp
  · rename_i e he
    have hmem : (path, e) ∈ s.dicts gen := PyDict.mem_of_lookup he
    refine h.move w c rfl (fun _ _ hfile => hfile) ?_ ?_ h.removals (by simp [hpl]) hcar
      fun g p hc => by simp [hcomp] at hc
    · exact h.entries_setDict (trusted_set (h.entries gen) fun hst =>
        hf.trusted (h.entries gen _ hmem (hf.status e hst)))
    · intro v g q _ hold
      refine trustedAt_set hold ?_
      rintro rfl rfl
      exact hf.trusted (hold e he)

/-- `_record_entry` keeps a verified entry; otherwise it stores the new one or changes
nothing. -/
theorem recordEntry_cases (s : State n) (r : Verdict) (fp : Option Fingerprint) :
    s.recordEntry r fp = s
      ∨ (s.entries.lookup r.path).map Entry.status ≠ some .verified
        ∧ (s.recordEntry r fp).files = s.files ∧ (s.recordEntry r fp).pc = s.pc
        ∧ (s.recordEntry r fp).removals = s.removals
        ∧ (s.recordEntry r fp).dicts = (s.setDict s.gen (PyDict.set (s.dicts s.gen) r.path
            ⟨r.status, r.status.reason, fp, false, r.checks⟩)).dicts := by
  rw [State.recordEntry]
  cases hl : s.entries.lookup r.path with
  | none =>
      refine Or.inr ⟨by simp, ?_⟩
      split_ifs <;> exact ⟨rfl, rfl, rfl, rfl⟩
  | some prior =>
      by_cases hp : prior.status = .verified
      · exact Or.inl (if_pos hp)
      · by_cases hsame : prior.status = r.status
        · exact Or.inl ((if_neg hp).trans (if_pos hsame))
        · refine Or.inr ⟨by simpa using hp, ?_⟩
          simp only [if_neg hp, if_neg hsame]
          split_ifs <;> exact ⟨rfl, rfl, rfl, rfl⟩

theorem inv_recordEntry {s : State n} (h : Inv s) {w : Fin n} {r : Verdict}
    {fp : Option Fingerprint} {todo : List Verdict} {ready : List Item} {v : Pass}
    (hpc : s.pc w = .recordLocked r fp todo ready v)
    (hskip : r.status ≠ .verified → (s.entries.lookup r.path).map Entry.status = some .verified
      ∨ ∀ w', (s.pc w').comparing s.gen r.path = false) :
    Inv ((s.recordEntry r fp).setPc w (.recording todo ready v)) := by
  have hpl : ∀ pl ∈ (PC.recording todo ready v).pledges, pl.Holds s.files := by
    intro pl hmem
    refine h.pledges w pl ?_
    rw [hpc]
    exact hmem
  have hcar : r.status = .verified → ∀ f, fp = some f → r.checks.Saw f := by
    have hcar := h.carries w
    rw [hpc] at hcar
    exact hcar
  rcases recordEntry_cases s r fp with heq | ⟨hprior, hfiles, hpcs, hrem, hdicts⟩
  · rw [heq]
    exact h.moveOnly w _ hpl trivial fun _ _ hc => by simp [PC.comparing] at hc
  · refine h.move w _ hpcs ?_ ?_ ?_ ?_ ?_ trivial fun _ _ hc => by simp [PC.comparing] at hc
    · intro p f hf
      rw [hfiles] at hf
      exact hf
    · rw [hdicts]
      exact h.entries_setDict (trusted_set (h.entries s.gen) hcar)
    · intro w' g q hcmp hold e' he'
      rw [hdicts] at he'
      refine trustedAt_set hold ?_ e' he'
      rintro rfl rfl
      by_cases hv : r.status = .verified
      · exact hcar hv
      · rcases hskip hv with hkept | hfree
        · exact absurd hkept hprior
        · rw [hfree w'] at hcmp
          cases hcmp
    · intro x hx
      rw [hrem] at hx
      exact h.removals x hx
    · rw [hfiles]
      exact hpl

/-- A ghost only loses its mark. -/
theorem inv_prepareGhostDeleteRetry {s : State n} (h : Inv s) : Inv s.prepareGhostDeleteRetry := by
  rw [State.prepareGhostDeleteRetry]
  split_ifs
  · let k : String × Entry → Entry := fun x =>
      if s.isGhost x then { x.2 with deleted := false } else x.2
    have hk : ∀ x, (k x).fp = x.2.fp ∧ (k x).checks = x.2.checks ∧ (k x).status = x.2.status := by
      intro x
      simp only [k]
      split_ifs <;> exact ⟨rfl, rfl, rfl⟩
    have htrusted : ∀ x : String × Entry, x.2.Trusted → (k x).Trusted := by
      intro x hx f hf
      rw [(hk x).2.1]
      rw [(hk x).1] at hf
      exact hx f hf
    have hmap : (s.entries.map fun x =>
        if s.isGhost x then (x.1, { x.2 with deleted := false }) else x)
          = s.entries.map fun x => (x.1, k x) := by
      refine List.map_congr_left fun x _ => ?_
      simp only [k]
      split_ifs <;> rfl
    rw [hmap]
    refine Inv.congr (s := s.setDict s.gen (s.entries.map fun x => (x.1, k x))) ?_ rfl rfl rfl rfl
    refine ⟨h.entries_setDict ?_, h.pledges, h.carries, ?_, h.removals⟩
    · intro x hx hst
      obtain ⟨y, hy, rfl⟩ := List.mem_map.mp hx
      refine htrusted y (h.entries s.gen y hy ?_)
      rw [← (hk y).2.2]
      exact hst
    · intro w g q hcmp e' he'
      have hold := h.comparing w g q hcmp
      by_cases hg : g = s.gen
      · subst hg
        rw [setDict_dicts_self, PyDict.lookup_map_values] at he'
        obtain ⟨e, he, rfl⟩ := Option.map_eq_some_iff.mp he'
        exact htrusted (q, e) (hold e he)
      · rw [setDict_dicts_of_ne _ _ hg] at he'
        exact hold e' he'
  · exact h

theorem inv_changePhase {s : State n} (h : Inv s) (c : PhaseChange) : Inv (s.changePhase c) := by
  cases c with
  | ghostRetry => exact inv_prepareGhostDeleteRetry h
  | resetForReverify =>
      refine Inv.congr (s := s.setDict (s.gen + 1) []) ?_ rfl rfl rfl rfl
      refine ⟨h.entries_setDict (by simp), h.pledges, h.carries, ?_, h.removals⟩
      intro w g q hcmp e he
      by_cases hg : g = s.gen + 1
      · subst hg
        rw [setDict_dicts_self] at he
        cases he
      · rw [setDict_dicts_of_ne _ _ hg] at he
        exact h.comparing w g q hcmp e he
  | postSealVerified => exact h.congr rfl rfl rfl rfl
  | finalizeDone => exact h.congr rfl rfl rfl rfl
  | beginDeleting | reopenDeletePhase | reopenStaleDone | promotePhase =>
      rw [State.changePhase]
      split_ifs
      · exact h.congr rfl rfl rfl rfl
      · exact h

/-! ## Steps of the passes -/

/-- All pledges of a list of items and a list of verdicts hold. -/
def AllHold (files : String → Option Fingerprint) (items : List Item)
    (verdicts : List Verdict) : Prop :=
  (∀ x ∈ items, ∀ pl ∈ x.pledges, pl.Holds files)
    ∧ ∀ r ∈ verdicts, ∀ pl ∈ r.pledges, pl.Holds files

theorem allHold_iff {files : String → Option Fingerprint} {items : List Item}
    {verdicts : List Verdict} : AllHold files items verdicts ↔
      ∀ pl ∈ items.flatMap Item.pledges ++ verdicts.flatMap Verdict.pledges, pl.Holds files := by
  constructor
  · rintro ⟨hi, hv⟩ pl hpl
    rcases List.mem_append.mp hpl with hpl | hpl
    · obtain ⟨x, hx, hpl⟩ := List.mem_flatMap.mp hpl
      exact hi x hx pl hpl
    · obtain ⟨r, hr, hpl⟩ := List.mem_flatMap.mp hpl
      exact hv r hr pl hpl
  · intro h
    refine ⟨fun x hx pl hpl => h pl ?_, fun r hr pl hpl => h pl ?_⟩
    · exact List.mem_append_left _ (List.mem_flatMap.mpr ⟨x, hx, hpl⟩)
    · exact List.mem_append_right _ (List.mem_flatMap.mpr ⟨r, hr, hpl⟩)

theorem AllHold.addVerdict {files : String → Option Fingerprint} {items : List Item}
    {verdicts : List Verdict} (h : AllHold files items verdicts) {r : Verdict}
    (hr : ∀ pl ∈ r.pledges, pl.Holds files) : AllHold files items (verdicts ++ [r]) := by
  refine ⟨h.1, fun x hx => ?_⟩
  rcases List.mem_append.mp hx with hx | hx
  · exact h.2 x hx
  · rw [List.mem_singleton.mp hx]
    exact hr

theorem pledges_of_skip {r : Verdict} (h : r.status ≠ .verified) : r.pledges = [] :=
  if_neg h

/-- Items whose gate has not been asked pledge nothing. -/
theorem allHold_fresh (files : String → Option Fingerprint) (paths : List String) :
    AllHold files (paths.map fun p => ⟨p, none⟩) [] := by
  refine ⟨fun x hx pl hpl => ?_, by simp⟩
  obtain ⟨p, -, rfl⟩ := List.mem_map.mp hx
  cases hpl

/-- The membership check adds its observation to that of the gate. -/
theorem holds_checks {files : String → Option Fingerprint} {path : String}
    {gate : Option (Option Fingerprint)}
    (h : ∀ pl ∈ Item.pledges ⟨path, gate⟩, pl.Holds files) :
    Pledge.Holds files ⟨path, Checks.observed ⟨gate, files path⟩⟩ := by
  intro f hf o ho
  rcases List.mem_cons.mp ho with rfl | ho
  · exact hf
  · cases gate with
    | none => cases ho
    | some g =>
        rw [Option.toList_some, List.mem_singleton] at ho
        subst ho
        exact h ⟨path, [o]⟩ List.mem_cons_self f hf o List.mem_cons_self

theorem inv_recording {s : State n} (h : Inv s) (w : Fin n) {todo : List Verdict}
    {ready : List Item} (v : Pass) (hall : AllHold s.files ready todo) :
    Inv (s.setPc w (.recording todo ready v)) :=
  h.moveOnly w _ (allHold_iff.mp hall) trivial fun _ _ hc => by simp [PC.comparing] at hc

theorem inv_classifying {s : State n} (h : Inv s) (w : Fin n) {todo : List Item}
    {results : List Verdict} (v : Pass) (hall : AllHold s.files todo results) :
    Inv (s.setPc w (.classifying todo results v)) :=
  h.moveOnly w _ (allHold_iff.mp hall) trivial fun _ _ hc => by simp [PC.comparing] at hc

theorem inv_gating {s : State n} (h : Inv s) (w : Fin n) (todo : List String)
    {ready : List Item} {skipped : List Verdict} (v : Pass)
    (hall : AllHold s.files ready skipped) :
    Inv (s.setPc w (.gating todo ready skipped v)) :=
  h.moveOnly w _ (allHold_iff.mp hall) trivial fun _ _ hc => by simp [PC.comparing] at hc

theorem inv_nextBatch {s : State n} (h : Inv s) (w : Fin n) (v : Pass) :
    Inv (s.nextBatch w v) := by
  have hidle : Inv (s.setPc w .idle) := h.release w .idle rfl trivial fun _ _ => rfl
  rw [State.nextBatch]
  split
  · exact hidle.congr rfl rfl rfl rfl
  · exact hidle
  · split_ifs
    · exact hidle.congr rfl rfl rfl rfl
    · exact inv_gating h w _ _ ⟨by simp, by simp⟩
    · exact inv_classifying h w _ (allHold_fresh s.files _)

theorem inv_classifyNext {s : State n} (h : Inv s) (w : Fin n) {todo : List Item}
    {results : List Verdict} (v : Pass) (ok : Bool) (hall : AllHold s.files todo results) :
    Inv (s.classifyNext w todo results v ok) := by
  cases todo with
  | nil =>
      refine inv_recording h w v ⟨hall.1, fun r hr => hall.2 r ?_⟩
      split_ifs at hr
      · exact List.mem_of_mem_filter hr
      · exact hr
  | cons x rest =>
      have hx : ∀ pl ∈ x.pledges, pl.Holds s.files := hall.1 x List.mem_cons_self
      have hrest : AllHold s.files rest results :=
        ⟨fun y hy => hall.1 y (List.mem_cons_of_mem _ hy), hall.2⟩
      simp only [State.classifyNext]
      split_ifs
      · refine inv_classifying h w v ⟨fun y hy => ?_, hall.2⟩
        rcases List.mem_cons.mp hy with rfl | hy
        · intro pl hpl
          rw [List.mem_singleton.mp hpl]
          exact Pledge.holds_self s.files x.path
        · exact hrest.1 y hy
      · refine inv_classifying h w v (hrest.addVerdict ?_)
        rw [pledges_of_skip (by simp)]
        simp
      · refine inv_classifying h w v (hrest.addVerdict ?_)
        intro pl hpl
        rw [Verdict.pledges] at hpl
        split_ifs at hpl
        · rw [List.mem_singleton.mp hpl]
          exact holds_checks hx
        · cases hpl

theorem inv_deleteNext {s s' : State n} (h : Inv s) (w : Fin n) {d : DeletePass}
    (hs : s.deleteNext w d = some s') : Inv s' := by
  rw [State.deleteNext] at hs
  split at hs
  · cases hs
  · rename_i path rest _
    split_ifs at hs
    split at hs
    · injection hs with hs
      subst hs
      exact h.release w _ rfl trivial fun _ _ => rfl
    · rename_i e he
      split_ifs at hs with hst <;> injection hs with hs <;> subst hs
      · exact h.release w _ rfl trivial fun _ _ => rfl
      · -- the entry is verified, hence trusted
        refine h.moveOnly w _ (by simp [PC.pledges]) trivial fun g q hc => ?_
        simp only [PC.comparing, Bool.and_eq_true, beq_iff_eq] at hc
        obtain ⟨rfl, rfl⟩ := hc
        intro e' he'
        rw [he, Option.some.injEq] at he'
        subst he'
        refine h.entries _ _ (PyDict.mem_of_lookup he) ?_
        by_contra hv
        exact hst (Or.inl hv)

/-- A removal whose checks saw the file as it is. -/
theorem inv_remove {s : State n} (h : Inv s) (w : Fin n) {path : String} {f : Fingerprint}
    {checks : Checks} (hsaw : checks.Saw f) (c : PC) (hpl : c.pledges = []) (hcar : c.Carries)
    (hcomp : ∀ g p, c.comparing g p = false) : Inv ((s.remove path f checks).setPc w c) := by
  refine h.move w c rfl ?_ h.entries (fun _ _ _ _ ht => ht) ?_ (by simp [hpl]) hcar
    fun g p hc => by simp [hcomp] at hc
  · intro p g hg
    by_cases hp : p = path
    · subst hp
      simp [State.remove] at hg
    · simpa [State.remove, Function.update_of_ne hp] using hg
  · intro r hr
    rcases List.mem_append.mp hr with hr | hr
    · exact h.removals r hr
    · rw [List.mem_singleton.mp hr]
      exact hsaw

theorem inv_deletePathNext {s : State n} (h : Inv s) {w : Fin n} {path : String}
    {stage : DeleteStage} {d : DeletePass} (ok : Bool)
    (hpc : s.pc w = .deletingPath path stage d) : Inv (s.deletePathNext w path d ok stage) := by
  have hpl := h.pledges w
  have htrust := h.comparing w d.gen path
  rw [hpc] at hpl htrust
  have hback : ∀ d', Inv (s.setPc w (.deleting d')) := fun d' =>
    h.release w _ rfl trivial fun _ _ => rfl
  have hmark : Harmless fun e => { e with deleted := true } :=
    ⟨fun _ => rfl, fun _ => rfl, fun _ hst => hst⟩
  have hskip : Harmless fun e =>
      { e with
        status := .skippedFingerprintChanged
        reason := Status.skippedFingerprintChanged.reason } :=
    ⟨fun _ => rfl, fun _ => rfl, fun _ hst => by cases hst⟩
  cases stage with
  | found =>
      rw [State.deletePathNext]
      split_ifs
      · exact h.modifyEntry d.gen path hmark w _ rfl trivial fun _ _ => rfl
      · refine h.moveOnly w _ (by simp [PC.pledges]) trivial fun g q hc => ?_
        simp only [PC.comparing, Bool.and_eq_true, beq_iff_eq] at hc
        obtain ⟨rfl, rfl⟩ := hc
        exact htrust (by simp [PC.comparing])
  | present =>
      refine h.moveOnly w _ (fun pl hmem => ?_) trivial fun g q hc => ?_
      · rw [List.mem_singleton.mp hmem]
        exact Pledge.holds_self s.files path
      · simp only [PC.comparing, Bool.and_eq_true, beq_iff_eq] at hc
        obtain ⟨rfl, rfl⟩ := hc
        exact htrust (by simp [PC.comparing])
  | statted fp =>
      rw [State.deletePathNext]
      split
      · exact hback d
      · rename_i e he
        split_ifs with hfp
        · refine h.moveOnly w _ (fun pl hmem => ?_) trivial fun _ _ hc => by
            simp [PC.comparing] at hc
          rw [List.mem_singleton.mp hmem]
          -- the file is as statted, the entry has that fingerprint and is trusted
          intro f hf o ho
          have hstat : fp = some f :=
            hpl ⟨path, [fp]⟩ List.mem_cons_self f hf fp List.mem_cons_self
          exact htrust (by simp [PC.comparing]) e he f (hfp.trans hstat) o ho
        · exact h.modifyEntry d.gen path hskip w (.deleting d) rfl trivial fun _ _ => rfl
  | checked c =>
      cases hf : s.files path with
      | none => simpa only [State.deletePathNext, hf] using hback d
      | some f =>
          cases ok with
          | false => simpa only [State.deletePathNext, hf] using hback d
          | true =>
              simp only [State.deletePathNext, hf]
              refine inv_remove h w ?_ _ rfl trivial fun _ _ => rfl
              exact hpl ⟨path, c.observed⟩ List.mem_cons_self f hf
  | removed =>
      exact (h.modifyEntry d.gen path hmark w (.deleting { d with deleted := d.deleted + 1 }) rfl
        trivial fun _ _ => rfl).congr rfl rfl rfl rfl

theorem inv_maintPathNext {s : State n} (h : Inv s) {w : Fin n} {path : String}
    {stage : MaintStage} {m : MaintPass} (ok : Bool)
    (hpc : s.pc w = .maintainingPath path stage m) :
    Inv (s.maintPathNext w path m ok stage) := by
  have hpl := h.pledges w
  have hcar := h.carries w
  rw [hpc] at hpl hcar
  have hback : Inv (s.setPc w (.maintaining m)) := h.release w _ rfl trivial fun _ _ => rfl
  have hto : ∀ stage', (∀ pl ∈ (PC.maintainingPath path stage' m).pledges, pl.Holds s.files) →
      (PC.maintainingPath path stage' m).Carries →
      Inv (s.setPc w (.maintainingPath path stage' m)) := fun stage' h₁ h₂ =>
    h.moveOnly w _ h₁ h₂ fun _ _ hc => by simp [PC.comparing] at hc
  -- each stage passes on what the stage before it saw of the file
  cases stage with
  | toGate =>
      rw [State.maintPathNext]
      split_ifs
      · exact hto _ (by simp [PC.pledges, Item.pledges]) trivial
      · refine hto _ (fun pl hmem => ?_) trivial
        rw [List.mem_singleton.mp hmem]
        exact Pledge.holds_self s.files path
      · exact hback
  | toClassify gate =>
      rw [State.maintPathNext]
      split_ifs
      · refine hto _ (fun pl hmem => ?_) trivial
        rw [List.mem_singleton.mp hmem]
        exact holds_checks hpl
      · exact hback
  | verified c =>
      have hc : Pledge.Holds s.files ⟨path, c.observed⟩ := hpl _ List.mem_cons_self
      rw [State.maintPathNext]
      split_ifs
      · exact hback
      -- a file that is gone at the stat keeps the pledge, and one that is there has the version the pledge names
      · cases hfile : s.files path with
        | none =>
            refine hto _ (fun pl hmem => ?_) trivial
            rw [List.mem_singleton.mp hmem]
            exact hc
        | some f => exact hto _ (by simp [PC.pledges]) (hc f hfile)
      · refine hto _ (fun pl hmem => ?_) trivial
        rw [List.mem_singleton.mp hmem]
        exact hc
  | statted c expected =>
      rw [State.maintPathNext]
      split_ifs with hchanged
      · exact hback
      · refine hto _ (fun pl hmem => ?_) trivial
        rw [List.mem_singleton.mp hmem]
        cases expected with
        | none => exact hpl _ List.mem_cons_self
        | some g =>
            have hsame : s.files path = some g := by
              by_contra hne
              exact hchanged ⟨by simp, hne⟩
            intro f hf
            have hfg : f = g := Option.some.inj (hf.symm.trans hsame)
            subst hfg
            exact hcar
  | compared c =>
      cases hf : s.files path with
      | none => simpa only [State.maintPathNext, hf] using hback
      | some f =>
          cases ok with
          | false => simpa only [State.maintPathNext, hf] using hback
          | true =>
              simp only [State.maintPathNext, hf]
              refine inv_remove h w ?_ _ rfl trivial fun _ _ => rfl
              exact hpl ⟨path, c.observed⟩ List.mem_cons_self f hf

theorem inv_next {s s' : State n} (h : Inv s) (w : Fin n) (ok : Bool)
    (hskip : ∀ r ∈ (s.pc w).recordsSkip,
      (s.entries.lookup r.path).map Entry.status = some .verified
        ∨ ∀ w', (s.pc w').comparing s.gen r.path = false)
    (hs : s.next w ok = some s') : Inv s' := by
  have hpl := h.pledges w
  rw [State.next] at hs
  split at hs
  case h_1 => cases hs
  case h_2 todo ready skipped v hpc =>
      split_ifs at hs
      injection hs with hs
      subst hs
      rw [hpc] at hpl
      exact inv_recording h w v (allHold_iff.mpr hpl)
  case h_3 todo results v hpc =>
      injection hs with hs
      subst hs
      rw [hpc] at hpl
      exact inv_classifyNext h w v ok (allHold_iff.mpr hpl)
  case h_4 v hpc =>
      injection hs with hs
      subst hs
      exact inv_nextBatch h w v
  case h_5 x ready v hpc =>
      injection hs with hs
      subst hs
      rw [hpc] at hpl
      exact inv_classifying h w v (allHold_iff.mpr hpl)
  case h_6 r todo ready v hpc =>
      injection hs with hs
      subst hs
      rw [hpc] at hpl
      have hall : AllHold s.files ready (r :: todo) := allHold_iff.mpr hpl
      refine h.moveOnly w _ (allHold_iff.mp ⟨hall.1, fun x hx =>
        hall.2 x (List.mem_cons_of_mem _ hx)⟩) ?_ fun _ _ hc => by simp [PC.comparing] at hc
      intro hver f hf
      refine hall.2 r List.mem_cons_self ⟨r.path, r.checks.observed⟩ ?_ f hf
      rw [Verdict.pledges, if_pos hver]
      exact List.mem_cons_self
  case h_7 r fp todo ready v hpc =>
      injection hs with hs
      subst hs
      refine inv_recordEntry h hpc fun hst => hskip r ?_
      rw [hpc, PC.recordsSkip, if_neg hst]
      rfl
  case h_8 d hpc => exact inv_deleteNext h w hs
  case h_9 path stage d hpc =>
      injection hs with hs
      subst hs
      exact inv_deletePathNext h ok hpc
  case h_10 m hpc =>
      split at hs <;> injection hs with hs <;> subst hs
      · exact h.release w .idle rfl trivial fun _ _ => rfl
      · exact h.release w _ rfl trivial fun _ _ => rfl
  case h_11 path stage m hpc =>
      injection hs with hs
      subst hs
      exact inv_maintPathNext h ok hpc

theorem inv_startVerify {s : State n} (h : Inv s) (w : Fin n) (kind : PassKind)
    {skips : List (String × Status)} (paths : List String) (gateFn : Bool)
    (members : Option MemberMap) (pathsPerTick : ℕ)
    (hskips : ∀ x ∈ skips, x.2 = .skippedActiveSegment ∨ x.2 = .skippedQuarantine) :
    Inv (s.startVerify w kind skips paths gateFn members pathsPerTick) := by
  have hskipped : ∀ r ∈ skips.map (fun x => (⟨x.1, x.2, ⟨none, none⟩⟩ : Verdict)),
      ∀ pl ∈ r.pledges, pl.Holds s.files := by
    intro r hr
    obtain ⟨x, hx, rfl⟩ := List.mem_map.mp hr
    rw [pledges_of_skip (by rcases hskips x hx with hst | hst <;> simp [hst])]
    simp
  unfold State.startVerify
  split
  · exact inv_recording h w _ ⟨(allHold_fresh s.files paths).1, hskipped⟩
  · refine inv_recording h w _ ⟨by simp, fun r hr => ?_⟩
    rcases List.mem_append.mp hr with hr | hr
    · exact hskipped r hr
    · obtain ⟨p, -, rfl⟩ := List.mem_map.mp hr
      rw [pledges_of_skip (by simp)]
      simp
  · exact inv_recording h w _ ⟨by simp, hskipped⟩
  · exact inv_classifying h w _ (allHold_fresh s.files paths)
  · exact h

theorem inv_startDelete {s : State n} (h : Inv s) (w : Fin n) (maxDeletes : ℕ) :
    Inv (s.startDelete w maxDeletes) := by
  have hghost : Inv (if s.needsGhostDeleteRetry then s.prepareGhostDeleteRetry else s) := by
    split_ifs
    · exact inv_prepareGhostDeleteRetry h
    · exact h
  rw [State.startDelete]
  generalize (if s.needsGhostDeleteRetry then s.prepareGhostDeleteRetry else s) = u at hghost ⊢
  split_ifs
  · exact (hghost.release w (.deleting ⟨u.gen, sortedKeys u.entries, 0, maxDeletes⟩) rfl trivial
      fun _ _ => rfl).congr rfl rfl rfl rfl
  · exact hghost

/-- One unraced step preserves the invariant. -/
theorem inv_step {s s' : State n} {a : Act n} (h : Inv s) (hok : Unraced s a)
    (hs : step s a = some s') : Inv s' := by
  cases a with
  | append path bytes mtime =>
      rw [step, Option.some.injEq] at hs
      subst hs
      exact h.append path bytes mtime hok
  | phaseChange c =>
      rw [step, Option.some.injEq] at hs
      subst hs
      exact inv_changePhase h c
  | verify w kind skips paths gateFn members pathsPerTick =>
      rw [step] at hs
      split_ifs at hs with hg
      injection hs with hs
      subst hs
      exact inv_startVerify h w kind paths gateFn members pathsPerTick hg.2.2.2
  | gate w path ready =>
      rw [step] at hs
      split at hs
      · rename_i todo ready' skipped v hpc
        have hpl := h.pledges w
        rw [hpc] at hpl
        have hall : AllHold s.files ready' skipped := allHold_iff.mpr hpl
        split_ifs at hs <;> injection hs with hs <;> subst hs
        · refine inv_gating h w _ v ⟨fun x hx => ?_, hall.2⟩
          rcases List.mem_append.mp hx with hx | hx
          · exact hall.1 x hx
          · intro pl hmem
            rw [List.mem_singleton.mp hx] at hmem
            rw [List.mem_singleton.mp hmem]
            exact Pledge.holds_self s.files path
        · refine inv_gating h w _ v (hall.addVerdict ?_)
          rw [pledges_of_skip (by simp)]
          simp
      · cases hs
  | applyBatchDelete w maxDeletes =>
      rw [step] at hs
      split_ifs at hs
      injection hs with hs
      subst hs
      exact inv_startDelete h w maxDeletes
  | finishDelete w census =>
      rw [step] at hs
      split at hs
      · split_ifs at hs
        injection hs with hs
        subst hs
        exact (h.release w .idle rfl trivial fun _ _ => rfl).congr rfl rfl rfl rfl
      · cases hs
  | removeVerifiedArchived w paths gateFn members requireFingerprint =>
      rw [step] at hs
      split_ifs at hs
      injection hs with hs
      subst hs
      exact h.release w _ rfl trivial fun _ _ => rfl
  | next w ok => exact inv_next h w ok hok hs
  | stop w =>
      rw [step, Option.some.injEq] at hs
      subst hs
      exact h.release w .idle rfl trivial fun _ _ => rfl

theorem inv_init (n : ℕ) (files : String → Option Fingerprint) : Inv (State.init n files) where
  entries := fun _ x hx => by cases hx
  pledges := fun _ pl hpl => by cases hpl
  carries := fun _ => trivial
  comparing := fun _ _ _ hc => by cases hc
  removals := fun r hr => by cases hr

/-! ## Removals along runs -/

/-- **Removal.**  For any number of workers and any raw files: in every state reached by a run
of unraced steps, every file removed so far had, at the moment of its removal, the size and
the modification time that its membership check and its gate check saw. -/
theorem removed_unchanged_of_run (n : ℕ) (files : String → Option Fingerprint)
    (as : List (Act n)) (s : State n)
    (hrun : Transition.exec step (State.init n files) as = some s)
    (hok : Transition.Respects step Unraced (State.init n files) as) : RemovedUnchanged s :=
  (Transition.exec_invariant (I := Inv) (fun _ _ _ h hsafe hs => inv_step h hsafe hs) as _ s
    (inv_init n files) hok hrun).removals

/-- One raw file of size 5. -/
def oneRawFile (path : String) : Option Fingerprint :=
  if path = "/h/1" then some ⟨100, 5⟩ else none

/-- A pre-seal pass verifies the file against the member `h/1`, the delete phase begins and
a batch delete removes it; the file is appended to before the pass looks at it. -/
def verifyThenDelete (members : MemberMap) : List (Act 1) :=
  [.append "/h/1" 2 110, .verify 0 .preSeal [] ["/h/1"] true (some members) 8, .next 0 true,
    .gate 0 "/h/1" true, .next 0 true, .next 0 true, .next 0 true, .next 0 true, .next 0 true,
    .next 0 true, .next 0 true, .phaseChange (.beginDeleting true), .applyBatchDelete 0 0,
    .next 0 true, .next 0 true, .next 0 true, .next 0 true, .next 0 true, .next 0 true,
    .finishDelete 0 ⟨true, false, false, false⟩]

theorem removed_unchanged_of_run_verifyThenDelete :
    ∃ s, Transition.exec step (State.init 1 oneRawFile) (verifyThenDelete [("h/1", 7)]) = some s
      ∧ s.removals = [⟨"/h/1", ⟨110, 7⟩, ⟨some (some ⟨110, 7⟩), some ⟨110, 7⟩⟩⟩]
      ∧ RemovedUnchanged s := by
  have hsome : ((Transition.exec step (State.init 1 oneRawFile)
      (verifyThenDelete [("h/1", 7)])).map State.removals)
        = some [⟨"/h/1", ⟨110, 7⟩, ⟨some (some ⟨110, 7⟩), some ⟨110, 7⟩⟩⟩] := by decide
  obtain ⟨s, hs, hval⟩ := Option.map_eq_some_iff.mp hsome
  exact ⟨s, hs, hval, removed_unchanged_of_run 1 oneRawFile _ s hs (by decide)⟩

/-- The file is appended to after its membership check, before its fingerprint is taken. -/
def appendBeforeRecord : List (Act 1) :=
  [.verify 0 .preSeal [] ["/h/1"] true (some [("h/1", 5)]) 8, .next 0 true,
    .gate 0 "/h/1" true, .next 0 true, .next 0 true, .next 0 true, .append "/h/1" 2 110,
    .next 0 true, .next 0 true, .next 0 true, .next 0 true,
    .phaseChange (.beginDeleting true), .applyBatchDelete 0 0,
    .next 0 true, .next 0 true, .next 0 true, .next 0 true, .next 0 true]

/-- **An unarchived sample is removed.**  The file is removed with size 7 after both checks
have seen size 5. -/
theorem not_removed_unchanged_append_before_record :
    ∃ s, Transition.exec step (State.init 1 oneRawFile) appendBeforeRecord = some s
      ∧ ¬ RemovedUnchanged s := by
  have hsome : ((Transition.exec step (State.init 1 oneRawFile) appendBeforeRecord).map
      State.removals) = some [⟨"/h/1", ⟨110, 7⟩, ⟨some (some ⟨100, 5⟩), some ⟨100, 5⟩⟩⟩] := by
    decide
  obtain ⟨s, hs, hval⟩ := Option.map_eq_some_iff.mp hsome
  refine ⟨s, hs, fun hret => ?_⟩
  have hsaw := hret ⟨"/h/1", ⟨110, 7⟩, ⟨some (some ⟨100, 5⟩), some ⟨100, 5⟩⟩⟩ (by rw [hval]; decide)
  exact absurd hsaw (by decide)

end RawRemoval
