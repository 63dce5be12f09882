/-
# The day-close manifest and its document

`DayCloseManifestCoordinator` keeps one manifest for all days that wait to be closed.  Every operation
changes it under a lock, copies it there, and saves the copy after the lock is released; some operations
do so several times, with calls to the debt heap in between.

* `Manifest` and `Entry` are the document; the definitions after them are the locked sections of the
  operations, under the names of the source;
* `Task` is a locked section that an operation still has to go through, `Task.run` what it does to the
  manifest, whether it takes a copy, and which sections come after it;
* `step` interleaves any number of threads at their sections and their saves, over the ledger of
  `SnapshotSave`;
* `disk_eq_of_run`: when no copy is saved over a newer one, the document is the manifest once all
  operations have returned.

The clock, the debt heap, the file system and the callbacks answer in the actions (`Answer`).  Paths are
normalised by the callers and the keys of a loaded document are taken to be so.
-/
import HpcPerfStats.PyDict
import HpcPerfStats.SnapshotSave
import HpcPerfStats.Transition

namespace DayCloseManifest

open SnapshotSave
open scoped Transition

/-! ## The document -/

/-- The statuses of an entry. -/
inductive Status where
  | submitted
  | queued
  | sealing
  | rawRemoval
  | deferred
  | complete
  | rawDeletePending
  | other (text : String)
  deriving DecidableEq, Repr

/-- An entry; a field that is `none` is absent. -/
structure Entry where
  tarPath : Option String
  status : Option Status
  reason : Option String
  detail : Option String
  submittedAt : Option ℕ
  lastProgress : Option String
  lastProgressAt : Option ℕ
  recoveredAt : Option ℕ
  completedAt : Option ℕ
  deriving DecidableEq, Repr

/-- `{}`. -/
def Entry.empty : Entry := ⟨none, none, none, none, none, none, none, none, none⟩

/-- `{"tar_path": tar_norm}`. -/
def Entry.ofTar (tar : String) : Entry := { Entry.empty with tarPath := some tar }

/-- The manifest; the value of a key is `none` when the document holds something other than a dictionary
there. -/
structure Manifest where
  entries : List (String × Option Entry)
  lastProgress : String
  lastProgressAt : Option ℕ
  deriving DecidableEq, Repr

/-- `_new_manifest`. -/
def newManifest : Manifest := ⟨[], "", none⟩

/-- The entry of a path, if it is a dictionary. -/
def Manifest.entry (m : Manifest) (tar : String) : Option Entry :=
  (m.entries.lookup tar).join

/-- `entries[tar_norm] = entry`. -/
def Manifest.setEntry (m : Manifest) (tar : String) (e : Entry) : Manifest :=
  { m with entries := PyDict.set m.entries tar (some e) }

/-- `entries.pop(tar_norm, None)`. -/
def Manifest.popEntry (m : Manifest) (tar : String) : Manifest :=
  { m with entries := m.entries.filter fun x => x.1 != tar }

/-! ## Tests -/

/-- `_DAY_CLOSE_WORKER_SLOT_STATUSES`. -/
def workerSlotStatuses : List Status := [.submitted, .queued, .sealing, .rawRemoval]

/-- `_DAY_CLOSE_PIPELINE_PENDING_STATUSES`. -/
def pipelinePendingStatuses : List Status := workerSlotStatuses ++ [Status.deferred]

/-- The status of an entry is one of a list. -/
def Entry.statusIn (e : Entry) (l : List Status) : Bool :=
  e.status.any (l.contains ·)

/-- `_is_deferred_waiting_on_ingest_entry`. -/
def Entry.isDeferredWaitingOnIngest (e : Entry) : Bool :=
  e.statusIn [.deferred] && ["waiting_on_ingest", "legacy_raw_delete_pending", ""].contains (e.detail.getD "")

/-- `entry.get("last_progress_at") or entry.get("submitted_at")`. -/
def Entry.lastAt (e : Entry) : Option ℕ :=
  match e.lastProgressAt with
  | some (t + 1) => some (t + 1)
  | _ => e.submittedAt

/-! ## Locked sections -/

/-- `_touch_manifest_locked`. -/
def touchManifestLocked (now : ℕ) (stage tar : String) (m : Manifest) : Manifest :=
  let m := { m with lastProgress := stage, lastProgressAt := some now }
  if tar = "" then m
  else
    match m.entries.lookup tar with
    | none => m.setEntry tar { Entry.empty with lastProgress := some stage, lastProgressAt := some now }
    | some none => m
    | some (some e) => m.setEntry tar { e with lastProgress := some stage, lastProgressAt := some now }

/-- The first loop of `_recover_stale_manifest_entries`: what an entry becomes, if it is recovered. -/
def recoverEntry (now staleSeconds : ℕ) (live : List String) (tar : String) (e : Entry) : Option Entry :=
  if e.status = some .rawDeletePending then
    some { e with
      status := some .deferred, detail := some "legacy_raw_delete_pending", recoveredAt := some now }
  else if e.statusIn workerSlotStatuses && !live.contains tar then
    match e.lastAt with
    | none => none
    | some t =>
        if now < t + staleSeconds then none
        else
          some { e with
            status := some .deferred, detail := some "stale_manifest_recovery", recoveredAt := some now }
  else none

/-- The second loop: a complete entry whose day is not complete on disk. -/
def downgradeEntry (now : ℕ) (filesystemComplete : List String) (tar : String) (e : Entry) :
    Option Entry :=
  if e.statusIn [.complete] && !filesystemComplete.contains tar then
    some { e with
      status := some .deferred, detail := some "stale_complete_filesystem_mismatch"
      recoveredAt := some now }
  else none

/-- `reconcile_manifest_with_debt_heap`: what a ghost entry becomes. -/
def ghostEntry (now : ℕ) (debt live : List String) (tar : String) (e : Entry) : Option Entry :=
  if e.statusIn workerSlotStatuses && !(debt.contains tar || live.contains tar) then
    some { e with
      status := some .deferred, detail := some "ghost_manifest_reconcile", recoveredAt := some now }
  else none

/-- The value of one key after a loop over the entries. -/
def loopValue (f : String → Entry → Option Entry) (x : String × Option Entry) : Option Entry :=
  x.2.bind (f x.1)

/-- A loop over the entries that changes some of them. -/
def Manifest.loop (m : Manifest) (f : String → Entry → Option Entry) : Manifest :=
  { m with
    entries := m.entries.map fun x => match loopValue f x with
      | none => x
      | some e => (x.1, some e) }

/-- The paths whose entries such a loop changes. -/
def Manifest.changed (m : Manifest) (f : String → Entry → Option Entry) : List String :=
  (m.entries.filter fun x => (loopValue f x).isSome).map Prod.fst

/-- The section that puts a path back to `queued` after the debt heap has taken it. -/
def requeueEntry (now : ℕ) (reason tar : String) (m : Manifest) : Manifest :=
  let e := (m.entry tar).getD (Entry.ofTar tar)
  touchManifestLocked now "queued" tar
    (m.setEntry tar { e with
      status := some .queued, reason := some reason, detail := none, submittedAt := some now })

/-- The new entry of `defer_for_ingest_handoff`. -/
def deferNew (now : ℕ) (tar : String) (m : Manifest) : Manifest :=
  touchManifestLocked now "deferred_waiting_on_ingest" tar
    (m.setEntry tar { Entry.ofTar tar with
      status := some .deferred, detail := some "waiting_on_ingest", submittedAt := some now })

/-- The new entry at the end of `_enqueue_day_close_impl`. -/
def enqueueNew (now : ℕ) (reason tar : String) (m : Manifest) : Manifest :=
  touchManifestLocked now "queued" tar
    (m.setEntry tar { Entry.ofTar tar with
      status := some .queued, reason := some reason, submittedAt := some now })

/-- `_set_entry_status`, with the detail or the completion time it is given. -/
def setEntryStatus (status : Status) (detail : Option String) (completedAt : Option ℕ) (tar : String)
    (m : Manifest) : Manifest :=
  let e := (m.entry tar).getD Entry.empty
  m.setEntry tar { e with
    status := some status
    detail := detail <|> e.detail
    completedAt := completedAt <|> e.completedAt }

/-! ## Operations -/

/-- What the world outside says when a section is gone through: the clock, the days that are complete on
disk, the paths on the debt heap, and whether the debt heap has taken the path. -/
structure Answer where
  now : ℕ
  filesystemComplete : List String
  inflight : List String
  enqueued : Bool
  deriving DecidableEq, Repr

/-- A locked section that an operation has still to go through. -/
inductive Task where
  | recover (staleSeconds : ℕ) (live : List String)
  | requeueRecovered (tar : String)
  | reconcile (debt live : List String)
  | reconcileOne (tar : String)
  | clearDeferred (tar : String)
  | deferForIngestHandoff (tar : String)
  | setEntryStatus (tar : String) (status : Status) (detail : Option String) (completed : Bool)
  | touchManifest (stage tar : String)
  | enqueue (tar reason : String)
  | enqueueQueued (tar reason : String)
  deriving DecidableEq, Repr

/-- What a section leaves behind: the manifest, whether it was copied, and the sections that follow. -/
structure Outcome where
  manifest : Manifest
  copied : Bool
  after : List Task
  deriving DecidableEq, Repr

/-- `or` on strings. -/
def orText (s d : String) : String := if s = "" then d else s

/-- One locked section. -/
def Task.run (a : Answer) (m : Manifest) : Task → Outcome
  | .recover staleSeconds live =>
      if staleSeconds = 0 then ⟨m, false, []⟩
      else
        let f := recoverEntry a.now staleSeconds live
        let g := downgradeEntry a.now a.filesystemComplete
        let recovered := m.changed f
        let slots := recovered.filter fun tar => ((m.entry tar).map (·.statusIn workerSlotStatuses)).getD false
        let downgraded := (m.loop f).changed g
        ⟨(m.loop f).loop g, !recovered.isEmpty || !downgraded.isEmpty, slots.map .requeueRecovered⟩
  | .requeueRecovered tar =>
      if a.enqueued = false ∧ ¬ tar ∈ a.inflight then ⟨m, false, []⟩
      else ⟨requeueEntry a.now "stale_manifest_recovery" tar m, true, []⟩
  | .reconcile debt live =>
      let f := ghostEntry a.now debt live
      let ghosts := m.changed f
      ⟨m.loop f, !ghosts.isEmpty, ghosts.map .reconcileOne⟩
  | .reconcileOne tar =>
      if a.enqueued then ⟨requeueEntry a.now "ghost_manifest_reconcile" tar m, true, []⟩
      else ⟨m.popEntry tar, true, []⟩
  | .clearDeferred tar =>
      if (m.entry tar).any Entry.isDeferredWaitingOnIngest then ⟨m.popEntry tar, true, []⟩
      else ⟨m, false, []⟩
  | .deferForIngestHandoff tar =>
      match m.entry tar with
      | none => ⟨deferNew a.now tar m, true, []⟩
      | some e =>
          if e.statusIn pipelinePendingStatuses then
            ⟨m, false, [.setEntryStatus tar .deferred (some "waiting_on_ingest") false,
              .touchManifest "deferred_waiting_on_ingest" tar]⟩
          else ⟨m, false, []⟩
  | .setEntryStatus tar status detail completed =>
      ⟨DayCloseManifest.setEntryStatus status detail (if completed then some a.now else none) tar m,
        true, []⟩
  | .touchManifest stage tar => ⟨touchManifestLocked a.now stage tar m, true, []⟩
  | .enqueue tar reason =>
      match m.entry tar with
      | none => if tar ∈ a.inflight then ⟨m, false, []⟩ else ⟨m, false, [.enqueueQueued tar reason]⟩
      | some e =>
          if e.statusIn [.deferred] && !e.isDeferredWaitingOnIngest then
            if tar ∈ a.inflight then
              ⟨touchManifestLocked a.now "queued" tar
                (m.setEntry tar { e with
                  status := some .queued, reason := some (orText reason "promoted_from_deferred")
                  detail := none, submittedAt := some a.now }), true, []⟩
            else ⟨m, false, [.enqueueQueued tar reason]⟩
          else if e.isDeferredWaitingOnIngest then ⟨m, false, []⟩
          else if tar ∈ a.inflight then ⟨m, false, []⟩
          else ⟨m, false, [.enqueueQueued tar reason]⟩
  | .enqueueQueued tar reason =>
      if a.enqueued then ⟨enqueueNew a.now reason tar m, true, []⟩ else ⟨m, false, []⟩

/-- The operations that write, after the tests that come before their first section. -/
inductive Op where
  | recoverStaleManifestEntries (staleSeconds : ℕ) (live : List String)
  | reconcileManifestWithDebtHeap (debt live : List String)
  | clearDeferredWaitingOnIngest (tar : String)
  | deferForIngestHandoff (tar : String)
  | finalizeComplete (tar : String)
  | enqueueDayClose (tar reason : String)
  | touchProgress (stage tar : String)
  deriving DecidableEq, Repr

/-- The sections of an operation, as far as they are known when it is called. -/
def Op.tasks : Op → List Task
  | .recoverStaleManifestEntries staleSeconds live => [.recover staleSeconds live]
  | .reconcileManifestWithDebtHeap debt live => [.reconcile debt live]
  | .clearDeferredWaitingOnIngest tar => [.clearDeferred tar]
  | .deferForIngestHandoff tar => [.deferForIngestHandoff tar]
  | .finalizeComplete tar => [.setEntryStatus tar .complete none true, .touchManifest "complete" tar]
  | .enqueueDayClose tar reason => [.enqueue tar reason]
  | .touchProgress stage tar => [.touchManifest stage tar]

/-! ## Threads -/

variable {n : ℕ}

/-- The manifest with its document, and the sections that each thread has still to go through. -/
structure State (n : ℕ) where
  ledger : Ledger (Fin n) Manifest
  todo : Fin n → List Task

/-- A manifest that has just been loaded. -/
def State.loaded (n : ℕ) (m : Manifest) : State n :=
  ⟨Ledger.loaded m, fun _ => []⟩

/-- The operation of a thread has returned. -/
def State.returned (s : State n) (w : Fin n) : Prop :=
  s.todo w = [] ∧ s.ledger.phase w = .idle

inductive Act (n : ℕ) where
  | call (w : Fin n) (op : Op)
  /-- the next locked section of a thread -/
  | locked (w : Fin n) (a : Answer)
  /-- `_save_manifest` -/
  | save (w : Fin n)
  deriving DecidableEq, Repr

/-- A thread goes through a locked section. -/
def State.runTask (s : State n) (w : Fin n) (o : Outcome) (rest : List Task) : State n :=
  { ledger :=
      if o.copied then (s.ledger.change w o.manifest).copy w
      else { s.ledger with memory := o.manifest }
    todo := Function.update s.todo w (o.after ++ rest) }

/-- One step.  A thread that holds a copy saves it before it goes on. -/
def step (s : State n) : Act n → Option (State n)
  | .call w op =>
      if s.todo w = [] ∧ s.ledger.phase w = .idle then
        some { s with todo := Function.update s.todo w op.tasks }
      else none
  | .locked w a =>
      match s.todo w, s.ledger.phase w with
      | t :: rest, .idle => some (s.runTask w (t.run a s.ledger.memory) rest)
      | _, _ => none
  | .save w => (s.ledger.save w).map fun l => { s with ledger := l }

/-- **The condition.**  No copy is saved over a newer one. -/
def SavesInOrder (s : State n) : Act n → Prop
  | .save w => s.ledger.InOrder w
  | _ => True

instance (s : State n) : ∀ a, Decidable (SavesInOrder s a)
  | .save w => inferInstanceAs (Decidable (s.ledger.InOrder w))
  | .call _ _ => isTrue trivial
  | .locked _ _ => isTrue trivial

/-! ## A section that is not copied changes nothing -/

/-- A loop that changes no entry. -/
theorem loop_eq_self {m : Manifest} {f : String → Entry → Option Entry} (h : m.changed f = []) :
    m.loop f = m := by
  unfold Manifest.changed at h
  rw [List.map_eq_nil_iff, List.filter_eq_nil_iff] at h
  have hmap : (m.loop f).entries = m.entries.map id := by
    apply List.map_congr_left
    intro x hx
    have hnone : loopValue f x = none := by simpa using h x hx
    rw [hnone]
    rfl
  rw [List.map_id] at hmap
  show { m with entries := (m.loop f).entries } = m
  rw [hmap]

/-- **Copied or unchanged.**  A section that takes no copy leaves the manifest as it was. -/
theorem run_manifest_of_not_copied (a : Answer) (m : Manifest) (t : Task)
    (h : (t.run a m).copied = false) : (t.run a m).manifest = m := by
  cases t with
  | recover staleSeconds live =>
      simp only [Task.run] at h ⊢
      by_cases hzero : staleSeconds = 0
      · rw [if_pos hzero]
      · rw [if_neg hzero] at h ⊢
        simp only [Bool.or_eq_false_iff, Bool.not_eq_false', List.isEmpty_iff] at h
        obtain ⟨hrecovered, hdowngraded⟩ := h
        -- the first pass changed nothing, so the second one starts from the same manifest
        have hfirst := loop_eq_self hrecovered
        rw [hfirst] at hdowngraded
        show (m.loop _).loop _ = m
        rw [hfirst, loop_eq_self hdowngraded]
  | requeueRecovered tar =>
      simp only [Task.run] at h ⊢
      split_ifs at h ⊢
      rfl
  | reconcile debt live =>
      simp only [Task.run, Bool.not_eq_false', List.isEmpty_iff] at h
      exact loop_eq_self h
  | reconcileOne tar =>
      simp only [Task.run] at h
      split_ifs at h
  | clearDeferred tar =>
      simp only [Task.run] at h ⊢
      split_ifs at h ⊢
      rfl
  | deferForIngestHandoff tar =>
      simp only [Task.run] at h ⊢
      cases he : m.entry tar with
      | none =>
          rw [he] at h
          cases h
      | some e =>
          simp only
          split_ifs
          · rfl
          · rfl
  | setEntryStatus tar status detail completed => cases h
  | touchManifest stage tar => cases h
  | enqueue tar reason =>
      simp only [Task.run] at h ⊢
      cases he : m.entry tar with
      | none =>
          simp only
          split_ifs
          · rfl
          · rfl
      | some e =>
          rw [he] at h
          simp only at h ⊢
          split_ifs at h ⊢ <;> rfl
  | enqueueQueued tar reason =>
      simp only [Task.run] at h ⊢
      split_ifs at h ⊢
      rfl

/-! ## Runs -/

/-- One step whose saves are in order. -/
theorem inv_step {s s' : State n} {a : Act n} (h : s.ledger.Inv) (hok : SavesInOrder s a)
    (hstep : step s a = some s') : s'.ledger.Inv := by
  cases a with
  | call w op =>
      rw [step] at hstep
      split at hstep
      · rw [Option.some.injEq] at hstep
        subst hstep
        exact h
      · cases hstep
  | locked w ans =>
      rw [step] at hstep
      split at hstep
      · rename_i t rest _ _
        rw [Option.some.injEq] at hstep
        subst hstep
        unfold State.runTask
        simp only
        cases hcopied : (t.run ans s.ledger.memory).copied with
        | true =>
            rw [if_pos rfl]
            exact (h.change w _).copy w
        | false =>
            rw [run_manifest_of_not_copied ans s.ledger.memory t hcopied]
            exact h
      · cases hstep
  | save w =>
      rw [step] at hstep
      obtain ⟨l, hl, rfl⟩ := Option.map_eq_some_iff.mp hstep
      exact h.save hok hl

/-- **The document of a manifest.**  For any number of threads, any loaded manifest and any interleaving of
operations whose saves never put a copy over a newer one: once every operation has returned, the document
on disk is the manifest in memory. -/
theorem disk_eq_of_run (n : ℕ) (m : Manifest) (as : List (Act n)) (s : State n)
    (hrun : Transition.exec step (State.loaded n m) as = some s)
    (hok : Transition.Respects step SavesInOrder (State.loaded n m) as)
    (hreturned : ∀ w, s.returned w) : s.ledger.disk = s.ledger.memory := by
  have hinv : s.ledger.Inv :=
    Transition.exec_invariant (I := fun s : State n => s.ledger.Inv)
      (fun _ _ _ h hsafe hs => inv_step h hsafe hs) as _ s (Ledger.Inv.loaded m) hok hrun
  exact hinv.settled fun w => (hreturned w).2

/-- The answers at a certain time, with a debt heap that takes every path. -/
def answerAt (now : ℕ) : Answer := ⟨now, [], [], true⟩

/-- Two threads have returned. -/
theorem forall_returned {s : State 2} (htodo : (s.todo 0, s.todo 1) = ([], []))
    (hphase : (s.ledger.phase 0, s.ledger.phase 1) = (.idle, .idle)) : ∀ w, s.returned w := by
  intro w
  match w with
  | 0 => exact ⟨(Prod.mk.inj htodo).1, (Prod.mk.inj hphase).1⟩
  | 1 => exact ⟨(Prod.mk.inj htodo).2, (Prod.mk.inj hphase).2⟩

/-- A day is enqueued while another thread reports progress; the copies are saved in the order in which
they were taken. -/
def enqueueAndTouch : List (Act 2) :=
  [.call 0 (.enqueueDayClose "/d/2026-01-02.tar" "rescan"), .locked 0 (answerAt 100),
    .locked 0 (answerAt 101), .call 1 (.touchProgress "sealing" "/d/2026-01-01.tar"), .locked 1 (answerAt 102),
    .save 0, .save 1]

theorem disk_eq_of_run_enqueueAndTouch :
    ∃ s, Transition.exec step (State.loaded 2 newManifest) enqueueAndTouch = some s ∧
      s.ledger.memory.entries.length = 2 ∧ s.ledger.disk = s.ledger.memory := by
  have hsome : ((Transition.exec step (State.loaded 2 newManifest) enqueueAndTouch).map
      fun s => (s.ledger.memory.entries.length, s.todo 0, s.todo 1)) = some (2, [], []) := by decide
  have hphase : ((Transition.exec step (State.loaded 2 newManifest) enqueueAndTouch).map
      fun s => (s.ledger.phase 0, s.ledger.phase 1)) = some (.idle, .idle) := by decide
  obtain ⟨s, hs, hval⟩ := Option.map_eq_some_iff.mp hsome
  rw [hs, Option.map_some, Option.some.injEq] at hphase
  obtain ⟨hlength, htodo⟩ := Prod.mk.inj hval
  exact ⟨s, hs, hlength, disk_eq_of_run 2 newManifest _ s hs (by decide) (forall_returned htodo hphase)⟩

/-- The same operations; the older copy is saved last. -/
def touchSavedLast : List (Act 2) :=
  [.call 0 (.enqueueDayClose "/d/2026-01-02.tar" "rescan"), .locked 0 (answerAt 100),
    .locked 0 (answerAt 101), .call 1 (.touchProgress "sealing" "/d/2026-01-01.tar"), .locked 1 (answerAt 102),
    .save 1, .save 0]

/-- **An older copy is saved last.**  Both operations have returned, and the document lacks the progress
that the manifest has. -/
theorem disk_ne_touchSavedLast :
    ∃ s, Transition.exec step (State.loaded 2 newManifest) touchSavedLast = some s ∧
      (∀ w, s.returned w) ∧ s.ledger.disk ≠ s.ledger.memory := by
  have hsome : ((Transition.exec step (State.loaded 2 newManifest) touchSavedLast).map
      fun s => (s.todo 0, s.todo 1)) = some ([], []) := by decide
  have hphase : ((Transition.exec step (State.loaded 2 newManifest) touchSavedLast).map
      fun s => (s.ledger.phase 0, s.ledger.phase 1)) = some (.idle, .idle) := by decide
  have hne : ((Transition.exec step (State.loaded 2 newManifest) touchSavedLast).map
      fun s => decide (s.ledger.disk = s.ledger.memory)) = some false := by decide
  obtain ⟨s, hs, htodo⟩ := Option.map_eq_some_iff.mp hsome
  rw [hs, Option.map_some, Option.some.injEq] at hphase hne
  exact ⟨s, hs, forall_returned htodo hphase, of_decide_eq_false hne⟩

end DayCloseManifest
