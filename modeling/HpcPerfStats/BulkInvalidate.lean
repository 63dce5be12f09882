/-
# Invalidating selected days (`invalidate_archive_members_bulk`)

For every selected day the function calls `invalidate` with the identity `""`, `clear_day_skip` and
`clear_degraded`.  The identity of an archive is never `""`: it starts with the day.  Without days it calls
`invalidate_all`.

* `bulkInvalidate` has the steps of the calling thread, in the step system of the members store; no
  other thread steps in between
* `exec_call` says what one call leaves in memory and in the sidecar, `exec_bulkDays` what the loop leaves
* `invalidated_iff`: the states in which no identity of the days stays complete
-/
import HpcPerfStats.SidecarStore

namespace BulkInvalidate

open ArchiveMembers MembersStore SidecarStore Transition

variable {T : Type*} [DecidableEq T]

/-- The store, its days and identities as texts. -/
abbrev Members (T : Type*) := Store String String T

/-! ## The calls -/

/-- The steps of one method that persists. -/
def call (t : T) (day : String) (op : Op String) : List (Action String String T) :=
  [.fetch t day op, .locked t, .persistFetch t, .persistSnapshot t, .save t]

/-- The three methods for one day. -/
def bulkDay (t : T) (day : String) : List (Action String String T) :=
  call t day (.invalidate "") ++ call t day .clearDaySkip ++ call t day .clearDegraded

/-- `invalidate_all`, from a store with this table and these sidecars. -/
def invalidateAll (t : T) (s : Members T) : List (Action String String T) :=
  [Action.clearTable t] ++ s.table.map (fun _ => Action.clearShard t) ++ [Action.list t] ++
    s.disk.map fun e => Action.unlink t e.1

/-- The report of `invalidate_archive_members_bulk`. -/
structure BulkReport where
  days : ℕ
  dryRun : Bool
  deriving DecidableEq

/-- `invalidate_archive_members_bulk`: its steps and its report. -/
def bulkInvalidate (t : T) (dayTokens : List String) (dryRun : Bool) (s : Members T) :
    List (Action String String T) × BulkReport :=
  if dryRun = true then ([], ⟨0, true⟩)
  else if dayTokens ≠ [] then (dayTokens.flatMap (bulkDay t), ⟨dayTokens.length, false⟩)
  else (invalidateAll t s, ⟨1, false⟩)

/-! ## What the calls leave -/

@[simp] theorem pc_goto (s : Members T) (t : T) (pc : Pc String String) : (s.goto t pc).pc t = pc :=
  Function.update_self ..

/-- **One call**: the shard of the day is changed and written, every other day stays. -/
theorem exec_call {s : Members T} {t : T} (hidle : s.pc t = .idle) (day : String) (op : Op String)
    (hop : op.persists = true) :
    ∃ s', exec step s (call t day op) = some s' ∧ s'.pc t = .idle ∧
      s'.shard day = op.apply t (s.shard day) ∧
      s'.disk = PyDict.set s.disk day (op.apply t (s.shard day)).snapshot ∧
      ∀ d, d ≠ day → s'.shard d = s.shard d := by
  let s₁ := (s.enter day).goto t (.fetched day s.gen op)
  let s₂ := { s₁.setShard day s.gen (op.apply t (s.shard day)) with
    version := Function.update s.version day (s.version day + 1) }.goto t (.changed day)
  let s₃ := (s₂.enter day).goto t (.persisting day s.gen)
  let s₄ := s₃.goto t (.saving day (op.apply t (s.shard day)).snapshot (s₃.versionOf day s.gen))
  let s₅ := { s₄ with
    disk := PyDict.set s.disk day (op.apply t (s.shard day)).snapshot
    saved := Function.update s₄.saved day (s₃.versionOf day s.gen) }.goto t .idle
  have hfetch : step s (.fetch t day op) = some s₁ := by simp only [step, hidle, s₁]
  have hlocked : step s₁ (.locked t) = some s₂ := by
    simp only [step, s₁, pc_goto, hop, if_true]
    rfl
  have hpersist : step s₂ (.persistFetch t) = some s₃ := by
    simp only [step, s₂, pc_goto]
    rfl
  have hshard : s₃.shards day s.gen = op.apply t (s.shard day) := by
    show Function.update s.shards day (Function.update (s.shards day) s.gen (op.apply t (s.shard day))) day s.gen = _
    rw [Function.update_self, Function.update_self]
  have hsnapshot : step s₃ (.persistSnapshot t) = some s₄ := by
    simp only [step, s₃, pc_goto]
    rw [show (Store.shards _ day s.gen) = _ from hshard]
  have hsave : step s₄ (.save t) = some s₅ := by
    simp only [step, s₄, pc_goto]
    rfl
  refine ⟨s₅, ?_, pc_goto _ t .idle, hshard, rfl, ?_⟩
  · rw [call, exec_cons, hfetch, Option.bind_some, exec_cons, hlocked, Option.bind_some, exec_cons, hpersist,
      Option.bind_some, exec_cons, hsnapshot, Option.bind_some, exec_cons, hsave, Option.bind_some, exec_nil]
  · intro d hd
    show Function.update s.shards day _ d s.gen = _
    rw [Function.update_of_ne hd]
    rfl

/-- What the three calls make of the shard of a day. -/
def clearedDay (shard : Shard String T) : Shard String T :=
  ((shard.invalidate "").clearDaySkip).clearDegraded

omit [DecidableEq T] in
theorem clearedDay_clearedDay (shard : Shard String T) : clearedDay (clearedDay shard) = clearedDay shard := by
  unfold clearedDay Shard.invalidate Shard.clearDaySkip Shard.clearDegraded
  simp only [Function.update_idem]

theorem exec_bulkDay {s : Members T} {t : T} (hidle : s.pc t = .idle) (day : String) :
    ∃ s', exec step s (bulkDay t day) = some s' ∧ s'.pc t = .idle ∧
      s'.shard day = clearedDay (s.shard day) ∧
      s'.disk.lookup day = some (clearedDay (s.shard day)).snapshot ∧
      ∀ d, d ≠ day → s'.shard d = s.shard d ∧ s'.disk.lookup d = s.disk.lookup d := by
  obtain ⟨s₁, hrun₁, hidle₁, hday₁, hdisk₁, hrest₁⟩ := exec_call hidle day (.invalidate "") rfl
  obtain ⟨s₂, hrun₂, hidle₂, hday₂, hdisk₂, hrest₂⟩ := exec_call hidle₁ day .clearDaySkip rfl
  obtain ⟨s₃, hrun₃, hidle₃, hday₃, hdisk₃, hrest₃⟩ := exec_call hidle₂ day .clearDegraded rfl
  have hday : s₃.shard day = clearedDay (s.shard day) := by
    rw [hday₃, hday₂, hday₁]
    rfl
  refine ⟨s₃, ?_, hidle₃, hday, ?_, fun d hd => ⟨?_, ?_⟩⟩
  · rw [bulkDay, exec_append, exec_append, hrun₁, Option.bind_some, hrun₂, Option.bind_some, hrun₃]
  · rw [hdisk₃, PyDict.lookup_set_self, ← hday₃, hday]
  · rw [hrest₃ d hd, hrest₂ d hd, hrest₁ d hd]
  · rw [hdisk₃, PyDict.lookup_set_of_ne _ _ hd, hdisk₂, PyDict.lookup_set_of_ne _ _ hd, hdisk₁,
      PyDict.lookup_set_of_ne _ _ hd]

/-- **The loop**: every selected day is cleared and written, no other day is touched. -/
theorem exec_bulkDays (t : T) (days : List String) : ∀ {s : Members T}, s.pc t = .idle →
    ∃ s', exec step s (days.flatMap (bulkDay t)) = some s' ∧ s'.pc t = .idle ∧
      (∀ d ∈ days, s'.shard d = clearedDay (s.shard d) ∧
        s'.disk.lookup d = some (clearedDay (s.shard d)).snapshot) ∧
      ∀ d, d ∉ days → s'.shard d = s.shard d ∧ s'.disk.lookup d = s.disk.lookup d := by
  induction days with
  | nil =>
      intro s hidle
      exact ⟨s, rfl, hidle, fun d hd => (by cases hd), fun d _ => ⟨rfl, rfl⟩⟩
  | cons day days ih =>
      intro s hidle
      obtain ⟨s₁, hrun₁, hidle₁, hday₁, hdisk₁, hrest₁⟩ := exec_bulkDay hidle day
      obtain ⟨s₂, hrun₂, hidle₂, hdays₂, hrest₂⟩ := ih hidle₁
      refine ⟨s₂, ?_, hidle₂, fun d hd => ?_, fun d hd => ?_⟩
      · rw [List.flatMap_cons, exec_append, hrun₁, Option.bind_some, hrun₂]
      · by_cases hlater : d ∈ days
        · obtain ⟨hshard, hdisk⟩ := hdays₂ d hlater
          by_cases heq : d = day
          · -- a day that is selected twice is cleared twice
            subst heq
            rw [hshard, hdisk, hday₁, clearedDay_clearedDay]
            exact ⟨rfl, rfl⟩
          · rw [hshard, hdisk, (hrest₁ d heq).1]
            exact ⟨rfl, rfl⟩
        · have heq : d = day := (List.mem_cons.mp hd).resolve_right hlater
          subst heq
          obtain ⟨hshard, hdisk⟩ := hrest₂ d hlater
          rw [hshard, hdisk, hday₁, hdisk₁]
          exact ⟨rfl, rfl⟩
      · rw [List.mem_cons, not_or] at hd
        obtain ⟨hshard₁, hdisk₁'⟩ := hrest₁ d hd.1
        obtain ⟨hshard₂, hdisk₂⟩ := hrest₂ d hd.2
        exact ⟨hshard₂.trans hshard₁, hdisk₂.trans hdisk₁'⟩

/-! ## The selected days -/

/-- **What invalidating days is to leave**: nothing complete and no flag on these days, in memory and for a
fresh store that reads the sidecars, and every other day as it was. -/
structure Invalidated (s s' : Members T) (days : List String) : Prop where
  memory : ∀ d ∈ days, ∀ ident, (s'.shard d).complete ident = false
  reloaded : ∀ d ∈ days, ∀ ident, (s'.reload d).complete ident = false
  skip : ∀ d ∈ days, (s'.shard d).daySkip = none ∧ (s'.reload d).daySkip = none
  degraded : ∀ d ∈ days, (s'.shard d).degraded = false ∧ (s'.reload d).degraded = false
  others : ∀ d, d ∉ days → s'.shard d = s.shard d ∧ s'.reload d = s.reload d

/-- Of the selected days nothing is complete but, at most, the identity that the calls name. -/
def NothingComplete (s : Members T) (days : List String) : Prop :=
  ∀ d ∈ days, ∀ ident, ident ≠ "" → (s.shard d).complete ident = false

omit [DecidableEq T] in
theorem complete_clearedDay (shard : Shard String T) (ident : String) :
    (clearedDay shard).complete ident = if ident = "" then false else shard.complete ident := by
  show Function.update shard.complete "" false ident = _
  rw [Function.update_apply]

/-- **Selected days are invalidated exactly when nothing of them was complete before.** -/
theorem invalidated_iff {s : Members T} {t : T} (hidle : s.pc t = .idle) {days : List String} (hdays : days ≠ []) :
    ∃ s', exec step s (bulkInvalidate t days false s).1 = some s' ∧ s'.pc t = .idle ∧
      (Invalidated s s' days ↔ NothingComplete s days) := by
  obtain ⟨s', hrun, hidle', hin, hout⟩ := exec_bulkDays t days hidle
  have hsteps : (bulkInvalidate t days false s).1 = days.flatMap (bulkDay t) := by
    rw [bulkInvalidate, if_neg Bool.false_ne_true, if_pos hdays]
  refine ⟨s', by rw [hsteps, hrun], hidle', ?_⟩
  have hreload : ∀ d ∈ days, s'.reload d = Shard.load (clearedDay (s.shard d)).snapshot := by
    intro d hd
    unfold Store.reload
    rw [(hin d hd).2, Option.getD_some]
  constructor
  · intro h d hd ident hident
    have hcomplete := h.memory d hd ident
    rwa [(hin d hd).1, complete_clearedDay, if_neg hident] at hcomplete
  · intro h
    have hcomplete : ∀ d ∈ days, ∀ ident, (clearedDay (s.shard d)).complete ident = false := by
      intro d hd ident
      rw [complete_clearedDay]
      split_ifs with hident
      · rfl
      · exact h d hd ident hident
    refine ⟨fun d hd ident => ?_, fun d hd ident => ?_, fun d hd => ⟨?_, ?_⟩, fun d hd => ⟨?_, ?_⟩,
      fun d hd => ⟨(hout d hd).1, ?_⟩⟩
    · rw [(hin d hd).1]
      exact hcomplete d hd ident
    · -- the sidecar has the maps that are marked complete, and none is
      rw [hreload d hd]
      show (Option.isSome (if _ then _ else _)) = false
      rw [if_neg (by rw [hcomplete d hd ident]; exact Bool.false_ne_true)]
      rfl
    · rw [(hin d hd).1]
      rfl
    · rw [hreload d hd]
      rfl
    · rw [(hin d hd).1]
      rfl
    · rw [hreload d hd]
      rfl
    · unfold Store.reload
      rw [(hout d hd).2]

/-- A store that has read the sidecar of one day with one archive. -/
def oneArchive : Members ℕ :=
  Store.opened [("2026-01-01", ⟨fun ident => if ident = "2026-01-01:1:2:3:4" then some [("a", 5)] else none,
    none, false, false⟩)]

theorem invalidated_iff_oneArchive : ∃ s', exec step oneArchive (bulkInvalidate 0 ["2026-01-02"] false oneArchive).1 =
    some s' ∧ s'.pc 0 = .idle ∧
      (Invalidated oneArchive s' ["2026-01-02"] ↔ NothingComplete oneArchive ["2026-01-02"]) :=
  invalidated_iff rfl (List.cons_ne_nil _ _)

/-- The archive of a selected day stays complete. -/
theorem not_invalidated : ¬ ∀ (s : Members ℕ) (days : List String), s.pc 0 = .idle → days ≠ [] →
    ∃ s', exec step s (bulkInvalidate 0 days false s).1 = some s' ∧ Invalidated s s' days := by
  intro h
  obtain ⟨s', hrun, hinvalidated⟩ := h oneArchive ["2026-01-01"] rfl (List.cons_ne_nil _ _)
  obtain ⟨s₁, hrun₁, -, hin, -⟩ := exec_bulkDays 0 ["2026-01-01"] (s := oneArchive) rfl
  have hsame : s₁ = s' := by
    have hsteps : (bulkInvalidate 0 ["2026-01-01"] false oneArchive).1 = ["2026-01-01"].flatMap (bulkDay 0) := rfl
    rw [hsteps, hrun₁] at hrun
    exact Option.some.inj hrun
  have hcomplete := hinvalidated.memory "2026-01-01" List.mem_cons_self "2026-01-01:1:2:3:4"
  rw [← hsame, (hin "2026-01-01" List.mem_cons_self).1, complete_clearedDay] at hcomplete
  revert hcomplete
  decide

end BulkInvalidate
