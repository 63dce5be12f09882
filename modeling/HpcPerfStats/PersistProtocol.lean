/-
# Forced writes of the job store snapshot

Only the thread `job-store-persist` writes the snapshot of the job store.  It copies the shadow under
the store lock, writes the copy without the lock and then, when the write was forced, stores its error
and sets the event that the forcing callers wait for.  `persist(force=True)` clears the error and the
event, sets the force flag, waits for the event and then reads the error.

The model has one action for each part of the two threads' code that the locks make atomic; any number
of callers and any mutations of the store come in between in any order.  The store is the list of the
mutations completed so far, in order, so that a copy of the shadow is the list at that moment, and a
snapshot contains what is a beginning of it.  Whether the persist interval has passed, whether a write
fails and when a wait times out are arguments of the actions.

A caller that returns without an error should find all mutations that were complete when it was called
in the snapshot on disk (`Safe`).  Two things are in the way.  A request made after a forced flush has
taken its copy is answered by that flush, whose copy lacks what came later; and a request clears the
error of a failed flush that another caller was woken by but has not read yet.  `safe_of_run` says that
there is nothing else: when no request is made at such a moment (`RequestOk`), every run is safe.
-/
import HpcPerfStats.Transition
import Mathlib.Data.List.Infix
import Mathlib.Logic.Function.Basic

namespace PersistProtocol

/-! ## States and actions -/

/-- Where the writer thread stands; `force` is what it read of the flag, `gen` is `_persist_gen` at the
copy. -/
inductive Writer (μ : Type*) where
  | waiting
  | flushing (force : Bool)
  | copied (force : Bool) (snapshot : List μ) (gen : ℕ)
  | saved (force : Bool) (gen : ℕ)
  | finished (force : Bool) (writeErr : Option String)
  | exited
  deriving DecidableEq

/-- Where a caller of `persist(force=True)` stands; `start` is the store when it was called. -/
inductive Caller (μ : Type*) where
  | idle
  | called (start : List μ)
  | requested (start : List μ)
  | blocked (start : List μ)
  | released (start : List μ)
  | returned (start : List μ)
  | raised
  deriving DecidableEq

structure State (μ : Type*) where
  log : List μ
  disk : List μ
  dirty : Bool
  gen : ℕ
  force : Bool
  forceDone : Bool
  error : Option String
  stop : Bool
  writer : Writer μ
  caller : ℕ → Caller μ

/-- The store with its writer started. -/
def State.init (μ : Type*) : State μ where
  log := []
  disk := []
  dirty := false
  gen := 0
  force := false
  forceDone := true
  error := none
  stop := false
  writer := .waiting
  caller := fun _ => .idle

inductive Action (μ : Type*) where
  | mutate (m : μ) (marksDirty : Bool)
  | call (i : ℕ)
  | request (i : ℕ)
  | enterWait (i : ℕ)
  | timeout (i : ℕ)
  | readError (i : ℕ)
  | close
  | wake (elapsed : Bool)
  | copy (elapsed : Bool)
  | save (err : Option String)
  | mark
  | finish

variable {μ : Type*}

def State.setCaller (s : State μ) (i : ℕ) (c : Caller μ) : State μ :=
  { s with caller := Function.update s.caller i c }

/-- `_persist_force_done.set()` wakes every caller that waits. -/
def Caller.wake : Caller μ → Caller μ
  | .blocked start => .released start
  | c => c

/-- The thread is not in a call. -/
def Caller.free : Caller μ → Bool
  | .idle => true
  | .returned _ => true
  | .raised => true
  | _ => false

/-- The writer thread is not alive. -/
def Writer.isExited : Writer μ → Bool
  | .exited => true
  | _ => false

/-- The head of the writer's loop: when it goes on to a flush. -/
def wakeWriter (s : State μ) (elapsed : Bool) : Writer μ :=
  if s.stop && !s.force then
    if !s.dirty then .exited else .flushing s.force
  else if s.force then .flushing s.force
  else if s.dirty && elapsed then .flushing s.force
  else .waiting

/-- The tail of the writer's loop, behind a flush. -/
def nextWriter (s : State μ) : Writer μ :=
  if s.stop && !s.dirty && !s.force then .exited else .waiting

/-- One action; `none` when its thread is not there. -/
def step (s : State μ) : Action μ → Option (State μ)
  | .mutate m marksDirty =>
      some { s with
        log := s.log ++ [m]
        dirty := s.dirty || marksDirty
        gen := if marksDirty then s.gen + 1 else s.gen }
  | .call i =>
      if (s.caller i).free then
        some (s.setCaller i (if s.writer.isExited then .raised else .called s.log))
      else none
  | .request i =>
      match s.caller i with
      | .called start =>
          some { s.setCaller i (.requested start) with
            error := none
            force := true
            forceDone := false }
      | _ => none
  | .enterWait i =>
      match s.caller i with
      | .requested start =>
          some (s.setCaller i (if s.forceDone then .released start else .blocked start))
      | _ => none
  | .timeout i =>
      match s.caller i with
      | .blocked _ => some (s.setCaller i .raised)
      | _ => none
  | .readError i =>
      match s.caller i with
      | .released start =>
          some (s.setCaller i (if s.error.isNone then .returned start else .raised))
      | _ => none
  | .close => some { s with stop := true }
  | .wake elapsed =>
      match s.writer with
      | .waiting => some { s with writer := wakeWriter s elapsed }
      | _ => none
  | .copy elapsed =>
      match s.writer with
      | .flushing force =>
          if !s.dirty && !force then some { s with writer := .finished force none }
          else if !force && !elapsed then some { s with writer := .finished force none }
          else some { s with writer := .copied force s.log s.gen }
      | _ => none
  | .save err =>
      match s.writer with
      | .copied force snapshot gen =>
          match err with
          | none => some { s with disk := snapshot, writer := .saved force gen }
          | some e => some { s with dirty := true, writer := .finished force (some e) }
      | _ => none
  | .mark =>
      match s.writer with
      | .saved force gen =>
          some { s with
            dirty := if s.gen = gen then false else s.dirty
            writer := .finished force none }
      | _ => none
  | .finish =>
      match s.writer with
      | .finished force writeErr =>
          let s := if force then { s with
              error := writeErr
              force := false
              forceDone := true
              caller := fun i => (s.caller i).wake }
            else s
          some { s with writer := nextWriter s }
      | _ => none

/-! ## What should hold and when -/

/-- Every caller that returned without an error finds what was there when it was called on disk. -/
def Safe (s : State μ) : Prop := ∀ i start, s.caller i = .returned start → start <+: s.disk

/-- The forced flush under way, if it has taken its copy, has what a caller needs. -/
def Covers (s : State μ) (start : List μ) : Prop :=
  match s.writer with
  | .copied true snapshot _ => start <+: snapshot
  | .saved true _ => start <+: s.disk
  | .finished true none => start <+: s.disk
  | _ => True

/-- **When a request may be made**: a forced flush under way has not taken its copy before a mutation
that was complete when the caller was called, and no caller that was woken by a failed flush still has
to read the error, unless what it needs is on disk anyway. -/
def RequestOk (s : State μ) : Action μ → Prop
  | .request i => ∀ start, s.caller i = .called start →
      Covers s start ∧
        (s.error ≠ none → ∀ j start', s.caller j = .released start' → start' <+: s.disk)
  | _ => True

/-! ## The invariant -/

/-- What the invariant asks of one caller. -/
def CallerInv (s : State μ) : Caller μ → Prop
  | .idle => True
  | .called start => start <+: s.log
  | .requested start =>
      start <+: s.log ∧ Covers s start ∧ (s.forceDone = true → start <+: s.disk ∨ s.error ≠ none)
  | .blocked start => start <+: s.log ∧ Covers s start
  | .released start => start <+: s.log ∧ (start <+: s.disk ∨ (s.error ≠ none ∧ Covers s start))
  | .returned start => start <+: s.disk
  | .raised => True

/-- What is on disk or being written, and what the callers wait for. -/
structure Inv (s : State μ) : Prop where
  disk_log : s.disk <+: s.log
  copied_log : ∀ force snapshot gen, s.writer = .copied force snapshot gen →
    s.disk <+: snapshot ∧ snapshot <+: s.log
  callers : ∀ i, CallerInv s (s.caller i)

theorem inv_init : Inv (State.init μ) := by
  refine ⟨List.prefix_refl _, ?_, fun _ => trivial⟩
  intro force snapshot gen h
  exact absurd h (by simp [State.init])

theorem Inv.safe {s : State μ} (h : Inv s) : Safe s := by
  intro i start hi
  have hcaller := h.callers i
  rw [hi] at hcaller
  exact hcaller

/-- A step of one caller. -/
theorem Inv.setCaller {s : State μ} (h : Inv s) (i : ℕ) {c : Caller μ} (hc : CallerInv s c) :
    Inv (s.setCaller i c) := by
  refine ⟨h.disk_log, h.copied_log, ?_⟩
  intro j
  show CallerInv s (Function.update s.caller i c j)
  by_cases hj : j = i
  · rw [hj, Function.update_self]
    exact hc
  · rw [Function.update_of_ne hj]
    exact h.callers j

/-- A step of the writer or of the store that leaves the event and the error: it is enough that the
disk and the store only grow and that the copy under way still has what a caller needs. -/
theorem CallerInv.mono {s t : State μ} {c : Caller μ} (h : CallerInv s c)
    (hlog : s.log <+: t.log) (hdisk : s.disk <+: t.disk) (hdone : t.forceDone = s.forceDone)
    (herror : t.error = s.error)
    (hcovers : ∀ start, start <+: s.log → Covers s start → Covers t start) : CallerInv t c := by
  cases c with
  | idle => trivial
  | called start => exact List.IsPrefix.trans h hlog
  | requested start =>
      obtain ⟨hs, hcov, hready⟩ := h
      refine ⟨hs.trans hlog, hcovers start hs hcov, ?_⟩
      rw [hdone, herror]
      intro hd
      exact (hready hd).imp_left fun hp => hp.trans hdisk
  | blocked start =>
      obtain ⟨hs, hcov⟩ := h
      exact ⟨hs.trans hlog, hcovers start hs hcov⟩
  | released start =>
      obtain ⟨hs, hp⟩ := h
      refine ⟨hs.trans hlog, ?_⟩
      rw [herror]
      exact hp.imp (fun hp => hp.trans hdisk) fun hp => ⟨hp.1, hcovers start hs hp.2⟩
  | returned start => exact List.IsPrefix.trans h hdisk
  | raised => trivial

/-! ## The actions -/

theorem Inv.mutate {s : State μ} (h : Inv s) (m : μ) (dirty : Bool) (gen : ℕ) :
    Inv { s with log := s.log ++ [m], dirty := dirty, gen := gen } := by
  have hgrow : s.log <+: s.log ++ [m] := List.prefix_append _ _
  refine ⟨h.disk_log.trans hgrow, ?_, ?_⟩
  · intro force snapshot gen' hw
    obtain ⟨hdisk, hsnap⟩ := h.copied_log force snapshot gen' hw
    exact ⟨hdisk, hsnap.trans hgrow⟩
  · intro i
    exact (h.callers i).mono hgrow (List.prefix_refl _) rfl rfl fun _ _ hcov => hcov

/-- A request clears the error and the event. -/
theorem Inv.request {s : State μ} (h : Inv s) {i : ℕ} {start : List μ}
    (hi : s.caller i = .called start) (hok : RequestOk s (.request i)) :
    Inv { s.setCaller i (.requested start) with error := none, force := true, forceDone := false } := by
  obtain ⟨hcov, hread⟩ := hok start hi
  refine ⟨h.disk_log, h.copied_log, ?_⟩
  intro j
  show CallerInv _ (Function.update s.caller i (.requested start) j)
  by_cases hj : j = i
  · rw [hj, Function.update_self]
    have hlog := h.callers i
    rw [hi] at hlog
    exact ⟨hlog, hcov, fun hd => absurd hd (by simp)⟩
  · rw [Function.update_of_ne hj]
    have hcaller := h.callers j
    rcases hc : s.caller j with _ | start' | start' | start' | start' | start' | _
    · trivial
    · rw [hc] at hcaller
      exact hcaller
    · rw [hc] at hcaller
      exact ⟨hcaller.1, hcaller.2.1, fun hd => absurd hd (by simp)⟩
    · rw [hc] at hcaller
      exact hcaller
    · -- a caller that was woken and has not read the error yet
      rw [hc] at hcaller
      refine ⟨hcaller.1, Or.inl ?_⟩
      rcases hcaller.2 with hp | ⟨herr, -⟩
      · exact hp
      · exact hread herr j start' hc
    · rw [hc] at hcaller
      exact hcaller
    · trivial

/-- The writer goes to a place where it has no copy. -/
theorem Inv.setWriter {s : State μ} (h : Inv s) {w : Writer μ} (dirty : Bool)
    (hcopy : ∀ force snapshot gen, w ≠ .copied force snapshot gen)
    (hcov : ∀ start, Covers { s with dirty := dirty, writer := w } start) :
    Inv { s with dirty := dirty, writer := w } := by
  refine ⟨h.disk_log, ?_, ?_⟩
  · intro force snapshot gen hw
    exact absurd hw (hcopy force snapshot gen)
  · intro i
    exact (h.callers i).mono (List.prefix_refl _) (List.prefix_refl _) rfl rfl
      fun start _ _ => hcov start

/-- The copy is taken: it has everything that any caller needs. -/
theorem Inv.copy {s : State μ} (h : Inv s) (force : Bool) (gen : ℕ) :
    Inv { s with writer := .copied force s.log gen } := by
  refine ⟨h.disk_log, ?_, ?_⟩
  · intro force' snapshot gen' hw
    obtain ⟨-, rfl, -⟩ := Writer.copied.inj hw
    exact ⟨h.disk_log, List.prefix_refl _⟩
  · intro i
    refine (h.callers i).mono (List.prefix_refl _) (List.prefix_refl _) rfl rfl ?_
    intro start hlog _
    cases force with
    | false => trivial
    | true => exact hlog

/-- The copy is on disk. -/
theorem Inv.save {s : State μ} (h : Inv s) {force : Bool} {snapshot : List μ} {gen : ℕ}
    (hw : s.writer = .copied force snapshot gen) :
    Inv { s with disk := snapshot, writer := .saved force gen } := by
  obtain ⟨hdisk, hlog⟩ := h.copied_log force snapshot gen hw
  refine ⟨hlog, ?_, ?_⟩
  · intro force' snapshot' gen' hw'
    exact absurd hw' (by simp)
  · intro i
    refine (h.callers i).mono (List.prefix_refl _) hdisk rfl rfl ?_
    intro start _ hcov
    cases force with
    | false => trivial
    | true =>
        unfold Covers at hcov
        rw [hw] at hcov
        exact hcov

theorem Inv.mark {s : State μ} (h : Inv s) {force : Bool} {gen : ℕ} (dirty : Bool)
    (hw : s.writer = .saved force gen) :
    Inv { s with dirty := dirty, writer := .finished force none } := by
  refine ⟨h.disk_log, ?_, ?_⟩
  · intro force' snapshot' gen' hw'
    exact absurd hw' (by simp)
  · intro i
    refine (h.callers i).mono (List.prefix_refl _) (List.prefix_refl _) rfl rfl ?_
    intro start _ hcov
    cases force with
    | false => trivial
    | true =>
        unfold Covers at hcov
        rw [hw] at hcov
        exact hcov

/-- The forced flush tells the callers that it is done. -/
theorem Inv.finish {s : State μ} (h : Inv s) {writeErr : Option String}
    (hw : s.writer = .finished true writeErr) {w : Writer μ}
    (hcopy : ∀ force snapshot gen, w ≠ .copied force snapshot gen)
    (hcov : ∀ t : State μ, t.writer = w → ∀ start, Covers t start) :
    Inv { s with
      error := writeErr
      force := false
      forceDone := true
      caller := fun i => (s.caller i).wake
      writer := w } := by
  -- a flush without an error has what its callers need on disk
  have hdone : ∀ start, Covers s start → start <+: s.disk ∨ writeErr ≠ none := by
    intro start hc
    unfold Covers at hc
    rw [hw] at hc
    cases writeErr with
    | none => exact Or.inl hc
    | some e => exact Or.inr (by simp)
  refine ⟨h.disk_log, ?_, ?_⟩
  · intro force snapshot gen hw'
    exact absurd hw' (hcopy force snapshot gen)
  · intro i
    have hcaller := h.callers i
    show CallerInv _ (s.caller i).wake
    rcases hc : s.caller i with _ | start | start | start | start | start | _
    · trivial
    · rw [hc] at hcaller
      exact hcaller
    · rw [hc] at hcaller
      exact ⟨hcaller.1, hcov _ rfl start, fun _ => hdone start hcaller.2.1⟩
    · rw [hc] at hcaller
      refine ⟨hcaller.1, ?_⟩
      exact (hdone start hcaller.2).imp_right fun he => ⟨he, hcov _ rfl start⟩
    · rw [hc] at hcaller
      refine ⟨hcaller.1, ?_⟩
      rcases hcaller.2 with hp | ⟨-, hcovers⟩
      · exact Or.inl hp
      · exact (hdone start hcovers).imp_right fun he => ⟨he, hcov _ rfl start⟩
    · rw [hc] at hcaller
      exact hcaller
    · trivial

/-! ## Runs -/

/-- Where the writer goes from the head and the tail of its loop, it has no copy. -/
theorem wakeWriter_cases (s : State μ) (elapsed : Bool) :
    wakeWriter s elapsed = .exited ∨ wakeWriter s elapsed = .flushing s.force ∨
      wakeWriter s elapsed = .waiting := by
  unfold wakeWriter
  split_ifs
  · exact Or.inl rfl
  · exact Or.inr (Or.inl rfl)
  · exact Or.inr (Or.inl rfl)
  · exact Or.inr (Or.inl rfl)
  · exact Or.inr (Or.inr rfl)

theorem nextWriter_cases (s : State μ) : nextWriter s = .exited ∨ nextWriter s = .waiting := by
  unfold nextWriter
  split_ifs
  · exact Or.inl rfl
  · exact Or.inr rfl

theorem not_copied_of_next {w : Writer μ} (h : w = .exited ∨ w = .waiting) (force : Bool)
    (snapshot : List μ) (gen : ℕ) : w ≠ .copied force snapshot gen := by
  rcases h with rfl | rfl
  · simp
  · simp

theorem covers_of_next {w : Writer μ} (h : w = .exited ∨ w = .waiting) (t : State μ)
    (ht : t.writer = w) (start : List μ) : Covers t start := by
  unfold Covers
  rcases h with rfl | rfl
  · rw [ht]
    trivial
  · rw [ht]
    trivial

/-- **One action** that is a request at the right moment or any other. -/
theorem inv_step {s s' : State μ} {a : Action μ} (h : Inv s) (hok : RequestOk s a)
    (hstep : step s a = some s') : Inv s' := by
  cases a with
  | mutate m marksDirty =>
      obtain rfl := Option.some.inj hstep
      exact h.mutate m _ _
  | call i =>
      simp only [step] at hstep
      split_ifs at hstep with hfree hexit
      · obtain rfl := Option.some.inj hstep
        -- a caller that finds the writer gone returns at once
        exact h.setCaller i trivial
      · obtain rfl := Option.some.inj hstep
        exact h.setCaller i (List.prefix_refl _)
  | request i =>
      simp only [step] at hstep
      split at hstep
      · next start hc =>
          obtain rfl := Option.some.inj hstep
          exact h.request hc hok
      · exact absurd hstep (by simp)
  | enterWait i =>
      have hcaller := h.callers i
      simp only [step] at hstep
      split at hstep
      · next start hc =>
          obtain rfl := Option.some.inj hstep
          rw [hc] at hcaller
          obtain ⟨hlog, hcov, hready⟩ := hcaller
          apply h.setCaller
          -- a forced write that is done already has covered the changes of this caller
          by_cases hd : s.forceDone = true
          · rw [if_pos hd]
            exact ⟨hlog, (hready hd).imp_right fun he => ⟨he, hcov⟩⟩
          · rw [if_neg hd]
            exact ⟨hlog, hcov⟩
      · exact absurd hstep (by simp)
  | timeout i =>
      simp only [step] at hstep
      split at hstep
      · obtain rfl := Option.some.inj hstep
        exact h.setCaller i trivial
      · exact absurd hstep (by simp)
  | readError i =>
      have hcaller := h.callers i
      simp only [step] at hstep
      split at hstep
      · next start hc =>
          obtain rfl := Option.some.inj hstep
          rw [hc] at hcaller
          apply h.setCaller
          -- the caller reads the error that the writer left, and else was covered
          by_cases herr : s.error.isNone = true
          · rw [if_pos herr]
            rcases hcaller.2 with hp | ⟨hne, -⟩
            · exact hp
            · exact absurd (Option.isNone_iff_eq_none.mp herr) hne
          · rw [if_neg herr]
            trivial
      · exact absurd hstep (by simp)
  | close =>
      obtain rfl := Option.some.inj hstep
      exact ⟨h.disk_log, h.copied_log, h.callers⟩
  | wake elapsed =>
      simp only [step] at hstep
      split at hstep
      · obtain rfl := Option.some.inj hstep
        rcases wakeWriter_cases s elapsed with hnext | hnext | hnext
        -- three ways on, none of them with a copy
        all_goals
          rw [hnext]
          exact h.setWriter s.dirty (by simp) (fun _ => trivial)
      · exact absurd hstep (by simp)
  | copy elapsed =>
      simp only [step] at hstep
      split at hstep
      · next force hw =>
          split_ifs at hstep with hclean hearly
          · obtain rfl := Option.some.inj hstep
            -- a clean state or an early wake is passed over without a force only
            obtain rfl : force = false := by simp at hclean; exact hclean.2
            exact h.setWriter s.dirty (by simp) (fun _ => trivial)
          · obtain rfl := Option.some.inj hstep
            obtain rfl : force = false := by simp at hearly; exact hearly.1
            exact h.setWriter s.dirty (by simp) (fun _ => trivial)
          · obtain rfl := Option.some.inj hstep
            exact h.copy force s.gen
      · exact absurd hstep (by simp)
  | save err =>
      simp only [step] at hstep
      split at hstep
      · next force snapshot gen hw =>
          cases err with
          | none =>
              obtain rfl := Option.some.inj hstep
              exact h.save hw
          | some e =>
              obtain rfl := Option.some.inj hstep
              apply h.setWriter true (by simp)
              -- a save that fails makes the state dirty again, and its force is answered with the error
              intro start
              cases force with
              | false => trivial
              | true => trivial
      · exact absurd hstep (by simp)
  | mark =>
      simp only [step] at hstep
      split at hstep
      · next force gen hw =>
          obtain rfl := Option.some.inj hstep
          exact h.mark _ hw
      · exact absurd hstep (by simp)
  | finish =>
      simp only [step] at hstep
      split at hstep
      · next force err hw =>
          obtain rfl := Option.some.inj hstep
          cases force with
          -- without a force nobody waits for this write
          | false =>
              exact h.setWriter s.dirty (not_copied_of_next (nextWriter_cases _))
                (covers_of_next (nextWriter_cases _) _ rfl)
          | true =>
              exact h.finish hw (not_copied_of_next (nextWriter_cases _))
                (covers_of_next (nextWriter_cases _))
      · exact absurd hstep (by simp)

/-- **Forced writes.**  In every run whose requests are made at the right moment, every caller that
returned without an error has all that was complete when it was called in the snapshot on disk. -/
theorem safe_of_run (actions : List (Action μ)) (s : State μ)
    (hok : Transition.Respects step RequestOk (State.init μ) actions)
    (hrun : Transition.exec step (State.init μ) actions = some s) : Safe s :=
  (Transition.exec_invariant (fun _ _ _ h hok hstep => inv_step h hok hstep) actions _ s inv_init hok
    hrun).safe

/-- A mutation is made, and a caller forces the write. -/
def forcedOnce : List (Action ℕ) :=
  [.mutate 1 true, .call 0, .request 0, .enterWait 0, .wake false, .copy false, .save none, .mark,
   .finish, .readError 0]

theorem safe_of_run_forcedOnce :
    ∃ s, Transition.exec step (State.init ℕ) forcedOnce = some s ∧ s.caller 0 = .returned [1] ∧
      Safe s := by
  refine ⟨_, rfl, rfl, safe_of_run forcedOnce _ ?_ rfl⟩
  refine .cons rfl trivial (.cons rfl trivial (.cons rfl ?_ (.cons rfl trivial (.cons rfl trivial
    (.cons rfl trivial (.cons rfl trivial (.cons rfl trivial (.cons rfl trivial
    (.cons rfl trivial trivial)))))))))
  intro start _
  exact ⟨trivial, fun herr => absurd rfl herr⟩

/-- The second caller comes when the copy for the first has been taken. -/
def lateRequest : List (Action ℕ) :=
  [.mutate 1 true, .call 0, .request 0, .enterWait 0, .wake false, .copy false, .mutate 2 true,
   .call 1, .request 1, .save none, .mark, .finish, .enterWait 1, .readError 1]

/-- It returns without an error while its mutation is not on disk. -/
theorem not_safe_lateRequest :
    ∃ s, Transition.exec step (State.init ℕ) lateRequest = some s ∧ ¬ Safe s := by
  refine ⟨_, rfl, ?_⟩
  intro hsafe
  have hprefix : [1, 2] <+: [1] := hsafe 1 [1, 2] rfl
  exact absurd hprefix (by decide)

/-- The write for the first caller fails, and the second caller clears the error before the first has
read it. -/
def clearedError : List (Action ℕ) :=
  [.mutate 1 true, .call 0, .request 0, .enterWait 0, .wake false, .copy false,
   .save (some "No space left on device"), .finish, .call 1, .request 1, .readError 0]

/-- The first caller returns without an error, and nothing is on disk. -/
theorem not_safe_clearedError :
    ∃ s, Transition.exec step (State.init ℕ) clearedError = some s ∧ ¬ Safe s := by
  refine ⟨_, rfl, ?_⟩
  intro hsafe
  have hprefix : [1] <+: [] := hsafe 0 [1] rfl
  exact absurd hprefix (by decide)

end PersistProtocol
