/-
# The coordinators of the orchestrator together

The ingest, the append and the day-close coordinator are threads of one process over one job store.  The system has
the store and the local maps of each, and takes their steps in any order; what the other threads do with the store
(discover, reconstruct, the writer of the snapshot) is a step from outside, which takes no claims and settles none.

A coordinator sees of a run of the system a run of its own (`seenByCoordinators_of_run`), because its steps are what
the others accept from outside.  So in every state of every run:

* `heldByCoordinators_of_run`: each job in flight is in the hands of the coordinator of its kind;
* `tidyStore_of_run`: the parts of the store agree, and no LIST queue has an identity twice or one in flight;
* `settledByCoordinator_of_run`: a job leaves the store at a step of its coordinator that may acknowledge it.
-/
import HpcPerfStats.IngestSafety
import HpcPerfStats.AppendSafety
import HpcPerfStats.DayCloseSafety
import HpcPerfStats.Interleaving

namespace Orchestrator

open OrderedDict JobStore Custody Transition Interleaving

/-! ## The system -/

/-- The coordinators. -/
inductive Role where
  | ingest
  | append
  | dayClose
  deriving DecidableEq

/-- The jobs that a coordinator claims. -/
def Role.kind : Role → Kind
  | .ingest => .ingest
  | .append => .list .append
  | .dayClose => .list .dayClose

theorem kind_injective : Function.Injective Role.kind := by
  intro i j h
  cases i with
  | ingest =>
      cases j with
      | ingest => rfl
      | append => cases h
      | dayClose => cases h
  | append =>
      cases j with
      | ingest => cases h
      | append => rfl
      | dayClose => cases h
  | dayClose =>
      cases j with
      | ingest => cases h
      | append => cases h
      | dayClose => rfl

/-- The coordinators are threads of one process. -/
structure Config where
  ingest : IngestCoordinator.Config
  append : AppendCoordinator.Config
  dayClose : DayCloseCoordinator.Config
  append_process : append.toProcess = ingest.toProcess
  dayClose_process : dayClose.toProcess = ingest.toProcess

def Config.process (cfg : Config) : Process := cfg.ingest.toProcess

def threads (cfg : Config) : Role → Thread Store Op
  | .ingest => ⟨IngestCoordinator.Coordinator, IngestCoordinator.Act, IngestCoordinator.step cfg.ingest,
      IngestCoordinator.Coordinator.store, fun c s => { c with store := s }, .other⟩
  | .append => ⟨AppendCoordinator.Coordinator, AppendCoordinator.Act, AppendCoordinator.step cfg.append,
      AppendCoordinator.Coordinator.store, fun c s => { c with store := s }, .other⟩
  | .dayClose => ⟨DayCloseCoordinator.Coordinator, DayCloseCoordinator.Act, DayCloseCoordinator.step cfg.dayClose,
      DayCloseCoordinator.Coordinator.store, fun c s => { c with store := s }, .other⟩

/-- The system over a store when the coordinators start. -/
def start (cfg : Config) (s : Store) : System (threads cfg) where
  shared := s
  locals
    | .ingest => IngestCoordinator.Coordinator.init s
    | .append => AppendCoordinator.Coordinator.init s
    | .dayClose => DayCloseCoordinator.Coordinator.init s

def step (cfg : Config) : System (threads cfg) → SystemAct (threads cfg) → Option (System (threads cfg)) :=
  System.step JobStore.step

/-- The conditions of the coordinators. -/
def CoordinatorOk (cfg : Config) : ∀ i, (threads cfg i).State → (threads cfg i).Act → Prop
  | .ingest => IngestCoordinator.StepOk cfg.ingest
  | .append => AppendCoordinator.StepOk
  | .dayClose => DayCloseCoordinator.StepOk

/-- A step meets the condition of its coordinator, and one from outside takes no claims and settles none. -/
def StepOk (cfg : Config) : System (threads cfg) → SystemAct (threads cfg) → Prop :=
  Interleaving.StepOk (CoordinatorOk cfg) fun i op => isForeign cfg.process i.kind op = true

/-- The step of a coordinator acknowledges the job. -/
def Settles (cfg : Config) : ∀ i, (threads cfg i).State → (threads cfg i).Act → String → Prop
  | .ingest => fun c a ident => IngestCoordinator.Settles cfg.ingest c ident a
  | .append => fun c a ident => AppendCoordinator.Settles cfg.append c a ident
  | .dayClose => fun c a ident => DayCloseCoordinator.Settles cfg.dayClose c a ident

/-! ## The coordinators fit together -/

section Compatible

variable {cfg : Config} {i : Role}

/-- **A step of a coordinator is at most one operation of the store**, and one of its own unless it is from outside. -/
theorem oneOp_of_step {c c' : (threads cfg i).State} {a : (threads cfg i).Act}
    (hstep : (threads cfg i).step c a = some c') :
    OneOp i.kind (Settles cfg i c a)
      (fun op => a = (threads cfg i).outside op ∨ isOwn cfg.process i.kind op = true)
      ((threads cfg i).shared c) ((threads cfg i).shared c') := by
  cases i with
  | ingest => exact IngestCoordinator.storeStep_of_step hstep
  | append =>
      have h := AppendCoordinator.storeStep_of_step hstep
      unfold AppendCoordinator.StoreStep at h
      rw [cfg.append_process] at h
      exact h
  | dayClose =>
      have h := DayCloseCoordinator.storeStep_of_step hstep
      unfold DayCloseCoordinator.StoreStep at h
      rw [cfg.dayClose_process] at h
      exact h

/-- What a coordinator takes from outside. -/
theorem step_outside (c : (threads cfg i).State) {s : Store} {op : Op}
    (hforeign : isForeign cfg.process i.kind op = true) (happly : JobStore.step ((threads cfg i).shared c) op = some s) :
    (threads cfg i).step c ((threads cfg i).outside op) = some ((threads cfg i).withShared c s) := by
  cases i with
  | ingest => exact (if_pos hforeign).trans (congrArg (Option.map _) happly)
  | append =>
      have hforeign : isForeign cfg.append.toProcess (.list .append) op = true := by
        rw [cfg.append_process]
        exact hforeign
      exact (if_pos hforeign).trans (congrArg (Option.map _) happly)
  | dayClose =>
      have hforeign : isForeign cfg.dayClose.toProcess (.list .dayClose) op = true := by
        rw [cfg.dayClose_process]
        exact hforeign
      exact (if_pos hforeign).trans (congrArg (Option.map _) happly)

theorem compatible (cfg : Config) : Compatible (threads cfg) JobStore.step
    (fun i op => isOwn cfg.process i.kind op = true) (fun i op => isForeign cfg.process i.kind op = true) := by
  refine ⟨?_, ?_, ?_, ?_, ?_, ?_⟩
  · intro i c s
    cases i <;> rfl
  · intro i c
    cases i <;> rfl
  · intro i c s s'
    cases i <;> rfl
  · exact fun i c s op hforeign happly => step_outside c hforeign happly
  · intro i c a c' hinside hstep
    rcases oneOp_of_step hstep with hsame | ⟨op, -, happly, -, houtside | hown⟩
    · exact Or.inl hsame
    · exact absurd houtside (hinside op)
    · exact Or.inr ⟨op, hown, happly⟩
  · intro i j op hne hown
    exact isForeign_of_isOwn hown fun heq => hne (kind_injective heq)

end Compatible

/-! ## A small run -/

/-- Small pools of one process. -/
def smallPools : Config :=
  ⟨IngestCoordinator.smallPool, AppendCoordinator.smallPool, DayCloseCoordinator.smallPool, rfl, rfl⟩

/-- A file is appended while a round of the day close begins, which claims its day. -/
def appendAndClose : List (SystemAct (threads smallPools)) :=
  .run .dayClose DayCloseCoordinator.Act.beginFill ::
    (AppendCoordinator.appendFile.map (SystemAct.run Role.append) ++
      [.run .dayClose (DayCloseCoordinator.Act.claim "12" 60)])

theorem stepOk_appendAndClose :
    Respects (step smallPools) (StepOk smallPools) (start smallPools AppendCoordinator.oneFile) appendAndClose := by
  refine respects_of_forall_state (fun a ha c => ?_) _
  rcases List.mem_cons.mp ha with rfl | ha
  · exact ⟨trivial, fun op h => by cases h⟩
  rcases List.mem_append.mp ha with ha | ha
  · obtain ⟨b, hb, rfl⟩ := List.mem_map.mp ha
    have hown : ∀ b ∈ AppendCoordinator.appendFile, ∀ op, b ≠ .other op := by
      simp [AppendCoordinator.appendFile, AppendCoordinator.submitFile]
    exact ⟨AppendCoordinator.stepOk_of_mem_appendFile hb _, hown b hb⟩
  · obtain rfl := List.mem_singleton.mp ha
    have hnonce : ':' ∉ "12".toList := by decide
    exact ⟨hnonce, fun op h => by cases h⟩

/-- The append job has left the store at the end. -/
theorem exists_run_appendAndClose : ∃ c : System (threads smallPools),
    exec (step smallPools) (start smallPools AppendCoordinator.oneFile) appendAndClose = some c ∧
      custody AppendCoordinator.oneFile (.list .append, "/raw/a") ≠ .absent ∧
      custody c.shared (.list .append, "/raw/a") = .absent := by
  have heval : (exec (step smallPools) (start smallPools AppendCoordinator.oneFile) appendAndClose).any (fun c =>
      decide (custody AppendCoordinator.oneFile (.list .append, "/raw/a") ≠ .absent ∧
        custody c.shared (.list .append, "/raw/a") = .absent)) = true := by decide +kernel
  obtain ⟨c, hrun, h⟩ := (Option.any_eq_true _ _).mp heval
  exact ⟨c, hrun, of_decide_eq_true h⟩

/-! ## Runs -/

section Runs

variable {cfg : Config} {s : Store} {acts : List (SystemAct (threads cfg))} {c : System (threads cfg)}

/-- What a coordinator sees of a run. -/
theorem exists_run_coordinator (hok : Respects (step cfg) (StepOk cfg) (start cfg s) acts)
    (hrun : exec (step cfg) (start cfg s) acts = some c) (i : Role) :
    ∃ bs, exec (threads cfg i).step ((start cfg s).view i) bs = some (c.view i) ∧
      Respects (threads cfg i).step (CoordinatorOk cfg i) ((start cfg s).view i) bs := by
  refine (compatible cfg).exists_run_view (fun i t op => ?_) i acts hok hrun
  cases i <;> trivial

/-- **Each coordinator sees a run of its own**: whatever the order of the steps, the state of a coordinator is one that
it reaches by itself, with what the others do to the store as steps from outside. -/
theorem seenByCoordinators_of_run (hok : Respects (step cfg) (StepOk cfg) (start cfg s) acts)
    (hrun : exec (step cfg) (start cfg s) acts = some c) :
    (∃ bs, exec (IngestCoordinator.step cfg.ingest) (.init s) bs = some (c.view .ingest) ∧
      Respects (IngestCoordinator.step cfg.ingest) (IngestCoordinator.StepOk cfg.ingest) (.init s) bs) ∧
    (∃ bs, exec (AppendCoordinator.step cfg.append) (.init s) bs = some (c.view .append) ∧
      Respects (AppendCoordinator.step cfg.append) AppendCoordinator.StepOk (.init s) bs) ∧
    ∃ bs, exec (DayCloseCoordinator.step cfg.dayClose) (.init s) bs = some (c.view .dayClose) ∧
      Respects (DayCloseCoordinator.step cfg.dayClose) DayCloseCoordinator.StepOk (.init s) bs :=
  ⟨exists_run_coordinator hok hrun .ingest, exists_run_coordinator hok hrun .append,
    exists_run_coordinator hok hrun .dayClose⟩

theorem seenByCoordinators_of_run_appendAndClose : ∃ c : System (threads smallPools),
    exec (step smallPools) (start smallPools AppendCoordinator.oneFile) appendAndClose = some c ∧
      ∃ bs, exec (DayCloseCoordinator.step smallPools.dayClose) (.init AppendCoordinator.oneFile) bs =
          some (c.view .dayClose) ∧
        Respects (DayCloseCoordinator.step smallPools.dayClose) DayCloseCoordinator.StepOk
          (.init AppendCoordinator.oneFile) bs := by
  obtain ⟨c, hrun, -⟩ := exists_run_appendAndClose
  exact ⟨c, hrun, (seenByCoordinators_of_run stepOk_appendAndClose hrun).2.2⟩

/-- What a coordinator has in hand. -/
def handsOf (c : System (threads cfg)) : Role → List (String × String)
  | .ingest => IngestCoordinator.hands (c.view .ingest)
  | .append => AppendCoordinator.hands (c.view .append)
  | .dayClose => DayCloseCoordinator.hands (c.view .dayClose)

/-- **One holder**: in every state a job of a kind is in flight in the store exactly when the coordinator of this kind
has its claim in hand, and no coordinator has a job twice. -/
theorem heldByCoordinators_of_run (hs : ∀ kind i, (s.inflight kind).get i = none)
    (hok : Respects (step cfg) (StepOk cfg) (start cfg s) acts)
    (hrun : exec (step cfg) (start cfg s) acts = some c) (i : Role) :
    ((handsOf c i).map Prod.fst).Nodup ∧ ∀ ident token,
      (∃ e, (c.shared.inflight i.kind).get ident = some e ∧ e.owner = token) ↔ (ident, token) ∈ handsOf c i := by
  obtain ⟨bs, hbs, hokbs⟩ := exists_run_coordinator hok hrun i
  cases i with
  | ingest =>
      have h := (IngestCoordinator.wf_of_run (hs .ingest) hokbs hbs).custodians
      exact ⟨h.inHand.nodup, h.inFlight_iff⟩
  | append =>
      have h := (AppendCoordinator.wf_of_run (hs _) hokbs hbs).custodians
      exact ⟨h.inHand.nodup, h.inFlight_iff⟩
  | dayClose =>
      have h := (DayCloseCoordinator.wf_of_run (hs _) hokbs hbs).custodians
      exact ⟨h.inHand.nodup, h.inFlight_iff⟩

theorem heldByCoordinators_of_run_appendAndClose : ∃ c : System (threads smallPools),
    exec (step smallPools) (start smallPools AppendCoordinator.oneFile) appendAndClose = some c ∧
      ((handsOf c .dayClose).map Prod.fst).Nodup ∧ ∀ ident token,
        (∃ e, (c.shared.inflight Role.dayClose.kind).get ident = some e ∧ e.owner = token) ↔
          (ident, token) ∈ handsOf c .dayClose := by
  obtain ⟨c, hrun, -⟩ := exists_run_appendAndClose
  exact ⟨c, hrun, heldByCoordinators_of_run (fun _ _ => rfl) stepOk_appendAndClose hrun .dayClose⟩

/-- What comes from outside asks for `dedupe`. -/
def OutsideDeduped (_ : System (threads cfg)) : SystemAct (threads cfg) → Prop
  | .outside op => Deduped op
  | .run _ _ => True

/-- **The store is tidy**: from a tidy store the coordinators reach tidy stores only, whatever the order of their
steps, when the other threads ask for `dedupe`, too. -/
theorem tidyStore_of_run (hs : Tidy s) (hok : Respects (step cfg) (StepOk cfg) (start cfg s) acts)
    (hdeduped : Respects (step cfg) OutsideDeduped (start cfg s) acts)
    (hrun : exec (step cfg) (start cfg s) acts = some c) :
    Inv c.shared ∧ ∀ k, (c.shared.lists k).Nodup ∧
      ∀ i ∈ c.shared.lists k, (c.shared.inflight (.list k)).get i = none := by
  have h : Tidy c.shared := by
    refine (compatible cfg).shared_invariant (fun _ _ _ h hdeduped happly => h.step hdeduped happly)
      (fun _ _ hown => deduped_of_isOwn hown) hs ((hok.and hdeduped).mono fun u a _ h => ⟨h.1, ?_⟩) hrun
    rintro op rfl
    exact h.2
  exact ⟨h.toInv, fun k => ⟨h.single.nodup k, h.single.free k⟩⟩

theorem tidyStore_of_run_appendAndClose : ∃ c : System (threads smallPools),
    exec (step smallPools) (start smallPools AppendCoordinator.oneFile) appendAndClose = some c ∧
      Inv c.shared ∧ ∀ k, (c.shared.lists k).Nodup ∧
        ∀ i ∈ c.shared.lists k, (c.shared.inflight (.list k)).get i = none := by
  have hempty : Tidy (Store.init Snapshot.empty) := tidy_init fun _ => ⟨List.nodup_nil, rfl⟩
  have hs : Tidy AppendCoordinator.oneFile :=
    hempty.step (show Deduped (.enqueueList .append "/raw/a" true 1000) from rfl) rfl
  have hdeduped : Respects (step smallPools) OutsideDeduped (start smallPools AppendCoordinator.oneFile)
      appendAndClose := by
    refine respects_of_forall_state (fun a ha c => ?_) _
    cases a with
    | run j b => trivial
    | outside op =>
        rcases List.mem_cons.mp ha with h | ha
        · cases h
        rcases List.mem_append.mp ha with ha | ha
        · obtain ⟨b, -, h⟩ := List.mem_map.mp ha
          cases h
        · cases List.mem_singleton.mp ha
  obtain ⟨c, hrun, -⟩ := exists_run_appendAndClose
  exact ⟨c, hrun, tidyStore_of_run hs stepOk_appendAndClose hdeduped hrun⟩

/-- A step that makes a job disappear is one of its coordinator. -/
theorem settles_of_step {u u' : System (threads cfg)} {a : SystemAct (threads cfg)} {i : Role} {ident : String}
    (hok : StepOk cfg u a) (hstep : step cfg u a = some u') (hu : custody u.shared (i.kind, ident) ≠ .absent)
    (hu' : custody u'.shared (i.kind, ident) = .absent) :
    ∃ b, a = .run i b ∧ Settles cfg i (u.view i) b ident := by
  have hview : ∀ j, (threads cfg j).shared (u.view j) = u.shared :=
    fun j => (compatible cfg).shared_withShared j _ _
  -- an operation that is none of the coordinator acknowledges no job of it
  have hstays : ∀ op, op ≠ .load → (∀ owner, op ≠ .ack i.kind ident owner) →
      JobStore.step u.shared op = some u'.shared → False := by
    intro op hload hack happly
    refine hu ?_
    cases effect_step hload happly (i.kind, ident) with
    | stay h => exact h.symm.trans hu'
    | enqueue h => exact h
    | claim owner _ h => exact absurd (h.symm.trans hu') (by simp)
    | settle owner _ _ heq => exact absurd heq (hack owner)
    | giveBack owner _ h => exact absurd (h.symm.trans hu') (by simp)
  cases a with
  | run j b =>
      obtain ⟨t, ht, rfl⟩ := Option.map_eq_some_iff.mp hstep
      have hone := oneOp_of_step ht
      rw [hview] at hone
      by_cases hij : j = i
      · subst hij
        exact ⟨b, rfl, hone.settled hu hu'⟩
      · rcases hone with hsame | ⟨op, hload, happly, -, houtside | hown⟩
        · exact absurd ((congrArg (custody · (i.kind, ident)) hsame).symm.trans hu') hu
        · exact absurd houtside (hok.2 op)
        · refine (hstays op hload (fun owner heq => ?_) happly).elim
          subst heq
          exact hij (kind_injective (eq_of_beq hown).symm)
  | outside op =>
      obtain ⟨s, happly, rfl⟩ := Option.map_eq_some_iff.mp hstep
      refine (hstays op ?_ (fun owner heq => ?_) happly).elim
      · rintro rfl
        exact absurd (hok i) Bool.false_ne_true
      · subst heq
        have hforeign : (i.kind != i.kind) = true := hok i
        rw [bne_self_eq_false] at hforeign
        cases hforeign

/-- **How a job can leave the store**: at a step of the coordinator of its kind that may acknowledge it. -/
theorem settledByCoordinator_of_run {c' : System (threads cfg)} {i : Role} {ident : String}
    (hok : Respects (step cfg) (StepOk cfg) c acts) (hrun : exec (step cfg) c acts = some c')
    (hpresent : custody c.shared (i.kind, ident) ≠ .absent) (hgone : custody c'.shared (i.kind, ident) = .absent) :
    ∃ n b u, acts[n]? = some (.run i b) ∧ exec (step cfg) c (acts.take n) = some u ∧
      Settles cfg i (u.view i) b ident := by
  obtain ⟨n, a, u, u', ha, hu, hstep, hpu, hpu'⟩ :=
    exists_first_step (P := fun u => custody u.shared (i.kind, ident) ≠ .absent) hpresent hrun fun h => h hgone
  obtain ⟨b, rfl, hsettles⟩ := settles_of_step (hok.at_step hu ha) hstep hpu (not_not.mp hpu')
  exact ⟨n, b, u, ha, hu, hsettles⟩

theorem settledByCoordinator_of_run_appendAndClose : ∃ n b u, appendAndClose[n]? = some (.run .append b) ∧
    exec (step smallPools) (start smallPools AppendCoordinator.oneFile) (appendAndClose.take n) = some u ∧
      Settles smallPools .append (u.view .append) b "/raw/a" := by
  obtain ⟨c, hrun, hpresent, hgone⟩ := exists_run_appendAndClose
  exact settledByCoordinator_of_run (i := .append) stepOk_appendAndClose hrun hpresent hgone

end Runs

end Orchestrator
