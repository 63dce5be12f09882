/-
# Runs of the day-close coordinator

`Wf` says of a state of the coordinator that its hands are the store's account of the day-close jobs in flight, that
its map has the calls of the pool that go on, and that no claim was let go of unless the thread has crashed.  Every
step that meets `StepOk` keeps it.
-/
import HpcPerfStats.DayCloseCoordinator

namespace DayCloseCoordinator

open OrderedDict JobStore Custody Transition CallPool

/-! ## The invariant -/

/-- The claim in the hands of the step that the thread is in. -/
def Phase.hands : Phase → List (String × String)
  | .look _ job => [claimKey job]
  | .retry job _ => [claimKey job]
  | .bumped _ job _ => [claimKey job]
  | .requeue job _ => [claimKey job]
  | .finish job _ => [claimKey job]
  | _ => []

/-- The local maps agree with each other and with the calls of the pool. -/
structure Books (cfg : Config) (c : Coordinator) : Prop where
  claimed : ∀ i, (c.leases.get i).isSome = (c.inflight.get i).isSome
  names : ∀ i job, c.leases.get i = some job → job.identity = i ∧ i ≠ ""
  tracked : Tracked c.inflight c.tasks
  room : c.inflight.size ≤ cfg.cap

/-- A worker had this job and returned such a result. -/
def Returned (c : Coordinator) (identity : String) (p : Result → Bool) : Prop :=
  ∃ (n : ℕ) (result : Result), c.tasks[n]? = some ⟨identity, (), some result⟩ ∧ p result = true

/-- What is true where the thread is. -/
def PhaseOk (cfg : Config) (c : Coordinator) : Phase → Prop
  | .look _ _ => c.inflight.size < cfg.cap
  | .drain todo => Tracks c.inflight todo
  | .retry job todo => Tracks c.inflight todo ∧ Returned c job.identity Result.failed
  | .bumped _ job todo => Tracks c.inflight todo ∧ Returned c job.identity Result.failed
  | .requeue _ todo => Tracks c.inflight todo
  | .finish job todo => Tracks c.inflight todo ∧ Returned c job.identity Result.isComplete
  | .protect since todo => ∀ claim ∈ localClaims c.leases,
      claim.1 ∈ todo ∨ Guarded c.store (.list .dayClose) since claim.1
  | .reap since => ∀ claim ∈ localClaims c.leases, Guarded c.store (.list .dayClose) since claim.1
  | _ => True

structure Wf (cfg : Config) (c : Coordinator) : Prop where
  custodians : Custodians cfg.toProcess (.list .dayClose) c.store
    (c.phase.hands ++ localClaims c.leases ++ c.lost.map claimKey)
  books : Books cfg c
  whole : c.phase ≠ .crashed → c.lost = []
  here : PhaseOk cfg c c.phase

/-- The nonces are new and without a colon, a job has a name, the clock does not run back while deadlines are moved,
and the reap comes before the first of them is over. -/
def StepOk (c : Coordinator) : Act → Prop
  | .claim nonce _ => ':' ∉ nonce.toList
  | .look _ _ => ∀ claim ∈ c.phase.hands, claim.1 ≠ ""
  | .protect now => ∀ since todo, c.phase = .protect since todo → since ≤ now
  | .reap now _ => ∀ since, c.phase = .reap since → now - inflightReapGraceFloor < since + extendSeconds
  | _ => True

/-! ## A coordinator with some claims in hand -/

/-- A state whose thread has not crashed, with these claims in hand beside the local maps; the phase takes no
part. -/
structure Steady (cfg : Config) (c : Coordinator) (hs : List (String × String)) : Prop where
  custodians : Custodians cfg.toProcess (.list .dayClose) c.store (hs ++ localClaims c.leases)
  books : Books cfg c
  lost : c.lost = []

section Steady

variable {cfg : Config} {c : Coordinator} {hs : List (String × String)} {job : ClaimedJob}

/-- The state with a phase that holds these claims. -/
theorem Steady.wf (h : Steady cfg c hs) (phase : Phase) (hhands : phase.hands = hs) (hok : PhaseOk cfg c phase) :
    Wf cfg (c.goto phase) := by
  refine ⟨?_, ⟨h.books.claimed, h.books.names, h.books.tracked, h.books.room⟩, fun _ => h.lost, ?_⟩
  · show Custodians cfg.toProcess (.list .dayClose) c.store
      (phase.hands ++ localClaims c.leases ++ c.lost.map claimKey)
    rw [hhands, h.lost, List.map_nil, List.append_nil]
    exact h.custodians
  · cases phase with
    | _ => exact hok

theorem Wf.steady (h : Wf cfg c) (hcrashed : c.phase ≠ .crashed) : Steady cfg c c.phase.hands := by
  have hlost := h.whole hcrashed
  have hcustodians := h.custodians
  rw [hlost, List.map_nil, List.append_nil] at hcustodians
  exact ⟨hcustodians, h.books, hlost⟩

/-- The store changes under the same local maps. -/
theorem Steady.of_store (h : Steady cfg c hs) {s : Store} (hs' : List (String × String))
    (hs : Custodians cfg.toProcess (.list .dayClose) s (hs' ++ localClaims c.leases)) :
    Steady cfg { c with store := s } hs' :=
  ⟨hs, ⟨h.books.claimed, h.books.names, h.books.tracked, h.books.room⟩, h.lost⟩

theorem Steady.congr (h : Steady cfg c hs) {s : Store}
    (hinflight : s.inflight (.list .dayClose) = c.store.inflight (.list .dayClose)) :
    Steady cfg { c with store := s } hs :=
  h.of_store _ (h.custodians.congr hinflight)

theorem Steady.giveBack (h : Steady cfg c (claimKey job :: hs)) (score : Option ℚ) :
    Steady cfg { c with store := (requeue c.store (.list .dayClose) job.identity job.ownerToken score).2 } hs :=
  h.of_store _ (h.custodians.giveBack score).1

/-- The claim in hand is none of those in the map. -/
theorem Steady.fresh (h : Steady cfg c [claimKey job]) : c.leases.get job.identity = none := by
  rw [Option.eq_none_iff_forall_ne_some]
  intro other hother
  have hnodup := h.custodians.inHand.nodup
  rw [List.singleton_append, List.map_cons, List.nodup_cons] at hnodup
  exact hnodup.1 (List.mem_map.mpr ⟨_, mem_localClaims hother, rfl⟩)

/-- **A job is submitted.** -/
theorem Steady.record (h : Steady cfg c [claimKey job]) (hname : job.identity ≠ "")
    (hroom : c.inflight.size < cfg.cap) : Steady cfg (c.record job) [] := by
  have hfresh := h.fresh
  have hfree : (c.inflight.get job.identity).isSome = false := by
    rw [← h.books.claimed, hfresh]
    rfl
  refine ⟨h.custodians.perm (localClaims_set hfresh job).symm, ⟨?_, ?_, ?_, ?_⟩, h.lost⟩
  · intro i
    show ((c.leases.set job.identity job).get i).isSome = ((c.inflight.set job.identity c.tasks.length).get i).isSome
    rw [isSome_get_set, isSome_get_set, h.books.claimed]
  · intro i job' hget
    have hget' : (c.leases.set job.identity job).get i = some job' := hget
    rw [get_set] at hget'
    split_ifs at hget' with hi
    · obtain rfl := Option.some.inj hget'
      exact ⟨hi.symm, hi ▸ hname⟩
    · exact h.books.names i job' hget'
  · exact h.books.tracked.submit (Option.not_isSome_iff_eq_none.mp (Bool.not_eq_true _ ▸ hfree)) ()
  · show (c.inflight.set job.identity c.tasks.length).size ≤ cfg.cap
    rw [size_set, hfree]
    exact hroom

/-- The job of a worker that has returned is taken in hand. -/
theorem Steady.pop (h : Steady cfg c []) {identity : String} {n : ℕ} {result : Result}
    (hinflight : c.inflight.get identity = some n) (hn : c.tasks[n]? = some ⟨identity, (), some result⟩)
    (backoff : JanitorDeferTracker) :
    ∃ job, c.leases.get identity = some job ∧ job.identity = identity ∧
      Steady cfg { c with
        inflight := c.inflight.pop identity
        leases := c.leases.pop identity
        backoff := backoff } [claimKey job] := by
  have hsome : (c.leases.get identity).isSome = true := by
    rw [h.books.claimed, hinflight]
    rfl
  obtain ⟨job, hjob⟩ := Option.isSome_iff_exists.mp hsome
  have hname := (h.books.names identity job hjob).1
  refine ⟨job, hjob, hname, ⟨h.custodians.perm ?_, ⟨?_, ?_, ?_, ?_⟩, h.lost⟩⟩
  · show (localClaims c.leases).Perm (claimKey job :: localClaims (c.leases.pop identity))
    unfold claimKey
    rw [hname]
    exact localClaims_pop hjob
  · intro i
    show ((c.leases.pop identity).get i).isSome = ((c.inflight.pop identity).get i).isSome
    rw [isSome_get_pop, isSome_get_pop, h.books.claimed]
  · intro i job' hget
    have hget' : (c.leases.pop identity).get i = some job' := hget
    rw [get_pop] at hget'
    split_ifs at hget'
    exact h.books.names i job' hget'
  · exact h.books.tracked.pop hinflight hn
  · exact (size_pop_le _ _).trans h.books.room

end Steady

/-! ## The steps of the fill -/

section FillSteps

variable {cfg : Config} {c : Coordinator} {job : ClaimedJob} {budget : ℕ}

theorem wf_beginFill (h : Steady cfg c []) : Wf cfg (beginFill cfg c) := by
  unfold beginFill
  dsimp only
  split_ifs
  · exact h.wf _ rfl trivial
  · exact h.wf _ rfl trivial

/-- A new order of the queue. -/
theorem reorderList_inflight (s : Store) (k : ListKind) (orderedIdents : List String) :
    (reorderList s k orderedIdents).2.inflight = s.inflight := by
  unfold reorderList
  split_ifs
  · rfl
  · rfl

theorem wf_claimNext (h : Steady cfg c []) {nonce : String} (hnonce : ':' ∉ nonce.toList) (deadline : ℚ) :
    Wf cfg (claimNext cfg c budget nonce deadline) := by
  unfold claimNext
  split_ifs with hroom
  · obtain ⟨job, s, hclaim, hcustodians⟩ := h.custodians.claimList hnonce deadline
    rw [hclaim]
    cases job with
    | none => exact (h.of_store [] hcustodians).wf .idle rfl trivial
    | some job => exact (h.of_store [claimKey job] hcustodians).wf (.look budget job) rfl hroom.1
  · exact h.wf _ rfl trivial

theorem wf_lookAtClaim (h : Steady cfg c [claimKey job]) (hname : job.identity ≠ "")
    (hroom : c.inflight.size < cfg.cap) (now : ℚ) (submits : Bool) :
    Wf cfg (lookAtClaim c budget job now submits) := by
  unfold lookAtClaim
  split_ifs
  · exact (h.giveBack _).wf _ rfl trivial
  · exact (h.giveBack none).wf .idle rfl trivial
  · exact (h.record hname hroom).wf _ rfl trivial

end FillSteps

/-! ## The steps of the drain -/

section DrainSteps

variable {cfg : Config} {c : Coordinator} {job : ClaimedJob} {todo : List (String × ℕ)}

theorem wf_collect (h : Steady cfg c []) {identity : String} {n : ℕ}
    (htracks : Tracks c.inflight ((identity, n) :: todo)) (now : ℚ) : Wf cfg (collect c identity n todo now) := by
  have hinflight : c.inflight.get identity = some n := htracks.entry (identity, n) List.mem_cons_self
  unfold collect
  cases hn : (c.tasks[n]?).bind Call.result with
  | none => exact h.wf _ rfl htracks.tail
  | some result =>
      dsimp only
      obtain ⟨task, htask, hresult⟩ := Option.bind_eq_some_iff.mp hn
      -- the call is one for this identity
      obtain ⟨arg, result', htask'⟩ := h.books.tracked.call identity n hinflight
      obtain rfl := Option.some.inj (htask.symm.trans htask')
      obtain rfl : result' = some result := hresult
      obtain ⟨job, hjob, hname, hpop⟩ := h.pop hinflight htask (noteResult c.backoff identity result now)
      rw [hjob]
      have hrest : Tracks (c.inflight.pop identity) todo := htracks.pop
      have hreturned : ∀ p : Result → Bool, p result = true → Returned { c with
          inflight := c.inflight.pop identity
          leases := c.leases.pop identity
          backoff := noteResult c.backoff identity result now } job.identity p := by
        intro p hp
        rw [hname]
        exact ⟨n, result, htask, hp⟩
      simp only [settleJob]
      split_ifs with hfailed hcomplete
      · exact hpop.wf (.retry job todo) rfl ⟨hrest, hreturned _ hfailed⟩
      · exact hpop.wf (.finish job todo) rfl ⟨hrest, hreturned _ hcomplete⟩
      · exact hpop.wf (.requeue job todo) rfl hrest

/-- The claims in hand after a step that has lost one. -/
theorem wf_bumpAttempt (h : Steady cfg c [claimKey job]) (hhere : PhaseOk cfg c (.retry job todo)) :
    Wf cfg (bumpAttempt c job todo) := by
  have hinflight := bumpJobAttempt_inflight c.store (.list .dayClose) job.identity
  unfold bumpAttempt
  rcases hbump : bumpJobAttempt c.store (.list .dayClose) job.identity with ⟨_ | attempt, s⟩
  · rw [hbump] at hinflight
    refine ⟨?_, ⟨h.books.claimed, h.books.names, h.books.tracked, h.books.room⟩, fun hne => absurd rfl hne, trivial⟩
    show Custodians cfg.toProcess (.list .dayClose) s
      ([] ++ localClaims c.leases ++ (c.lost ++ [job]).map claimKey)
    rw [h.lost, List.nil_append, List.nil_append, List.map_singleton]
    exact (h.custodians.congr (congrFun hinflight _)).perm List.perm_append_comm
  · rw [hbump] at hinflight
    exact (h.congr (congrFun hinflight _)).wf (.bumped attempt job todo) rfl hhere

theorem wf_settle (h : Steady cfg c [claimKey job]) (htracks : Tracks c.inflight todo) (attempt : ℤ) :
    Wf cfg { c with
      store := retryOrDeadLetter c.store (.list .dayClose) job attempt cfg.maxAttempts
      phase := .drain todo } :=
  (h.of_store _ (h.custodians.retryOrDeadLetter attempt cfg.maxAttempts)).wf (.drain todo) rfl htracks

end DrainSteps

/-! ## The other steps -/

section OtherSteps

variable {cfg : Config} {c : Coordinator}

/-- What is true where the thread is does not depend on the calls that go on. -/
theorem PhaseOk.frame {c' : Coordinator} {phase : Phase} (h : PhaseOk cfg c phase) (hleases : c'.leases = c.leases)
    (hinflight : c'.inflight = c.inflight)
    (hstore : c'.store.inflight (.list .dayClose) = c.store.inflight (.list .dayClose))
    (htasks : ∀ {n : ℕ} {identity : String} {result : Result},
      c.tasks[n]? = some ⟨identity, (), some result⟩ → c'.tasks[n]? = some ⟨identity, (), some result⟩) :
    PhaseOk cfg c' phase := by
  have hreturned : ∀ {identity p}, Returned c identity p → Returned c' identity p := by
    rintro identity p ⟨n, result, hn, hp⟩
    exact ⟨n, result, htasks hn, hp⟩
  have htracks : ∀ {todo}, Tracks c.inflight todo → Tracks c'.inflight todo := by
    intro todo htodo
    rw [hinflight]
    exact htodo
  cases phase with
  | look budget job =>
      show c'.inflight.size < cfg.cap
      rw [hinflight]
      exact h
  | drain todo => exact htracks h
  | retry job todo => exact ⟨htracks h.1, hreturned h.2⟩
  | bumped attempt job todo => exact ⟨htracks h.1, hreturned h.2⟩
  | requeue job todo => exact htracks h
  | finish job todo => exact ⟨htracks h.1, hreturned h.2⟩
  | protect since todo =>
      intro claim hclaim
      rw [hleases] at hclaim
      exact (h claim hclaim).imp_right fun hguarded => hguarded.congr hstore
  | reap since =>
      intro claim hclaim
      rw [hleases] at hclaim
      exact (h claim hclaim).congr hstore
  | _ => exact h

/-- A change of the store that leaves the jobs in flight alone. -/
theorem Wf.congr (h : Wf cfg c) {s : Store}
    (hinflight : s.inflight (.list .dayClose) = c.store.inflight (.list .dayClose)) :
    Wf cfg { c with store := s } :=
  ⟨h.custodians.congr hinflight, ⟨h.books.claimed, h.books.names, h.books.tracked, h.books.room⟩, h.whole,
    h.here.frame rfl rfl hinflight fun hn => hn⟩

/-- **A worker returns**: its call is done, and the others stay as they are. -/
theorem wf_work (h : Wf cfg c) {n : ℕ} {result : Result} {tasks : List Task}
    (hwork : finish c.tasks n result = some tasks) : Wf cfg { c with tasks := tasks } :=
  ⟨h.custodians, ⟨h.books.claimed, h.books.names, h.books.tracked.finish hwork, h.books.room⟩, h.whole,
    h.here.frame rfl rfl rfl (done_of_finish hwork)⟩

/-- The jobs in the map are moved out of the reach of the reap. -/
theorem mem_reapSkipIdentities (h : Books cfg c) {claim : String × String} (hclaim : claim ∈ localClaims c.leases) :
    claim.1 ∈ reapSkipIdentities c := by
  obtain ⟨⟨i, job⟩, he, rfl⟩ := List.mem_map.mp hclaim
  have hname := (h.names i job (get_of_mem he)).2
  unfold reapSkipIdentities
  rw [List.mem_filter, List.mem_dedup]
  exact ⟨List.mem_append_right _ (List.mem_map.mpr ⟨(i, job), he, rfl⟩), bne_iff_ne.mpr hname⟩

theorem wf_protect (h : Steady cfg c []) {since now : ℚ} (hnow : since ≤ now) {identity : String}
    {todo : List String} (hhere : PhaseOk cfg c (.protect since (identity :: todo))) :
    Wf cfg { c with
      store := (extendInflightDeadline c.store (.list .dayClose) identity (now + extendSeconds)).2
      phase := .protect since todo } := by
  refine (h.of_store _ (h.custodians.extend identity _)).wf (.protect since todo) rfl ?_
  intro claim hclaim
  have hcase : claim.1 ∈ todo ∨ claim.1 = identity ∨ Guarded c.store (.list .dayClose) since claim.1 := by
    rcases hhere claim hclaim with hmem | hguarded
    · exact (List.mem_cons.mp hmem).symm.imp_right Or.inl
    · exact Or.inr (Or.inr hguarded)
  refine hcase.imp_right fun hguarded => ?_
  obtain ⟨e, he, -⟩ := h.custodians.entry (show (claim.1, claim.2) ∈ [] ++ localClaims c.leases from hclaim)
  exact Guarded.extend hnow ⟨e, he⟩ hguarded

/-- **The reap** takes none of the claims of this coordinator. -/
theorem wf_reap (h : Steady cfg c []) {since now : ℚ} (hnow : now - inflightReapGraceFloor < since + extendSeconds)
    (hhere : PhaseOk cfg c (.reap since)) (limit : ℤ) :
    Wf cfg { c with store := (reapExpiredInflight c.store (.list .dayClose) now limit).2, phase := .idle } :=
  (h.of_store _ (h.custodians.reap hhere hnow limit)).wf .idle rfl trivial

end OtherSteps

/-! ## Every step -/

/-- **Every step of the coordinator keeps its account with the store.** -/
theorem wf_step {cfg : Config} {c c' : Coordinator} {a : Act} (h : Wf cfg c) (hok : StepOk c a)
    (hstep : step cfg c a = some c') : Wf cfg c' := by
  have hsteady : ∀ {phase : Phase}, c.phase = phase → phase ≠ .crashed → Steady cfg c phase.hands := by
    rintro phase rfl hcrashed
    exact h.steady hcrashed
  have hhere : ∀ {phase : Phase}, c.phase = phase → PhaseOk cfg c phase := by
    rintro phase rfl
    exact h.here
  cases a with
  | other op =>
      rw [step] at hstep
      split_ifs at hstep with hforeign
      obtain ⟨s, hs, rfl⟩ := Option.map_eq_some_iff.mp hstep
      exact h.congr (foreign_inflight h.custodians.minted hforeign hs)
  | work n result =>
      rw [step] at hstep
      obtain ⟨tasks, htasks, rfl⟩ := Option.map_eq_some_iff.mp hstep
      exact wf_work h htasks
  | beginFill =>
      rw [step] at hstep
      split at hstep
      · next hphase =>
          obtain rfl := Option.some.inj hstep
          exact wf_beginFill (hsteady hphase (by simp))
      · cases hstep
  | prioritize =>
      rw [step] at hstep
      split at hstep
      · next ordered hphase =>
          obtain rfl := Option.some.inj hstep
          have hstore := congrFun (reorderList_inflight c.store .dayClose ordered) (.list .dayClose)
          exact ((hsteady hphase (by simp)).congr hstore).wf (.fill (skipBudget cfg)) rfl trivial
      · cases hstep
  | claim nonce deadline =>
      rw [step] at hstep
      split at hstep
      · next budget hphase =>
          obtain rfl := Option.some.inj hstep
          exact wf_claimNext (hsteady hphase (by simp)) hok deadline
      · cases hstep
  | look now submits =>
      rw [step] at hstep
      split at hstep
      · next budget job hphase =>
          obtain rfl := Option.some.inj hstep
          have hname : ∀ claim ∈ c.phase.hands, claim.1 ≠ "" := hok
          rw [hphase] at hname
          exact wf_lookAtClaim (hsteady hphase (by simp)) (hname _ (List.mem_singleton_self _)) (hhere hphase) now
            submits
      · cases hstep
  | beginDrain =>
      rw [step] at hstep
      split at hstep
      · next hphase =>
          obtain rfl := Option.some.inj hstep
          exact (hsteady hphase (by simp)).wf _ rfl (tracks_entries c.inflight)
      · cases hstep
  | collect now =>
      rw [step] at hstep
      split at hstep
      · next identity n todo hphase =>
          obtain rfl := Option.some.inj hstep
          exact wf_collect (hsteady hphase (by simp)) (hhere hphase) now
      · next hphase =>
          obtain rfl := Option.some.inj hstep
          exact (hsteady hphase (by simp)).wf _ rfl trivial
      · cases hstep
  | retry =>
      rw [step] at hstep
      split at hstep
      · next job todo hphase =>
          obtain rfl := Option.some.inj hstep
          exact wf_bumpAttempt (hsteady hphase (by simp)) (hhere hphase)
      · cases hstep
  | settle =>
      rw [step] at hstep
      split at hstep
      · next attempt job todo hphase =>
          obtain rfl := Option.some.inj hstep
          exact wf_settle (hsteady hphase (by simp)) (hhere hphase).1 attempt
      · cases hstep
  | requeue =>
      rw [step] at hstep
      split at hstep
      · next job todo hphase =>
          obtain rfl := Option.some.inj hstep
          exact ((hsteady hphase (by simp)).giveBack _).wf _ rfl (hhere hphase)
      · cases hstep
  | finish =>
      rw [step] at hstep
      split at hstep
      · next job todo hphase =>
          obtain rfl := Option.some.inj hstep
          have hnow := hsteady hphase (by simp)
          exact (hnow.of_store [] hnow.custodians.settle.1).wf (.drain todo) rfl (hhere hphase).1
      · cases hstep
  | beginReap now =>
      rw [step] at hstep
      split at hstep
      · next hphase =>
          obtain rfl := Option.some.inj hstep
          exact (hsteady hphase (by simp)).wf _ rfl fun claim hclaim =>
            Or.inl (mem_reapSkipIdentities h.books hclaim)
      · cases hstep
  | protect now =>
      rw [step] at hstep
      split at hstep
      · next since identity todo hphase =>
          obtain rfl := Option.some.inj hstep
          exact wf_protect (hsteady hphase (by simp)) (hok since _ hphase) (hhere hphase)
      · next since hphase =>
          obtain rfl := Option.some.inj hstep
          exact (hsteady hphase (by simp)).wf _ rfl fun claim hclaim =>
            (hhere hphase claim hclaim).resolve_left List.not_mem_nil
      · cases hstep
  | reap now limit =>
      rw [step] at hstep
      split at hstep
      · next since hphase =>
          obtain rfl := Option.some.inj hstep
          exact wf_reap (hsteady hphase (by simp)) (hok since hphase) (hhere hphase) limit
      · cases hstep

end DayCloseCoordinator
