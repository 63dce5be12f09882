/-
# What a run of the day-close coordinator keeps

The coordinator starts with a store that has no day-close job in flight.  In every state of a run that meets `StepOk`:

* `closing_of_run`: the store has a day-close job in flight exactly when the coordinator has its claim;
* `oneCloser_of_run`: no two workers close one day, and there are no more than slots;
* `dayClosed_of_run`: a day leaves the store when a worker found it complete, or its attempts are used up.

A tar that yields is not submitted again before its backoff is over (`backoff_of_run`).
-/
import HpcPerfStats.DayCloseRuns

namespace DayCloseCoordinator

open OrderedDict JobStore DailyTarPaths Custody Transition CallPool

/-! ## The store behind a step -/

/-- The step acknowledges the day-close job. -/
def Settles (cfg : Config) (c : Coordinator) (a : Act) (i : String) : Prop :=
  match a with
  | .finish => ∃ job todo, c.phase = .finish job todo ∧ job.identity = i
  | .settle => ∃ attempt job todo, c.phase = .bumped attempt job todo ∧ job.identity = i ∧ cfg.maxAttempts ≤ attempt
  | _ => False

/-- What a step does with the store. -/
def StoreStep (cfg : Config) (c : Coordinator) (a : Act) (s : Store) : Prop :=
  OneOp (.list .dayClose) (Settles cfg c a)
    (fun op => a = .other op ∨ isOwn cfg.toProcess (.list .dayClose) op = true) c.store s

section StoreStep

variable {cfg : Config} {c c' : Coordinator} {a : Act} {budget : ℕ} {job : ClaimedJob}

theorem StoreStep.op (op : Op) {s : Store} (hload : op ≠ .load)
    (hack : ∀ i owner, op ≠ .ack (.list .dayClose) i owner)
    (hown : a = .other op ∨ isOwn cfg.toProcess (.list .dayClose) op = true)
    (hstep : JobStore.step c.store op = some s) : StoreStep cfg c a s :=
  OneOp.op op hload hack hown hstep

theorem storeStep_claimNext (nonce : String) (deadline : ℚ) :
    StoreStep cfg c a (claimNext cfg c budget nonce deadline).store := by
  have hop : StoreStep cfg c a (claimList c.store .dayClose (cfg.token nonce) deadline).2 :=
    StoreStep.op (.claimList .dayClose (cfg.token nonce) deadline) (by simp) (by simp) (Or.inr rfl) rfl
  unfold claimNext
  split_ifs
  · rcases hclaim : claimList c.store .dayClose (cfg.token nonce) deadline with ⟨_ | (_ | job), s⟩
    all_goals
      rw [hclaim] at hop
      exact hop
  · exact OneOp.same

theorem storeStep_lookAtClaim (now : ℚ) (submits : Bool) :
    StoreStep cfg c a (lookAtClaim c budget job now submits).store := by
  unfold lookAtClaim
  split_ifs
  · exact OneOp.requeue (Or.inr rfl)
  · exact OneOp.requeue (Or.inr rfl)
  · exact OneOp.same

theorem storeStep_bumpAttempt (todo : List (String × ℕ)) : StoreStep cfg c a (bumpAttempt c job todo).store := by
  have hop : StoreStep cfg c a (bumpJobAttempt c.store (.list .dayClose) job.identity).2 :=
    StoreStep.op (.bumpJobAttempt (.list .dayClose) job.identity) (by simp) (by simp) (Or.inr rfl) rfl
  unfold bumpAttempt
  rcases hbump : bumpJobAttempt c.store (.list .dayClose) job.identity with ⟨_ | attempt, s⟩
  all_goals
    rw [hbump] at hop
    exact hop

/-- **A step is at most one operation of the store.** -/
theorem storeStep_of_step (hstep : step cfg c a = some c') : StoreStep cfg c a c'.store := by
  cases a with
  | other op =>
      rw [step] at hstep
      split_ifs at hstep with hforeign
      obtain ⟨s, hs, rfl⟩ := Option.map_eq_some_iff.mp hstep
      refine StoreStep.op op ?_ ?_ (Or.inl rfl) hs
      · rintro rfl
        cases hforeign
      · rintro i owner rfl
        simp [isForeign] at hforeign
  | work n result =>
      rw [step] at hstep
      obtain ⟨tasks, -, rfl⟩ := Option.map_eq_some_iff.mp hstep
      exact OneOp.same
  | beginFill =>
      rw [step] at hstep
      split at hstep
      · obtain rfl := Option.some.inj hstep
        unfold beginFill
        dsimp only
        split_ifs
        all_goals exact OneOp.same
      · cases hstep
  | prioritize =>
      rw [step] at hstep
      split at hstep
      · next ordered hphase =>
          obtain rfl := Option.some.inj hstep
          exact StoreStep.op (.reorderList .dayClose ordered) (by simp) (by simp) (Or.inr rfl) rfl
      · cases hstep
  | claim nonce deadline =>
      rw [step] at hstep
      split at hstep
      · obtain rfl := Option.some.inj hstep
        exact storeStep_claimNext nonce deadline
      · cases hstep
  | look now submits =>
      rw [step] at hstep
      split at hstep
      · obtain rfl := Option.some.inj hstep
        exact storeStep_lookAtClaim now submits
      · cases hstep
  | beginDrain =>
      rw [step] at hstep
      split at hstep
      · obtain rfl := Option.some.inj hstep
        exact OneOp.same
      · cases hstep
  | collect now =>
      rw [step] at hstep
      split at hstep
      · obtain rfl := Option.some.inj hstep
        unfold collect
        split
        · exact OneOp.same
        · exact OneOp.same
      · obtain rfl := Option.some.inj hstep
        exact OneOp.same
      · cases hstep
  | retry =>
      rw [step] at hstep
      split at hstep
      · obtain rfl := Option.some.inj hstep
        exact storeStep_bumpAttempt _
      · cases hstep
  | settle =>
      rw [step] at hstep
      split at hstep
      · next attempt job todo hphase =>
          obtain rfl := Option.some.inj hstep
          show StoreStep cfg c .settle (retryOrDeadLetter c.store (.list .dayClose) job attempt cfg.maxAttempts)
          unfold retryOrDeadLetter
          split_ifs with hattempt
          · exact OneOp.requeue (Or.inr rfl)
          · exact OneOp.ack ⟨attempt, job, todo, hphase, rfl, not_lt.mp hattempt⟩ (Or.inr rfl)
      · cases hstep
  | requeue =>
      rw [step] at hstep
      split at hstep
      · obtain rfl := Option.some.inj hstep
        exact OneOp.requeue (Or.inr rfl)
      · cases hstep
  | finish =>
      rw [step] at hstep
      split at hstep
      · next job todo hphase =>
          obtain rfl := Option.some.inj hstep
          exact OneOp.ack ⟨job, todo, hphase, rfl⟩ (Or.inr rfl)
      · cases hstep
  | beginReap now =>
      rw [step] at hstep
      split at hstep
      · obtain rfl := Option.some.inj hstep
        exact OneOp.same
      · cases hstep
  | protect now =>
      rw [step] at hstep
      split at hstep
      · next since identity todo hphase =>
          obtain rfl := Option.some.inj hstep
          exact StoreStep.op (.extendInflightDeadline (.list .dayClose) identity (now + extendSeconds)) (by simp)
            (by simp) (Or.inr rfl) rfl
      · obtain rfl := Option.some.inj hstep
        exact OneOp.same
      · cases hstep
  | reap now limit =>
      rw [step] at hstep
      split at hstep
      · obtain rfl := Option.some.inj hstep
        exact StoreStep.op (.reapExpiredInflight (.list .dayClose) now limit) (by simp) (by simp) (Or.inr rfl) rfl
      · cases hstep

end StoreStep

/-! ## Runs -/

section Runs

variable {cfg : Config} {s : Store} {acts : List Act} {c : Coordinator}

theorem wf_init (hs : ∀ i, (s.inflight (.list .dayClose)).get i = none) : Wf cfg (Coordinator.init s) := by
  refine ⟨custodians_nil hs, ⟨fun _ => rfl, ?_, tracked_empty, Nat.zero_le _⟩, fun _ => rfl, trivial⟩
  intro i job h
  cases h

theorem wf_of_run (hs : ∀ i, (s.inflight (.list .dayClose)).get i = none)
    (hok : Respects (step cfg) StepOk (Coordinator.init s) acts)
    (hrun : exec (step cfg) (Coordinator.init s) acts = some c) : Wf cfg c :=
  exec_invariant (fun _ _ _ h hok hstep => wf_step h hok hstep) acts _ c (wf_init hs) hok hrun

/-- What the coordinator has in hand. -/
def hands (c : Coordinator) : List (String × String) :=
  c.phase.hands ++ localClaims c.leases ++ c.lost.map claimKey

/-- Two workers. -/
def smallPool : Config := ⟨⟨"login1", "b0", 42⟩, 2, 3⟩

/-- A store with one day to close. -/
def oneDay : Store := (enqueueList (Store.init Snapshot.empty) .dayClose "/daily/2026-08-01.tar" true 1000).2

/-- The day is submitted, and the store has no more. -/
def submitOne : List Act := [.beginFill, .claim "0f" 60, .look 0 true, .claim "10" 60]

/-- Its worker finds it complete. -/
def closeOne : List Act :=
  submitOne ++ ([.work 0 (.outcome "complete"), .beginDrain, .collect 100, .finish, .collect 100] : List Act)

theorem inflight_oneDay (i : String) : (oneDay.inflight (.list .dayClose)).get i = none := rfl

theorem stepOk_closeOne : Respects (step smallPool) StepOk (Coordinator.init oneDay) closeOne := by
  have hnames : Respects (step smallPool) (fun c _ => ∀ claim ∈ c.phase.hands, claim.1 ≠ "")
      (Coordinator.init oneDay) closeOne := by decide +kernel
  have hnonce : ':' ∉ "0f".toList ∧ ':' ∉ "10".toList := by decide
  refine hnames.mono fun c a ha hname => ?_
  simp only [closeOne, submitOne, List.cons_append, List.nil_append, List.mem_cons, List.not_mem_nil, or_false] at ha
  rcases ha with rfl | rfl | rfl | rfl | rfl | rfl | rfl | rfl | rfl
  case inr.inl => exact hnonce.1
  case inr.inr.inl => exact hname
  case inr.inr.inr.inl => exact hnonce.2
  all_goals trivial

/-- The job has left the store at the end. -/
theorem exists_run_closeOne : ∃ c, exec (step smallPool) (Coordinator.init oneDay) closeOne = some c ∧
    custody oneDay (.list .dayClose, "/daily/2026-08-01.tar") ≠ .absent ∧
      custody c.store (.list .dayClose, "/daily/2026-08-01.tar") = .absent := by
  have heval : (exec (step smallPool) (Coordinator.init oneDay) closeOne).any (fun c => decide
      (custody oneDay (.list .dayClose, "/daily/2026-08-01.tar") ≠ .absent ∧
        custody c.store (.list .dayClose, "/daily/2026-08-01.tar") = .absent)) = true := by decide +kernel
  obtain ⟨c, hrun, h⟩ := (Option.any_eq_true _ _).mp heval
  exact ⟨c, hrun, of_decide_eq_true h⟩

/-- **One custodian**: a day-close job is in flight in the store exactly when the coordinator has its claim, and it has
no job twice. -/
theorem closing_of_run (hs : ∀ i, (s.inflight (.list .dayClose)).get i = none)
    (hok : Respects (step cfg) StepOk (Coordinator.init s) acts)
    (hrun : exec (step cfg) (Coordinator.init s) acts = some c) :
    ((hands c).map Prod.fst).Nodup ∧ ∀ i token,
      (∃ e, (c.store.inflight (.list .dayClose)).get i = some e ∧ e.owner = token) ↔ (i, token) ∈ hands c := by
  have h := (wf_of_run hs hok hrun).custodians
  exact ⟨h.inHand.nodup, h.inFlight_iff⟩

theorem closing_of_run_closeOne : ∃ c, exec (step smallPool) (Coordinator.init oneDay) closeOne = some c ∧
    ((hands c).map Prod.fst).Nodup ∧ ∀ i token,
      (∃ e, (c.store.inflight (.list .dayClose)).get i = some e ∧ e.owner = token) ↔ (i, token) ∈ hands c := by
  obtain ⟨c, hrun, -⟩ := exists_run_closeOne
  exact ⟨c, hrun, closing_of_run inflight_oneDay stepOk_closeOne hrun⟩

/-- **One worker for a day**: no two workers that go on have one identity, there are no more of them than slots, and
the coordinator has the claim of each, so that the store has its job in flight. -/
theorem oneCloser_of_run (hs : ∀ i, (s.inflight (.list .dayClose)).get i = none)
    (hok : Respects (step cfg) StepOk (Coordinator.init s) acts)
    (hrun : exec (step cfg) (Coordinator.init s) acts = some c) :
    ((running c.tasks).map Call.key).Nodup ∧ (running c.tasks).length ≤ cfg.cap ∧
      ∀ task ∈ running c.tasks, ∃ job, c.leases.get task.key = some job ∧
        ∃ e, (c.store.inflight (.list .dayClose)).get task.key = some e ∧ e.owner = job.ownerToken := by
  have h := wf_of_run hs hok hrun
  refine ⟨h.books.tracked.nodup_running, h.books.tracked.length_running_le.trans h.books.room, ?_⟩
  intro task htask
  obtain ⟨n, -, hget⟩ := h.books.tracked.get_of_mem_running htask
  have hsome : (c.leases.get task.key).isSome = true := by
    rw [h.books.claimed, hget]
    rfl
  obtain ⟨job, hjob⟩ := Option.isSome_iff_exists.mp hsome
  refine ⟨job, hjob, h.custodians.entry ?_⟩
  exact List.mem_append_left _ (List.mem_append_right _ (mem_localClaims hjob))

theorem oneCloser_of_run_closeOne : ∃ c, exec (step smallPool) (Coordinator.init oneDay) closeOne = some c ∧
    ((running c.tasks).map Call.key).Nodup ∧ (running c.tasks).length ≤ 2 ∧
      ∀ task ∈ running c.tasks, ∃ job, c.leases.get task.key = some job ∧
        ∃ e, (c.store.inflight (.list .dayClose)).get task.key = some e ∧ e.owner = job.ownerToken := by
  obtain ⟨c, hrun, -⟩ := exists_run_closeOne
  exact ⟨c, hrun, oneCloser_of_run inflight_oneDay stepOk_closeOne hrun⟩

end Runs

/-! ## Backoff -/

section Backoff

variable {cfg : Config} {c c' : Coordinator} {a : Act} {tar : String} {streak : ℕ} {t now : ℚ}

theorem yieldDelay_mono : Monotone yieldDelay := by
  intro m n hmn
  unfold yieldDelay
  refine min_le_min_left 300 (mul_le_mul_of_nonneg_left ?_ (by norm_num))
  exact pow_le_pow_right₀ (by norm_num) (min_le_min_right 4 (Nat.sub_le_sub_right hmn 1))

theorem le_yieldDelay (n : ℕ) : 30 ≤ yieldDelay n := by
  refine le_min (by norm_num) ?_
  have hpow : (1 : ℚ) ≤ 2 ^ min (n - 1) 4 := one_le_pow₀ (by norm_num)
  linarith

/-- The worker yielded, and the tar has to wait. -/
def Result.yields (result : Result) : Bool := !result.failed && !result.isComplete && result.waits

/-- The yields of a tar in a row. -/
def yieldStreak (c : Coordinator) (tar : String) : ℕ := (c.backoff.get (normpath tar)).elim 0 Backoff.yieldStreak

/-- The tar waits since this time, after so many yields at least. -/
def Resting (tar : String) (streak : ℕ) (t : ℚ) (c : Coordinator) : Prop :=
  ∃ e, c.backoff.get (normpath tar) = some e ∧ streak ≤ e.yieldStreak ∧ t + yieldDelay streak ≤ e.yieldUntil

/-- The clock does not run back, and no worker finds the day of this tar complete. -/
def StillOpen (tar : String) (t : ℚ) (c : Coordinator) : Act → Prop
  | .collect now => t ≤ now ∧ ∀ identity n todo result, c.phase = .drain ((identity, n) :: todo) →
      normpath identity = normpath tar → (c.tasks[n]?).bind Call.result = some result → result.isComplete = false
  | _ => True

theorem get_recordYieldBackoff (backoff : JanitorDeferTracker) (tar : String) (now : ℚ) :
    (backoff.recordYieldBackoff tar now).get (normpath tar) =
      some ⟨(backoff.get (normpath tar)).elim 0 Backoff.yieldStreak + 1,
        now + yieldDelay ((backoff.get (normpath tar)).elim 0 Backoff.yieldStreak + 1)⟩ := by
  unfold JanitorDeferTracker.recordYieldBackoff
  rw [get_set, if_pos rfl]

/-- What is noted for another tar does not matter. -/
theorem get_noteResult_of_ne (backoff : JanitorDeferTracker) {identity : String} (result : Result) (now : ℚ)
    (hne : normpath tar ≠ normpath identity) :
    (noteResult backoff identity result now).get (normpath tar) = backoff.get (normpath tar) := by
  unfold noteResult
  split_ifs
  · rfl
  · unfold JanitorDeferTracker.clearTar
    rw [get_pop, if_neg hne]
  · unfold JanitorDeferTracker.recordYieldBackoff
    rw [get_set, if_neg hne]
  · rfl

theorem resting_collect (h : Resting tar streak t c) {identity : String} {n : ℕ} {todo : List (String × ℕ)}
    (hnow : t ≤ now) (hopen : normpath identity = normpath tar → ∀ result,
      (c.tasks[n]?).bind Call.result = some result → result.isComplete = false) :
    Resting tar streak t (collect c identity n todo now) := by
  obtain ⟨e, he, hstreak, huntil⟩ := h
  unfold collect
  cases hresult : (c.tasks[n]?).bind Call.result with
  | none => exact ⟨e, he, hstreak, huntil⟩
  | some result =>
      show ∃ e, (noteResult c.backoff identity result now).get (normpath tar) = some e ∧ _
      by_cases hsame : normpath identity = normpath tar
      · unfold noteResult
        rw [hopen hsame result hresult, if_neg Bool.false_ne_true]
        split_ifs
        · exact ⟨e, he, hstreak, huntil⟩
        · -- one more yield: a longer delay, counted from a later time
          have hget := get_recordYieldBackoff c.backoff identity now
          rw [hsame, he, Option.elim_some] at hget
          refine ⟨_, hget, Nat.le_succ_of_le hstreak, ?_⟩
          exact add_le_add hnow (yieldDelay_mono (Nat.le_succ_of_le hstreak))
        · exact ⟨e, he, hstreak, huntil⟩
      · rw [get_noteResult_of_ne c.backoff result now (Ne.symm hsame)]
        exact ⟨e, he, hstreak, huntil⟩

/-- **Every step leaves the backoff of an open tar.** -/
theorem resting_step (h : Resting tar streak t c) (hopen : StillOpen tar t c a)
    (hstep : step cfg c a = some c') : Resting tar streak t c' := by
  have hsame : c'.backoff = c.backoff → Resting tar streak t c' := by
    intro heq
    unfold Resting
    rw [heq]
    exact h
  cases a with
  | other op =>
      rw [step] at hstep
      split_ifs at hstep
      obtain ⟨s, -, rfl⟩ := Option.map_eq_some_iff.mp hstep
      exact h
  | work n result =>
      rw [step] at hstep
      obtain ⟨tasks, -, rfl⟩ := Option.map_eq_some_iff.mp hstep
      exact h
  | collect now =>
      rw [step] at hstep
      split at hstep
      · next identity n todo hphase =>
          obtain rfl := Option.some.inj hstep
          exact resting_collect h hopen.1 fun hnorm result hresult =>
            hopen.2 identity n todo result hphase hnorm hresult
      · obtain rfl := Option.some.inj hstep
        exact h
      · cases hstep
  | beginFill =>
      rw [step] at hstep
      split at hstep
      · obtain rfl := Option.some.inj hstep
        refine hsame ?_
        unfold beginFill
        dsimp only
        split_ifs
        all_goals rfl
      · cases hstep
  | claim nonce deadline =>
      rw [step] at hstep
      split at hstep
      · obtain rfl := Option.some.inj hstep
        refine hsame ?_
        unfold claimNext
        split_ifs
        · rcases claimList c.store .dayClose (cfg.token nonce) deadline with ⟨_ | (_ | job), s⟩
          all_goals rfl
        · rfl
      · cases hstep
  | look now submits =>
      rw [step] at hstep
      split at hstep
      · obtain rfl := Option.some.inj hstep
        refine hsame ?_
        unfold lookAtClaim
        split_ifs
        all_goals rfl
      · cases hstep
  | retry =>
      rw [step] at hstep
      split at hstep
      · next job todo hphase =>
          obtain rfl := Option.some.inj hstep
          refine hsame ?_
          unfold bumpAttempt
          rcases bumpJobAttempt c.store (.list .dayClose) job.identity with ⟨_ | attempt, s⟩
          all_goals rfl
      · cases hstep
  | protect now =>
      rw [step] at hstep
      split at hstep
      · obtain rfl := Option.some.inj hstep
        exact h
      · obtain rfl := Option.some.inj hstep
        exact h
      · cases hstep
  | _ =>
      rw [step] at hstep
      split at hstep
      · obtain rfl := Option.some.inj hstep
        exact h
      · cases hstep

/-- A tar that is submitted does not rest any more. -/
theorem Resting.le_now (h : Resting tar streak t c) {budget : ℕ} {job : ClaimedJob} {submits : Bool}
    (hsame : normpath job.identity = normpath tar)
    (hsubmitted : (lookAtClaim c budget job now submits).tasks ≠ c.tasks) : t + yieldDelay streak ≤ now := by
  obtain ⟨e, he, -, huntil⟩ := h
  have hactive : c.backoff.yieldBackoffActive job.identity now = decide (now < e.yieldUntil) := by
    unfold JanitorDeferTracker.yieldBackoffActive
    rw [hsame, he, Option.any_some]
  by_contra hearly
  apply hsubmitted
  unfold lookAtClaim
  rw [hactive, if_pos (decide_eq_true ((not_le.mp hearly).trans_le huntil))]
  rfl

/-- **Backoff**: after a worker yielded at some time, its tar is not submitted again before the delay for all the
yields in a row is over, 30 seconds at least, whatever comes in between, unless its day is found complete. -/
theorem backoff_of_run {acts : List Act} {u u' : Coordinator} {identity : String} {n : ℕ}
    {todo : List (String × ℕ)} {result : Result} {budget : ℕ} {job : ClaimedJob} {submits : Bool}
    (hphase : c.phase = .drain ((identity, n) :: todo)) (hresult : (c.tasks[n]?).bind Call.result = some result)
    (hyields : result.yields = true) (hcollect : step cfg c (.collect t) = some c')
    (hopen : Respects (step cfg) (StillOpen identity t) c' acts) (hrun : exec (step cfg) c' acts = some u)
    (hlook : u.phase = .look budget job) (hsame : normpath job.identity = normpath identity)
    (hstep : step cfg u (.look now submits) = some u') (hsubmitted : u'.tasks ≠ u.tasks) :
    t + yieldDelay (yieldStreak c identity + 1) ≤ now ∧ t + 30 ≤ now := by
  have hrest : Resting identity (yieldStreak c identity + 1) t c' := by
    rw [step, hphase] at hcollect
    obtain rfl := Option.some.inj hcollect
    unfold Result.yields at hyields
    rw [Bool.and_eq_true, Bool.and_eq_true, Bool.not_eq_true', Bool.not_eq_true'] at hyields
    obtain ⟨⟨hfailed, hcomplete⟩, hwaits⟩ := hyields
    unfold collect
    rw [hresult]
    show ∃ e, (noteResult c.backoff identity result t).get (normpath identity) = some e ∧ _
    unfold noteResult
    rw [hfailed, hcomplete, hwaits]
    exact ⟨_, get_recordYieldBackoff c.backoff identity t, Nat.le_refl _, le_refl _⟩
  have hend := exec_invariant (fun _ _ _ h hopen hstep => resting_step h hopen hstep) acts c' u hrest hopen hrun
  have hlooked : u' = lookAtClaim u budget job now submits := by
    rw [step, hlook] at hstep
    exact (Option.some.inj hstep).symm
  have hnow := hend.le_now hsame (hlooked ▸ hsubmitted)
  exact ⟨hnow, (add_le_add_right (le_yieldDelay _) t).trans hnow⟩

/-- The worker of the day has yielded, and the job is queued again. -/
def yielded : Coordinator :=
  { Coordinator.init oneDay with
    tasks := [⟨"/daily/2026-08-01.tar", (), some (.outcome "yielded")⟩]
    phase := .drain [("/daily/2026-08-01.tar", 0)] }

theorem backoff_of_run_yielded : ∃ u u' : Coordinator,
    exec (step smallPool) yielded [.collect 100, .collect 100, .beginFill, .claim "0f" 60] = some u ∧
      step smallPool u (.look 130 true) = some u' ∧ u'.tasks.length = 2 ∧
      (100 : ℚ) + yieldDelay (yieldStreak yielded "/daily/2026-08-01.tar" + 1) ≤ 130 ∧ (100 : ℚ) + 30 ≤ 130 := by
  have hopen : Respects (step smallPool) (StillOpen "/daily/2026-08-01.tar" 100)
      (collect yielded "/daily/2026-08-01.tar" 0 [] 100) [.collect 100, .beginFill, .claim "0f" 60] := by
    refine Respects.cons rfl ⟨le_refl _, ?_⟩ (Respects.cons rfl trivial (Respects.cons rfl trivial trivial))
    intro identity n todo result hphase
    cases hphase
  refine ⟨_, _, rfl, rfl, by decide +kernel, ?_⟩
  refine backoff_of_run (show yielded.phase = _ from rfl) (show _ = some (Result.outcome "yielded") from rfl) rfl rfl
    hopen rfl rfl rfl (show step smallPool _ (.look 130 true) = some _ from rfl) ?_
  intro heq
  exact absurd (congrArg List.length heq) (by decide +kernel)

end Backoff

end DayCloseCoordinator
