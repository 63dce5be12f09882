/-
# Runs of the append coordinator

`Wf` says of a state of the coordinator that its hands are the store's account of the append jobs in flight, that
each tar in its local map is the one call of the pool that may write to this tar, and that no claim was let go of
unless the thread has crashed.  Every step that meets `StepOk` keeps it: the nonces of the tokens are new, and
the reap comes in time after the deadlines of the claims were moved.
-/
import HpcPerfStats.AppendCoordinator

namespace AppendCoordinator

open OrderedDict JobStore DailyTarPaths Custody Transition CallPool

/-! ## The invariant -/

/-- The claims in the day lists and in the batches of the pool. -/
def held (c : Coordinator) : List (String × String) := (buckets c.parked ++ buckets c.claims).map claimKey

/-- The claims in the hands of the step that the thread is in. -/
def Phase.hands : Phase → List (String × String)
  | .look _ job => [claimKey job]
  | .giveBack jobs => jobs.map claimKey
  | .retry jobs _ => jobs.map claimKey
  | .bumped _ job jobs _ => (job :: jobs).map claimKey
  | .requeue jobs _ => jobs.map claimKey
  | .handOff _ _ jobs _ => jobs.map claimKey
  | .finish _ jobs _ => jobs.map claimKey
  | _ => []

/-- The local maps agree with the calls of the pool. -/
structure Books (cfg : Config) (c : Coordinator) : Prop where
  claimed : ∀ tar, (c.claims.get tar).isSome = (c.inflight.get tar).isSome
  tracked : Tracked c.inflight c.tasks
  task : ∀ tar n jobs, c.inflight.get tar = some n → c.claims.get tar = some jobs →
    ∃ result, c.tasks[n]? = some ⟨tar, jobs.map ClaimedJob.identity, result⟩
  named : ∀ job ∈ buckets c.parked ++ buckets c.claims, job.identity ≠ ""
  room : c.inflight.size ≤ max 1 cfg.cap

/-- A writer of this tar had these jobs in its batch and did them; what it passed over was handed to the ingest, up to
these paths. -/
def Done (c : Coordinator) (tar : String) (jobs : List ClaimedJob) (paths : List String) : Prop :=
  ∃ (n : ℕ) (batch : List String) (result : Result), c.tasks[n]? = some ⟨tar, batch, some result⟩ ∧
    result.isDone = true ∧ (∀ job ∈ jobs, job.identity ∈ batch) ∧ ∀ path ∈ handoffPaths result, path ∈ c.handed ∨ path ∈ paths

/-- What is true where the thread is. -/
def PhaseOk (cfg : Config) (c : Coordinator) : Phase → Prop
  | .submit f _ => f.cap ≤ max 1 cfg.cap
  | .claim f => f.cap ≤ max 1 cfg.cap
  | .look f _ => f.cap ≤ max 1 cfg.cap
  | .drain todo => Tracks c.inflight todo
  | .retry _ todo => Tracks c.inflight todo
  | .bumped _ _ _ todo => Tracks c.inflight todo
  | .requeue _ todo => Tracks c.inflight todo
  | .handOff paths tar jobs todo => Tracks c.inflight todo ∧ Done c tar jobs paths
  | .finish tar jobs todo => Tracks c.inflight todo ∧ Done c tar jobs []
  | .protect since todo => ∀ claim ∈ held c, claim.1 ∈ todo ∨ Guarded c.store (.list .append) since claim.1
  | .reap since => ∀ claim ∈ held c, Guarded c.store (.list .append) since claim.1
  | _ => True

structure Wf (cfg : Config) (c : Coordinator) : Prop where
  custodians : Custodians cfg.toProcess (.list .append) c.store (c.phase.hands ++ held c ++ c.lost.map claimKey)
  books : Books cfg c
  whole : c.phase ≠ .crashed → c.lost = []
  here : PhaseOk cfg c c.phase

/-- The nonces are new and without a colon, the clock does not run back while deadlines are moved, and the reap
comes before the first of them is over. -/
def StepOk (c : Coordinator) : Act → Prop
  | .claim nonce _ => ':' ∉ nonce.toList
  | .protect now => ∀ since todo, c.phase = .protect since todo → since ≤ now
  | .reap now _ => ∀ since, c.phase = .reap since → now - inflightReapGraceFloor < since + extendSeconds
  | _ => True

/-! ## The day lists -/

theorem buckets_add (lists : DayLists) {day : String} (hday : day ≠ "") (job : ClaimedJob) :
    (buckets (lists.add day job)).Perm (job :: buckets lists) := by
  unfold DayLists.add
  rw [if_neg hday]
  refine (buckets_set lists day _).trans ?_
  rw [List.append_assoc]
  refine List.perm_middle.trans (List.Perm.cons job ?_)
  cases hget : lists.get day with
  | none =>
      rw [buckets_pop_of_none hget]
      exact List.Perm.refl _
  | some bucket => exact (buckets_of_get hget).symm

/-- **A batch leaves its day**, with nothing else. -/
theorem buckets_popBatch (lists : DayLists) (day : String) (n : ℕ) :
    (buckets lists).Perm ((lists.popBatch day n).1 ++ buckets (lists.popBatch day n).2) := by
  unfold DayLists.popBatch
  split_ifs with hnone
  · exact List.Perm.refl _
  · cases hget : lists.get day with
    | none => exact List.Perm.refl _
    | some bucket =>
        dsimp only
        split_ifs with hempty
        · have hall : bucket.take n = bucket := by
            have happend := List.take_append_drop n bucket
            rw [hempty, List.append_nil] at happend
            exact happend
          rw [hall]
          exact buckets_of_get hget
        · refine buckets_set_of_append ?_
          rw [hget, Option.getD_some, List.take_append_drop]

/-! ## A coordinator with some claims in hand -/

/-- A state whose thread has not crashed, with these claims in hand beside the local maps; the phase takes no
part. -/
structure Steady (cfg : Config) (c : Coordinator) (hs : List (String × String)) : Prop where
  custodians : Custodians cfg.toProcess (.list .append) c.store (hs ++ held c)
  books : Books cfg c
  lost : c.lost = []

section Steady

variable {cfg : Config} {c : Coordinator} {hs : List (String × String)} {job : ClaimedJob}

/-- The state with a phase that holds these claims. -/
theorem Steady.wf (h : Steady cfg c hs) (phase : Phase) (hhands : phase.hands = hs) (hok : PhaseOk cfg c phase) :
    Wf cfg (c.goto phase) := by
  refine ⟨?_, ⟨h.books.claimed, h.books.tracked, h.books.task, h.books.named, h.books.room⟩, fun _ => h.lost, ?_⟩
  · show Custodians cfg.toProcess (.list .append) c.store (phase.hands ++ held c ++ c.lost.map claimKey)
    rw [hhands, h.lost, List.map_nil, List.append_nil]
    exact h.custodians
  · cases phase with
    | _ => exact hok

theorem Wf.steady (h : Wf cfg c) (hcrashed : c.phase ≠ .crashed) : Steady cfg c c.phase.hands := by
  have hlost := h.whole hcrashed
  have hcustodians := h.custodians
  rw [hlost, List.map_nil, List.append_nil] at hcustodians
  exact ⟨hcustodians, h.books, hlost⟩

/-- The store changes under the same local maps. -/
theorem Steady.of_store (h : Steady cfg c hs) {s : Store} (hs' : List (String × String))
    (hs : Custodians cfg.toProcess (.list .append) s (hs' ++ held c)) : Steady cfg { c with store := s } hs' :=
  ⟨hs, ⟨h.books.claimed, h.books.tracked, h.books.task, h.books.named, h.books.room⟩, h.lost⟩

theorem Steady.congr (h : Steady cfg c hs) {s : Store}
    (hinflight : s.inflight (.list .append) = c.store.inflight (.list .append)) :
    Steady cfg { c with store := s } hs :=
  h.of_store _ (h.custodians.congr hinflight)

theorem Steady.ackJob (h : Steady cfg c (claimKey job :: hs)) : Steady cfg (c.ackJob job) hs :=
  h.of_store _ h.custodians.settle.1

theorem Steady.requeueJob (h : Steady cfg c (claimKey job :: hs)) : Steady cfg (c.requeueJob job) hs :=
  h.of_store _ (h.custodians.giveBack none).1

/-- A claim is parked. -/
theorem Steady.park (h : Steady cfg c [claimKey job]) {day : String} (hday : day ≠ "") (hname : job.identity ≠ "") :
    Steady cfg { c with parked := c.parked.add day job } [] := by
  have hperm := buckets_add c.parked hday job
  refine ⟨h.custodians.perm ?_, ⟨h.books.claimed, h.books.tracked, h.books.task, ?_, h.books.room⟩, h.lost⟩
  · show (claimKey job :: held c).Perm ((buckets (c.parked.add day job) ++ buckets c.claims).map claimKey)
    unfold held
    rw [← List.map_cons]
    exact (hperm.append_right (buckets c.claims)).symm.map claimKey
  · intro job' hjob'
    rcases List.mem_append.mp hjob' with hparked | hclaims
    · rcases List.mem_cons.mp (hperm.mem_iff.mp hparked) with rfl | hold
      · exact hname
      · exact h.books.named job' (List.mem_append_left _ hold)
    · exact h.books.named job' (List.mem_append_right _ hclaims)

/-- The batch of a day is taken in hand. -/
theorem Steady.popBatch (h : Steady cfg c []) (day : String) (n : ℕ) :
    Steady cfg { c with parked := (c.parked.popBatch day n).2 } ((c.parked.popBatch day n).1.map claimKey) ∧
      ∀ job ∈ (c.parked.popBatch day n).1, job.identity ≠ "" := by
  have hperm := buckets_popBatch c.parked day n
  have hmem : ∀ job, job ∈ (c.parked.popBatch day n).1 ∨ job ∈ buckets (c.parked.popBatch day n).2 →
      job.identity ≠ "" :=
    fun job hjob => h.books.named job (List.mem_append_left _ (hperm.mem_iff.mpr (List.mem_append.mpr hjob)))
  refine ⟨⟨h.custodians.perm ?_, ⟨h.books.claimed, h.books.tracked, h.books.task, ?_, h.books.room⟩, h.lost⟩, ?_⟩
  · show (held c).Perm ((c.parked.popBatch day n).1.map claimKey ++
      (buckets (c.parked.popBatch day n).2 ++ buckets c.claims).map claimKey)
    unfold held
    rw [← List.map_append, ← List.append_assoc]
    exact (hperm.append_right (buckets c.claims)).map claimKey
  · intro job hjob
    rcases List.mem_append.mp hjob with hparked | hclaims
    · exact hmem job (Or.inr hparked)
    · exact h.books.named job (List.mem_append_right _ hclaims)
  · exact fun job hjob => hmem job (Or.inl hjob)

/-- **A batch goes to the pool**, for a tar that has no writer. -/
theorem Steady.record {jobs : List ClaimedJob} (h : Steady cfg c (jobs.map claimKey))
    (hnames : ∀ job ∈ jobs, job.identity ≠ "") {tar : String} (hfree : (c.inflight.get tar).isSome = false)
    (hroom : c.inflight.size + 1 ≤ max 1 cfg.cap) : Steady cfg (c.record tar jobs) [] := by
  have hnone : c.claims.get tar = none := by
    rw [← Option.not_isSome_iff_eq_none, h.books.claimed, hfree]
    exact Bool.false_ne_true
  have hperm := buckets_set c.claims tar jobs
  rw [buckets_pop_of_none hnone] at hperm
  refine ⟨h.custodians.perm ?_, ⟨?_, ?_, ?_, ?_, ?_⟩, h.lost⟩
  · show (jobs.map claimKey ++ held c).Perm ((buckets c.parked ++ buckets (c.claims.set tar jobs)).map claimKey)
    unfold held
    rw [← List.map_append, ← List.append_assoc]
    refine List.Perm.map claimKey ?_
    calc jobs ++ buckets c.parked ++ buckets c.claims
        _ |>.Perm (buckets c.parked ++ jobs ++ buckets c.claims) := List.perm_append_comm.append_right _
        _ |>.Perm (buckets c.parked ++ buckets (c.claims.set tar jobs)) := by
            rw [List.append_assoc]
            exact hperm.symm.append_left _
  · intro tar'
    show ((c.claims.set tar jobs).get tar').isSome = ((c.inflight.set tar c.tasks.length).get tar').isSome
    rw [isSome_get_set, isSome_get_set, h.books.claimed]
  · exact h.books.tracked.submit (Option.not_isSome_iff_eq_none.mp (Bool.not_eq_true _ ▸ hfree)) _
  · intro tar' n jobs' hinflight hclaims
    have hinflight' : (c.inflight.set tar c.tasks.length).get tar' = some n := hinflight
    have hclaims' : (c.claims.set tar jobs).get tar' = some jobs' := hclaims
    rw [get_set] at hinflight' hclaims'
    by_cases htar : tar' = tar
    · rw [if_pos htar, Option.some.injEq] at hinflight' hclaims'
      rw [← hinflight', ← hclaims', htar]
      exact ⟨none, getElem?_submit⟩
    · rw [if_neg htar] at hinflight' hclaims'
      obtain ⟨result, hresult⟩ := h.books.task tar' n jobs' hinflight' hclaims'
      exact ⟨result, getElem?_of_submit _ hresult⟩
  · intro job hjob
    rcases List.mem_append.mp hjob with hparked | hclaims
    · exact h.books.named job (List.mem_append_left _ hparked)
    · rcases List.mem_append.mp (hperm.mem_iff.mp hclaims) with hbatch | hrest
      · exact hnames job hbatch
      · exact h.books.named job (List.mem_append_right _ hrest)
  · show (c.inflight.set tar c.tasks.length).size ≤ max 1 cfg.cap
    rw [size_set, hfree]
    exact hroom

/-- The batch of a tar whose writer has returned is taken in hand. -/
theorem Steady.pop (h : Steady cfg c []) {tar : String} {n : ℕ} {paths : List String} {result : Result}
    (hinflight : c.inflight.get tar = some n) (hn : c.tasks[n]? = some ⟨tar, paths, some result⟩) :
    ∃ jobs, c.claims.get tar = some jobs ∧ paths = jobs.map ClaimedJob.identity ∧
      Steady cfg { c with inflight := c.inflight.pop tar, claims := c.claims.pop tar } (jobs.map claimKey) := by
  have hsome : (c.claims.get tar).isSome = true := by
    rw [h.books.claimed, hinflight]
    rfl
  obtain ⟨jobs, hjobs⟩ := Option.isSome_iff_exists.mp hsome
  obtain ⟨result', hn'⟩ := h.books.task tar n jobs hinflight hjobs
  rw [hn, Option.some.injEq, Call.mk.injEq] at hn'
  have hperm := buckets_of_get hjobs
  refine ⟨jobs, hjobs, hn'.2.1, ⟨h.custodians.perm ?_, ⟨?_, ?_, ?_, ?_, ?_⟩, h.lost⟩⟩
  · show (held c).Perm (jobs.map claimKey ++ (buckets c.parked ++ buckets (c.claims.pop tar)).map claimKey)
    unfold held
    rw [← List.map_append, ← List.append_assoc]
    refine List.Perm.map claimKey ?_
    refine (hperm.append_left (buckets c.parked)).trans ?_
    rw [← List.append_assoc]
    exact List.perm_append_comm.append_right _
  · intro tar'
    show ((c.claims.pop tar).get tar').isSome = ((c.inflight.pop tar).get tar').isSome
    rw [isSome_get_pop, isSome_get_pop, h.books.claimed]
  · exact h.books.tracked.pop hinflight hn
  · intro tar' n' jobs' hinflight' hclaims'
    have hinflight'' : (c.inflight.pop tar).get tar' = some n' := hinflight'
    have hclaims'' : (c.claims.pop tar).get tar' = some jobs' := hclaims'
    rw [get_pop] at hinflight'' hclaims''
    split_ifs at hinflight'' with htar
    rw [if_neg htar] at hclaims''
    exact h.books.task tar' n' jobs' hinflight'' hclaims''
  · intro job hjob
    rcases List.mem_append.mp hjob with hparked | hclaims
    · exact h.books.named job (List.mem_append_left _ hparked)
    · exact h.books.named job (List.mem_append_right _
        (hperm.mem_iff.mpr (List.mem_append_right jobs hclaims)))
  · exact (size_pop_le _ _).trans h.books.room

end Steady

/-! ## The steps of the fill -/

section FillSteps

variable {cfg : Config} {c : Coordinator} {f : Fill} {job : ClaimedJob}

theorem wf_loopHead (h : Steady cfg c []) (hcap : f.cap ≤ max 1 cfg.cap) : Wf cfg (c.loopHead f) := by
  unfold Coordinator.loopHead
  split_ifs
  · exact h.wf _ rfl hcap
  · exact h.wf _ rfl trivial

theorem wf_beginFill (h : Steady cfg c []) (headroomOk fileCacheOk : Bool) :
    Wf cfg (beginFill cfg c headroomOk fileCacheOk) := by
  unfold beginFill
  split_ifs
  · exact h.wf _ rfl trivial
  · exact wf_loopHead h (le_max_right 1 cfg.cap)
  · exact h.wf _ rfl trivial
  · exact wf_loopHead h (min_le_right 2 (max 1 cfg.cap))

theorem wf_submitBatch (h : Steady cfg c []) (hcap : f.cap ≤ max 1 cfg.cap) (hroom : c.inflight.size < f.cap)
    (day : String) (days : List String) (tar : String) (submits : Bool) :
    Wf cfg (submitBatch cfg c f day days tar submits) := by
  obtain ⟨hbatch, hnames⟩ := h.popBatch day (min cfg.batchSize (c.parked.peekLen day))
  unfold submitBatch
  dsimp only
  split_ifs with hbusy hempty
  · exact h.wf _ rfl hcap
  · rw [hempty] at hbatch
    exact hbatch.wf _ rfl hcap
  · exact hbatch.wf _ rfl trivial
  · have hfree : (c.inflight.get tar).isSome = false := Bool.eq_false_of_not_eq_true hbusy
    have hone : c.inflight.size + 1 ≤ max 1 cfg.cap := by omega
    exact (hbatch.record hnames hfree hone).wf _ rfl hcap

theorem wf_submitDay (h : Steady cfg c []) (hcap : f.cap ≤ max 1 cfg.cap) (day : String) (days : List String)
    (appendLeft ingestLeft : ℕ) (discoverBusy : Bool) (fileDate : Option Date) (submits : Bool) :
    Wf cfg (submitDay cfg c f day days appendLeft ingestLeft discoverBusy fileDate submits) := by
  have hnext : Wf cfg (c.goto (.submit f days)) := h.wf _ rfl hcap
  unfold submitDay
  dsimp only
  split_ifs with hfull
  · exact h.wf _ rfl hcap
  · exact hnext
  · exact hnext
  · cases dailyTarPath cfg.tgzArchiveDir fileDate with
    | none => exact hnext
    | some tar => exact wf_submitBatch h hcap (not_le.mp hfull) day days tar submits

theorem wf_claimNext (h : Steady cfg c []) (hcap : f.cap ≤ max 1 cfg.cap) {nonce : String}
    (hnonce : ':' ∉ nonce.toList) (deadline : ℚ) : Wf cfg (claimNext cfg c f nonce deadline) := by
  unfold claimNext
  split_ifs
  · exact h.wf _ rfl trivial
  · exact h.wf _ rfl trivial
  · exact h.wf _ rfl trivial
  · obtain ⟨found, s, hclaim, hcustodians⟩ := h.custodians.claimList hnonce deadline
    rw [hclaim]
    cases found with
    | none => exact wf_loopHead (h.of_store [] hcustodians) hcap
    | some job => exact (h.of_store [claimKey job] hcustodians).wf _ rfl hcap

theorem isoformat_ne_empty (d : Date) : d.isoformat ≠ "" := by
  have hnone : strptime "" = none := by decide
  intro hempty
  have hdate := strptime_isoformat d
  rw [hempty, hnone] at hdate
  cases hdate

theorem wf_lookAtClaim (h : Steady cfg c [claimKey job]) (hcap : f.cap ≤ max 1 cfg.cap) (isFile : Bool)
    (fileDate : Option Date) : Wf cfg (lookAtClaim cfg c f job isFile fileDate) := by
  have hskip : Wf cfg ((c.ackJob job).loopHead { f with skipped := f.skipped + 1 }) := wf_loopHead h.ackJob hcap
  unfold lookAtClaim
  dsimp only
  split_ifs with hgone
  · exact hskip
  · cases dailyTarPath cfg.tgzArchiveDir fileDate with
    | none => exact hskip
    | some tar =>
        dsimp only
        cases calendarDateFromDailyTarPath tar with
        | none => exact hskip
        | some day =>
            dsimp only
            split_ifs
            · exact h.requeueJob.wf _ rfl trivial
            · exact wf_loopHead (h.park (isoformat_ne_empty day) fun hempty => hgone (Or.inl hempty)) hcap

end FillSteps

/-! ## The steps of the drain -/

section DrainSteps

variable {cfg : Config} {c : Coordinator} {tar : String} {n : ℕ} {todo : List (String × ℕ)} {job : ClaimedJob}
  {jobs : List ClaimedJob}

/-- A job of the batch is settled. -/
theorem Done.tail {paths : List String} (h : Done c tar (job :: jobs) paths) : Done c tar jobs paths := by
  obtain ⟨n, batch, result, hn, hdone, hjobs, hpaths⟩ := h
  exact ⟨n, batch, result, hn, hdone, fun job' hjob' => hjobs job' (List.mem_cons_of_mem job hjob'), hpaths⟩

/-- A batch that is neither to be tried again nor has failed is done. -/
theorem isDone_outcome {o : ArchiveAppendOutcome} (hsoft : ¬ o.softRequeue = true)
    (hfailed : ¬ (!o.ok && !o.gateSkipped) = true) : (Result.outcome o).isDone = true := by
  have hok : (o.ok || o.gateSkipped) = true := by
    rw [← Bool.not_or, Bool.not_eq_true', Bool.not_eq_false] at hfailed
    exact hfailed
  show (!o.softRequeue && (o.ok || o.gateSkipped)) = true
  rw [hok, Bool.eq_false_of_not_eq_true hsoft]
  rfl

theorem wf_collect (h : Steady cfg c []) (htracks : Tracks c.inflight ((tar, n) :: todo)) :
    Wf cfg (collect c tar n todo) := by
  have hinflight : c.inflight.get tar = some n := htracks.entry (tar, n) List.mem_cons_self
  unfold collect
  cases hn : (c.tasks[n]?).bind Call.result with
  | none => exact h.wf _ rfl htracks.tail
  | some result =>
      dsimp only
      obtain ⟨task, htask, hresult⟩ := Option.bind_eq_some_iff.mp hn
      -- the call is one for this tar
      have hsome : (c.claims.get tar).isSome = true := by
        rw [h.books.claimed, hinflight]
        rfl
      obtain ⟨claimed, hclaimed⟩ := Option.isSome_iff_exists.mp hsome
      obtain ⟨result', htask'⟩ := h.books.task tar n claimed hinflight hclaimed
      obtain rfl := Option.some.inj (htask.symm.trans htask')
      obtain rfl : result' = some result := hresult
      obtain ⟨jobs, hjobs, hbatch, hpop⟩ := h.pop hinflight htask
      rw [hjobs, Option.getD_some]
      have hrest : Tracks (c.inflight.pop tar) todo := htracks.pop
      have hmem : ∀ job ∈ jobs, job.identity ∈ claimed.map ClaimedJob.identity := by
        intro job hjob
        rw [hbatch]
        exact List.mem_map_of_mem hjob
      have hdone : ∀ (result : Result), c.tasks[n]? = some ⟨tar, claimed.map ClaimedJob.identity, some result⟩ →
          result.isDone = true → ∀ paths, (∀ path ∈ handoffPaths result, path ∈ paths) →
          Done { c with inflight := c.inflight.pop tar, claims := c.claims.pop tar } tar jobs paths :=
        fun result hn hisDone paths hpaths =>
          ⟨n, claimed.map ClaimedJob.identity, result, hn, hisDone, hmem, fun path hpath => Or.inr (hpaths path hpath)⟩
      cases result with
      | raised => exact hpop.wf (.retry jobs todo) rfl hrest
      | plain falsy =>
          cases falsy with
          | true => exact hpop.wf (.retry jobs todo) rfl hrest
          | false =>
              exact hpop.wf (.finish tar jobs todo) rfl ⟨hrest, hdone _ htask rfl [] (fun _ h => h)⟩
      | outcome o =>
          simp only [settleBatch]
          split_ifs with hsoft hfailed hnone
          · exact hpop.wf (.requeue jobs todo) rfl hrest
          · exact hpop.wf (.retry jobs todo) rfl hrest
          all_goals have hisDone := isDone_outcome hsoft hfailed
          · refine hpop.wf (.finish tar jobs todo) rfl ⟨hrest, hdone _ htask hisDone [] ?_⟩
            rw [hnone]
            exact fun _ h => h
          · exact hpop.wf (.handOff _ tar jobs todo) rfl ⟨hrest, hdone _ htask hisDone _ fun _ h => h⟩

theorem wf_bumpAttempt (h : Steady cfg c ((job :: jobs).map claimKey)) (htracks : Tracks c.inflight todo) :
    Wf cfg (bumpAttempt c job jobs todo) := by
  have hstore := congrFun (bumpJobAttempt_inflight c.store (.list .append) job.identity) (.list .append)
  unfold bumpAttempt
  rcases hbump : bumpJobAttempt c.store (.list .append) job.identity with ⟨_ | attempt, s⟩
  · rw [hbump] at hstore
    have hnext := h.congr hstore
    refine ⟨?_, ⟨h.books.claimed, h.books.tracked, h.books.task, h.books.named, h.books.room⟩,
      fun hne => absurd rfl hne, trivial⟩
    refine hnext.custodians.perm ?_
    show ((job :: jobs).map claimKey ++ held c).Perm ([] ++ held c ++ (c.lost ++ job :: jobs).map claimKey)
    rw [h.lost, List.nil_append, List.nil_append]
    exact List.perm_append_comm
  · rw [hbump] at hstore
    exact (h.congr hstore).wf (.bumped attempt job jobs todo) rfl htracks

theorem handOffPath_inflight (cfg : Config) (s : Store) (tar : String) (today : ℤ) (plan : Option Plan) :
    (handOffPath cfg s tar today plan).inflight = s.inflight := by
  unfold handOffPath
  cases plan with
  | none => rfl
  | some plan =>
      dsimp only
      split_ifs
      · cases calendarDateFromDailyTarPath tar with
        | none => rfl
        | some day => exact zaddIngest_inflight s _ _ _ _
      · exact enqueueList_inflight s _ _ _ _
      · rfl

theorem enqueueCheapDayClose_inflight (cfg : Config) (s : Store) (tar : String) (tooYoung : Bool) :
    (enqueueCheapDayClose cfg s tar tooYoung).inflight = s.inflight := by
  unfold enqueueCheapDayClose
  split_ifs
  · rfl
  · exact enqueueList_inflight s _ _ _ _

/-- The end of a failed attempt. -/
theorem wf_settle (h : Steady cfg c ((job :: jobs).map claimKey)) (htracks : Tracks c.inflight todo) (attempt : ℤ) :
    Wf cfg { c with
      store := retryOrDeadLetter c.store (.list .append) job attempt cfg.maxAttempts
      phase := .retry jobs todo } :=
  (h.of_store _ (h.custodians.retryOrDeadLetter attempt cfg.maxAttempts)).wf (.retry jobs todo) rfl htracks

/-- A file is handed to the ingest. -/
theorem wf_handOff (h : Steady cfg c (jobs.map claimKey)) {path : String} {paths : List String}
    (htracks : Tracks c.inflight todo) (hdone : Done c tar jobs (path :: paths)) (today : ℤ) (plan : Option Plan) :
    Wf cfg { c with
      store := handOffPath cfg c.store tar today plan
      handed := c.handed ++ [path]
      phase := .handOff paths tar jobs todo } := by
  have hstore := congrFun (handOffPath_inflight cfg c.store tar today plan) (.list .append)
  obtain ⟨n, batch, result, hn, hisDone, hjobs, hpaths⟩ := hdone
  have hnext := h.congr hstore
  refine ⟨?_, ⟨h.books.claimed, h.books.tracked, h.books.task, h.books.named, h.books.room⟩, fun _ => h.lost,
    htracks, n, batch, result, hn, hisDone, hjobs, ?_⟩
  · show Custodians cfg.toProcess (.list .append) _ (jobs.map claimKey ++ held c ++ c.lost.map claimKey)
    rw [h.lost, List.map_nil, List.append_nil]
    exact hnext.custodians
  · intro path' hpath'
    show path' ∈ c.handed ++ [path] ∨ path' ∈ paths
    rcases hpaths path' hpath' with hhanded | hmem
    · exact Or.inl (List.mem_append_left _ hhanded)
    · rcases List.mem_cons.mp hmem with rfl | hrest
      · exact Or.inl (List.mem_append_right _ (List.mem_singleton_self _))
      · exact Or.inr hrest

end DrainSteps

/-! ## The other steps -/

section OtherSteps

variable {cfg : Config} {c : Coordinator}

/-- What is true where the thread is does not depend on the calls that go on. -/
theorem PhaseOk.frame {c' : Coordinator} {phase : Phase} (h : PhaseOk cfg c phase)
    (hheld : held c' = held c) (hinflight : c'.inflight = c.inflight) (hhanded : c'.handed = c.handed)
    (hstore : c'.store.inflight (.list .append) = c.store.inflight (.list .append))
    (htasks : ∀ {n : ℕ} {tar : String} {batch : List String} {result : Result},
      c.tasks[n]? = some ⟨tar, batch, some result⟩ → c'.tasks[n]? = some ⟨tar, batch, some result⟩) :
    PhaseOk cfg c' phase := by
  have hdone : ∀ {tar jobs paths}, Done c tar jobs paths → Done c' tar jobs paths := by
    rintro tar jobs paths ⟨n, batch, result, hn, hrest⟩
    rw [← hhanded] at hrest
    exact ⟨n, batch, result, htasks hn, hrest⟩
  have htracks : ∀ {todo}, Tracks c.inflight todo → Tracks c'.inflight todo := by
    intro todo htodo
    rw [hinflight]
    exact htodo
  cases phase with
  | drain todo => exact htracks h
  | retry jobs todo => exact htracks h
  | bumped attempt job jobs todo => exact htracks h
  | requeue jobs todo => exact htracks h
  | handOff paths tar jobs todo => exact ⟨htracks h.1, hdone h.2⟩
  | finish tar jobs todo => exact ⟨htracks h.1, hdone h.2⟩
  | protect since todo =>
      intro claim hclaim
      rw [hheld] at hclaim
      exact (h claim hclaim).imp_right fun hguarded => hguarded.congr hstore
  | reap since =>
      intro claim hclaim
      rw [hheld] at hclaim
      exact (h claim hclaim).congr hstore
  | _ => exact h

/-- A change of the store that leaves the jobs in flight alone. -/
theorem Wf.congr (h : Wf cfg c) {s : Store}
    (hinflight : s.inflight (.list .append) = c.store.inflight (.list .append)) : Wf cfg { c with store := s } :=
  ⟨h.custodians.congr hinflight,
    ⟨h.books.claimed, h.books.tracked, h.books.task, h.books.named, h.books.room⟩, h.whole,
    h.here.frame rfl rfl rfl hinflight fun hn => hn⟩

/-- **A writer returns**: its call is done, and the others stay as they are. -/
theorem wf_work (h : Wf cfg c) {n : ℕ} {result : Result} {tasks : List Task}
    (hwork : finish c.tasks n result = some tasks) : Wf cfg { c with tasks := tasks } := by
  obtain ⟨tar, paths, hn, hn', hother⟩ := finish_cases hwork
  refine ⟨h.custodians, ⟨h.books.claimed, h.books.tracked.finish hwork, ?_, h.books.named, h.books.room⟩, h.whole,
    h.here.frame rfl rfl rfl rfl (done_of_finish hwork)⟩
  intro tar' m jobs hinflight hclaims
  obtain ⟨result', hm⟩ := h.books.task tar' m jobs hinflight hclaims
  by_cases heq : m = n
  · subst heq
    rw [hn, Option.some.injEq, Call.mk.injEq] at hm
    refine ⟨some result, ?_⟩
    rw [← hm.1, ← hm.2.1]
    exact hn'
  · exact ⟨result', (hother m heq).trans hm⟩

/-- The jobs that are parked or in a batch are moved out of the reach of the reap. -/
theorem mem_appendReapSkipIdentities (h : Books cfg c) {claim : String × String} (hclaim : claim ∈ held c) :
    claim.1 ∈ appendReapSkipIdentities c := by
  obtain ⟨job, hjob, rfl⟩ := List.mem_map.mp hclaim
  have hname : job.identity ≠ "" := h.named job hjob
  unfold appendReapSkipIdentities
  dsimp only
  rw [List.mem_filter, List.mem_dedup]
  refine ⟨?_, bne_iff_ne.mpr hname⟩
  unfold buckets at hjob
  rcases List.mem_append.mp hjob with hparked | hclaims
  · refine List.mem_append_right _ ?_
    obtain ⟨e, he, hmem⟩ := List.mem_flatMap.mp hparked
    refine List.mem_filter.mpr ⟨List.mem_flatMap.mpr ⟨e, he, List.mem_map_of_mem hmem⟩, bne_iff_ne.mpr hname⟩
  · refine List.mem_append_left _ (List.mem_append_right _ ?_)
    obtain ⟨e, he, hmem⟩ := List.mem_flatMap.mp hclaims
    exact List.mem_flatMap.mpr ⟨e, he, List.mem_map_of_mem hmem⟩

theorem wf_protect (h : Steady cfg c []) {since now : ℚ} (hnow : since ≤ now) {identity : String}
    {todo : List String} (hhere : PhaseOk cfg c (.protect since (identity :: todo))) :
    Wf cfg { c with
      store := (extendInflightDeadline c.store (.list .append) identity (now + extendSeconds)).2
      phase := .protect since todo } := by
  refine (h.of_store _ (h.custodians.extend identity _)).wf (.protect since todo) rfl ?_
  intro claim hclaim
  have hcase : claim.1 ∈ todo ∨ claim.1 = identity ∨ Guarded c.store (.list .append) since claim.1 := by
    rcases hhere claim hclaim with hmem | hguarded
    · exact (List.mem_cons.mp hmem).symm.imp_right Or.inl
    · exact Or.inr (Or.inr hguarded)
  refine hcase.imp_right fun hguarded => ?_
  obtain ⟨e, he, -⟩ := h.custodians.entry (show (claim.1, claim.2) ∈ [] ++ held c from hclaim)
  exact Guarded.extend hnow ⟨e, he⟩ hguarded

/-- **The reap** takes none of the claims of this coordinator. -/
theorem wf_reap (h : Steady cfg c []) {since now : ℚ} (hnow : now - inflightReapGraceFloor < since + extendSeconds)
    (hhere : PhaseOk cfg c (.reap since)) (limit : ℤ) :
    Wf cfg { c with store := (reapExpiredInflight c.store (.list .append) now limit).2, phase := .idle } :=
  (h.of_store _ (h.custodians.reap hhere hnow limit)).wf .idle rfl trivial

end OtherSteps

/-! ## Every step -/

/-- **Every step of the coordinator keeps its account with the store.** -/
theorem wf_step {cfg : Config} {c c' : Coordinator} {a : Act} (h : Wf cfg c) (hok : StepOk c a)
    (hstep : step cfg c a = some c') : Wf cfg c' := by
  have hsteady : ∀ {phase : Phase}, c.phase = phase → phase ≠ .crashed → Steady cfg c phase.hands := by
    rintro phase rfl hcrashed
    exact h.steady hcrashed
  have hhere : ∀ {phase : Phase}, c.phase = phase → PhaseOk cfg c phase := by
    rintro phase rfl
    exact h.here
  cases a with
  | other op =>
      rw [step] at hstep
      split_ifs at hstep with hforeign
      obtain ⟨s, hs, rfl⟩ := Option.map_eq_some_iff.mp hstep
      exact h.congr (foreign_inflight h.custodians.minted hforeign hs)
  | work n result =>
      rw [step] at hstep
      obtain ⟨tasks, htasks, rfl⟩ := Option.map_eq_some_iff.mp hstep
      exact wf_work h htasks
  | beginFill headroomOk fileCacheOk =>
      rw [step] at hstep
      split at hstep
      · next hphase =>
          obtain rfl := Option.some.inj hstep
          exact wf_beginFill (hsteady hphase (by simp)) headroomOk fileCacheOk
      · cases hstep
  | submit appendLeft ingestLeft discoverBusy fileDate submits =>
      rw [step] at hstep
      split at hstep
      · next f day days hphase =>
          obtain rfl := Option.some.inj hstep
          exact wf_submitDay (hsteady hphase (by simp)) (hhere hphase) day days appendLeft ingestLeft discoverBusy
            fileDate submits
      · next f hphase =>
          obtain rfl := Option.some.inj hstep
          have hnow := hhere hphase
          exact (hsteady hphase (by simp)).wf _ rfl hnow
      · cases hstep
  | claim nonce deadline =>
      rw [step] at hstep
      split at hstep
      · next f hphase =>
          obtain rfl := Option.some.inj hstep
          exact wf_claimNext (hsteady hphase (by simp)) (hhere hphase) hok deadline
      · cases hstep
  | look isFile fileDate =>
      rw [step] at hstep
      split at hstep
      · next f job hphase =>
          obtain rfl := Option.some.inj hstep
          exact wf_lookAtClaim (hsteady hphase (by simp)) (hhere hphase) isFile fileDate
      · cases hstep
  | giveBack =>
      rw [step] at hstep
      split at hstep
      · next job jobs hphase =>
          obtain rfl := Option.some.inj hstep
          exact (hsteady hphase (by simp)).requeueJob.wf _ rfl trivial
      · next hphase =>
          obtain rfl := Option.some.inj hstep
          exact (hsteady hphase (by simp)).wf _ rfl trivial
      · cases hstep
  | beginDrain =>
      rw [step] at hstep
      split at hstep
      · next hphase =>
          obtain rfl := Option.some.inj hstep
          exact (hsteady hphase (by simp)).wf _ rfl (tracks_entries c.inflight)
      · cases hstep
  | collect =>
      rw [step] at hstep
      split at hstep
      · next tar n todo hphase =>
          obtain rfl := Option.some.inj hstep
          exact wf_collect (hsteady hphase (by simp)) (hhere hphase)
      · next hphase =>
          obtain rfl := Option.some.inj hstep
          exact (hsteady hphase (by simp)).wf _ rfl trivial
      · cases hstep
  | retry =>
      rw [step] at hstep
      split at hstep
      · next job jobs todo hphase =>
          obtain rfl := Option.some.inj hstep
          exact wf_bumpAttempt (hsteady hphase (by simp)) (hhere hphase)
      · next todo hphase =>
          obtain rfl := Option.some.inj hstep
          have hnow := hhere hphase
          exact (hsteady hphase (by simp)).wf _ rfl hnow
      · cases hstep
  | settle =>
      rw [step] at hstep
      split at hstep
      · next attempt job jobs todo hphase =>
          obtain rfl := Option.some.inj hstep
          exact wf_settle (hsteady hphase (by simp)) (hhere hphase) attempt
      · cases hstep
  | requeue =>
      rw [step] at hstep
      split at hstep
      · next job jobs todo hphase =>
          obtain rfl := Option.some.inj hstep
          exact (hsteady hphase (by simp)).requeueJob.wf _ rfl (hhere hphase)
      · next todo hphase =>
          obtain rfl := Option.some.inj hstep
          have hnow := hhere hphase
          exact (hsteady hphase (by simp)).wf _ rfl hnow
      · cases hstep
  | handOff today plan =>
      rw [step] at hstep
      split at hstep
      · next path paths tar jobs todo hphase =>
          obtain rfl := Option.some.inj hstep
          exact wf_handOff (hsteady hphase (by simp)) (hhere hphase).1 (hhere hphase).2 today plan
      · next tar jobs todo hphase =>
          obtain rfl := Option.some.inj hstep
          have hnow := hhere hphase
          exact (hsteady hphase (by simp)).wf _ rfl hnow
      · cases hstep
  | finish tooYoung =>
      rw [step] at hstep
      split at hstep
      · next tar job jobs todo hphase =>
          obtain rfl := Option.some.inj hstep
          have hack := (hsteady hphase (by simp)).ackJob
          exact hack.wf _ rfl ⟨(hhere hphase).1, (hhere hphase).2.tail⟩
      · next tar todo hphase =>
          obtain rfl := Option.some.inj hstep
          have hstore := congrFun (enqueueCheapDayClose_inflight cfg c.store tar tooYoung) (.list .append)
          exact ((hsteady hphase (by simp)).congr hstore).wf (.drain todo) rfl (hhere hphase).1
      · cases hstep
  | beginReap now =>
      rw [step] at hstep
      split at hstep
      · next hphase =>
          obtain rfl := Option.some.inj hstep
          exact (hsteady hphase (by simp)).wf _ rfl fun claim hclaim =>
            Or.inl (mem_appendReapSkipIdentities h.books hclaim)
      · cases hstep
  | protect now =>
      rw [step] at hstep
      split at hstep
      · next since identity todo hphase =>
          obtain rfl := Option.some.inj hstep
          exact wf_protect (hsteady hphase (by simp)) (hok since _ hphase) (hhere hphase)
      · next since hphase =>
          obtain rfl := Option.some.inj hstep
          exact (hsteady hphase (by simp)).wf _ rfl fun claim hclaim =>
            (hhere hphase claim hclaim).resolve_left List.not_mem_nil
      · cases hstep
  | reap now limit =>
      rw [step] at hstep
      split at hstep
      · next since hphase =>
          obtain rfl := Option.some.inj hstep
          exact wf_reap (hsteady hphase (by simp)) (hok since hphase) (hhere hphase) limit
      · cases hstep

end AppendCoordinator
