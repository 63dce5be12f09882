/-
# Runs of the ingest coordinator

`Wf` says of a state of the coordinator that its hands are the store's account of the ingest jobs in flight, that
the four local maps have the same jobs, that the batch in hand fits into the pool, the band and the skip budget,
and that no claim was let go of unless the thread has crashed.  Every step that meets `StepOk` keeps it: the
nonces of the tokens are new, and the reap comes in time after the deadlines of the local jobs were moved.
-/
import HpcPerfStats.IngestCoordinator

namespace IngestCoordinator

open OrderedDict JobStore Custody Transition

/-! ## The invariant -/

/-- A sentinel whose claim the reap has taken. -/
def lapsed (s : Store) (todo : List (String × Slot)) (identity : String) : Bool :=
  decide ((identity, Slot.sentinel) ∈ todo) && ((s.inflight .ingest).get identity).isNone

/-- What the coordinator holds. -/
def handsAt (s : Store) (claims : Dict String ClaimedJob) : Phase → List (String × String)
  | .batch _ rest => rest.map claimKey ++ localClaims claims
  | .gate _ job _ rest => claimKey job :: (rest.map claimKey ++ localClaims claims)
  | .retry job _ _ => claimKey job :: localClaims claims
  | .finish identity job _ => (identity, job.ownerToken) :: localClaims claims
  | .drop todo => (localClaims claims).filter fun c => !lapsed s todo c.1
  | _ => localClaims claims

/-- The local maps have the same jobs. -/
structure Agree (inflight : Dict String Slot) (claims : Dict String ClaimedJob) (submitted : Dict String ℚ)
    (sizes : Dict String ℕ) : Prop where
  claimed : ∀ i, (claims.get i).isSome = (inflight.get i).isSome
  timed : ∀ i, (submitted.get i).isSome = (inflight.get i).isSome
  sized : ∀ i, (sizes.get i).isSome = (inflight.get i).isSome
  names : ∀ i job, claims.get i = some job → job.identity = i ∧ i ≠ ""

/-- So many claims of the batch fit into the pool, the band and the skip budget. -/
structure Fits (cfg : Config) (size : ℕ) (bandUsed : Band → ℕ) (f : Fill) (n : ℕ) : Prop where
  pool : size + n ≤ cfg.pool
  band : ∀ bandCap, f.bandCap = some bandCap → bandUsed f.band + n ≤ bandCap
  budget : n ≤ 1 ∨ f.skipped + n ≤ f.budget

/-- What is true where the thread is. -/
def PhaseOk (cfg : Config) (c : Coordinator) : Phase → Prop
  | .batch f rest => Fits cfg c.inflight.size c.bandUsed f rest.length
  | .gate f job _ rest => Fits cfg c.inflight.size c.bandUsed f (rest.length + 1) ∧ job.identity ≠ ""
  | .drain todo => Tracks c.inflight todo
  | .retry _ _ todo => Tracks c.inflight todo
  | .finish _ _ todo => Tracks c.inflight todo
  | .protect since todo =>
      ∀ i, c.inflight.get i = some .running → i ∈ todo ∨ Guarded c.store .ingest since i
  | .reap since => ∀ i, c.inflight.get i = some .running → Guarded c.store .ingest since i
  | .drop todo => Tracks c.inflight todo
  | _ => True

structure Wf (cfg : Config) (c : Coordinator) : Prop where
  custodians : Custodians cfg.toProcess .ingest c.store (handsAt c.store c.claims c.phase ++ c.lost.map claimKey)
  agree : Agree c.inflight c.claims c.submitted c.sizes
  room : c.inflight.size ≤ cfg.pool
  whole : c.phase ≠ .crashed → c.lost = []
  here : PhaseOk cfg c c.phase

/-- The nonces are new and without a colon, the clock does not run back while deadlines are moved, and the reap
comes before the first of them is over. -/
def StepOk (cfg : Config) (c : Coordinator) : Act → Prop
  | .claim _ nonce _ _ => ':' ∉ nonce.toList
  | .reconcileOrphans nonce => ∀ i e, (c.store.inflight .ingest).get i = some e →
      e.owner ≠ cfg.token nonce
  | .protect now => ∀ since todo, c.phase = .protect since todo → since ≤ now
  | .reap now _ => ∀ since, c.phase = .reap since → now - inflightReapGraceFloor < since + extendSeconds
  | _ => True

/-! ## The local maps -/

section Agree

variable {inflight : Dict String Slot} {claims : Dict String ClaimedJob} {submitted : Dict String ℚ}
  {sizes : Dict String ℕ}

theorem agree_empty : Agree Dict.empty Dict.empty Dict.empty Dict.empty :=
  ⟨fun _ => rfl, fun _ => rfl, fun _ => rfl, fun _ _ h => by cases h⟩

theorem Agree.pop (h : Agree inflight claims submitted sizes) (i : String) :
    Agree (inflight.pop i) (claims.pop i) (submitted.pop i) (sizes.pop i) := by
  refine ⟨?_, ?_, ?_, ?_⟩
  · intro j
    rw [isSome_get_pop, isSome_get_pop, h.claimed]
  · intro j
    rw [isSome_get_pop, isSome_get_pop, h.timed]
  · intro j
    rw [isSome_get_pop, isSome_get_pop, h.sized]
  · intro j job hj
    rw [get_pop] at hj
    split_ifs at hj
    exact h.names j job hj

theorem Agree.set (h : Agree inflight claims submitted sizes) {job : ClaimedJob} (hname : job.identity ≠ "")
    (slot : Slot) (now : ℚ) (size : ℕ) :
    Agree (inflight.set job.identity slot) (claims.set job.identity job) (submitted.set job.identity now)
      (sizes.set job.identity size) := by
  refine ⟨?_, ?_, ?_, ?_⟩
  · intro j
    rw [isSome_get_set, isSome_get_set, h.claimed]
  · intro j
    rw [isSome_get_set, isSome_get_set, h.timed]
  · intro j
    rw [isSome_get_set, isSome_get_set, h.sized]
  · intro j job' hj
    rw [get_set] at hj
    split_ifs at hj with heq
    · obtain rfl := Option.some.inj hj
      exact ⟨heq.symm, heq ▸ hname⟩
    · exact h.names j job' hj

/-- A result is replaced by a sentinel. -/
theorem Agree.sentinel (h : Agree inflight claims submitted sizes) {i : String} {slot : Slot}
    (hi : inflight.get i = some slot) : Agree (inflight.set i .sentinel) claims submitted sizes := by
  have hkeys : ∀ j, ((inflight.set i .sentinel).get j).isSome = (inflight.get j).isSome := by
    intro j
    rw [isSome_get_set]
    split_ifs with hj
    · rw [hj, hi]
      rfl
    · rfl
  refine ⟨?_, ?_, ?_, h.names⟩
  · intro j
    rw [hkeys, h.claimed]
  · intro j
    rw [hkeys, h.timed]
  · intro j
    rw [hkeys, h.sized]

/-- The claim of a local entry. -/
theorem Agree.claim (h : Agree inflight claims submitted sizes) {i : String} {slot : Slot}
    (hi : inflight.get i = some slot) : ∃ job, claims.get i = some job := by
  refine Option.isSome_iff_exists.mp ?_
  rw [h.claimed, hi]
  rfl

end Agree

/-! ## A coordinator with some claims in hand -/

/-- A state whose thread has not crashed, with these claims in hand beside the local maps; the phase takes no
part. -/
structure Steady (cfg : Config) (c : Coordinator) (hs : List (String × String)) : Prop where
  custodians : Custodians cfg.toProcess .ingest c.store (hs ++ localClaims c.claims)
  agree : Agree c.inflight c.claims c.submitted c.sizes
  room : c.inflight.size ≤ cfg.pool
  lost : c.lost = []

section Steady

variable {cfg : Config} {c : Coordinator} {hs : List (String × String)} {i : String} {job : ClaimedJob}

/-- The state with a phase that holds these claims. -/
theorem Steady.wf (h : Steady cfg c hs) {phase : Phase}
    (hhands : handsAt c.store c.claims phase = hs ++ localClaims c.claims) (hok : PhaseOk cfg c phase) :
    Wf cfg (c.goto phase) := by
  refine ⟨?_, h.agree, h.room, fun _ => h.lost, ?_⟩
  · show Custodians cfg.toProcess .ingest c.store (handsAt c.store c.claims phase ++ c.lost.map claimKey)
    rw [hhands, h.lost, List.map_nil, List.append_nil]
    exact h.custodians
  · cases phase with
    | _ => exact hok

theorem Wf.steady (h : Wf cfg c) (hcrashed : c.phase ≠ .crashed)
    (hhands : handsAt c.store c.claims c.phase = hs ++ localClaims c.claims) : Steady cfg c hs := by
  have hlost := h.whole hcrashed
  have hcustodians := h.custodians
  rw [hhands, hlost, List.map_nil, List.append_nil] at hcustodians
  exact ⟨hcustodians, h.agree, h.room, hlost⟩

theorem Steady.goto (h : Steady cfg c hs) (phase : Phase) : Steady cfg (c.goto phase) hs :=
  ⟨h.custodians, h.agree, h.room, h.lost⟩

/-- The store changes, but not the jobs in flight. -/
theorem Steady.congr (h : Steady cfg c hs) {s : Store} (hinflight : s.inflight .ingest = c.store.inflight .ingest) :
    Steady cfg { c with store := s } hs :=
  ⟨h.custodians.congr hinflight, h.agree, h.room, h.lost⟩

theorem Steady.requeueJob (h : Steady cfg c ((i, job.ownerToken) :: hs)) (score : Option ℚ) :
    Steady cfg (c.requeueJob i job score) hs :=
  ⟨(h.custodians.giveBack score).1, h.agree, h.room, h.lost⟩

theorem Steady.ackJob (h : Steady cfg c ((i, job.ownerToken) :: hs)) : Steady cfg (c.ackJob i job) hs :=
  ⟨h.custodians.settle.1, h.agree, h.room, h.lost⟩

/-- A local job is taken in hand. -/
theorem Steady.forget (h : Steady cfg c hs) (hi : c.claims.get i = some job) :
    Steady cfg (c.forget i) ((i, job.ownerToken) :: hs) := by
  refine ⟨?_, h.agree.pop i, (size_pop_le _ _).trans h.room, h.lost⟩
  refine h.custodians.perm ?_
  exact ((localClaims_pop hi).append_left hs).trans List.perm_middle

theorem Steady.forget_of_none (h : Steady cfg c hs) (hi : c.claims.get i = none) : Steady cfg (c.forget i) hs := by
  refine ⟨?_, h.agree.pop i, (size_pop_le _ _).trans h.room, h.lost⟩
  show Custodians cfg.toProcess .ingest c.store (hs ++ localClaims (c.claims.pop i))
  rw [localClaims_pop_of_none hi]
  exact h.custodians

/-- A claim in hand is not in the local maps. -/
theorem Steady.fresh (h : Steady cfg c (claimKey job :: hs)) : c.claims.get job.identity = none := by
  rw [Option.eq_none_iff_forall_ne_some]
  intro other hother
  have hnodup := h.custodians.inHand.nodup
  rw [List.cons_append, List.map_cons, List.nodup_cons] at hnodup
  refine hnodup.1 (List.mem_map.mpr ⟨(job.identity, other.ownerToken), ?_, rfl⟩)
  exact List.mem_append_right hs (mem_localClaims hother)

/-- A claim in hand joins the local maps. -/
theorem Steady.record (h : Steady cfg c (claimKey job :: hs)) (hname : job.identity ≠ "")
    (hroom : c.inflight.size + 1 ≤ cfg.pool) (now : ℚ) (size : ℕ) : Steady cfg (c.record job now size) hs := by
  have hfresh := h.fresh
  refine ⟨?_, h.agree.set hname .running now size, ?_, h.lost⟩
  · refine h.custodians.perm ?_
    show (claimKey job :: (hs ++ localClaims c.claims)).Perm (hs ++ localClaims (c.claims.set job.identity job))
    exact List.perm_middle.symm.trans ((localClaims_set hfresh job).symm.append_left hs)
  · show (c.inflight.set job.identity .running).size ≤ cfg.pool
    rw [size_set]
    split_ifs
    · exact h.room
    · exact hroom

/-- How many jobs there are after a claim in hand was recorded. -/
theorem Steady.size_record (h : Steady cfg c (claimKey job :: hs)) :
    (c.inflight.set job.identity .running).size = c.inflight.size + 1 := by
  have hnone : (c.inflight.get job.identity).isSome = false := by
    rw [← h.agree.claimed, h.fresh]
    rfl
  rw [size_set, hnone]
  rfl

/-- A result is replaced by a sentinel. -/
theorem Steady.sentinel (h : Steady cfg c hs) {slot : Slot} (hi : c.inflight.get i = some slot) :
    Steady cfg { c with inflight := c.inflight.set i .sentinel } hs := by
  refine ⟨h.custodians, h.agree.sentinel hi, ?_, h.lost⟩
  show (c.inflight.set i .sentinel).size ≤ cfg.pool
  rw [size_set, hi]
  exact h.room

end Steady

/-! ## The steps of the fill -/

section FillSteps

variable {cfg : Config} {c : Coordinator} {f : Fill} {rest : List ClaimedJob} {job : ClaimedJob}

theorem Steady.leaveBatch (h : Steady cfg c []) (f : Fill) : Wf cfg (c.leaveBatch f) := by
  unfold Coordinator.leaveBatch
  split_ifs
  · exact h.wf rfl trivial
  · exact h.wf rfl trivial

theorem Steady.nextClaim (h : Steady cfg c (rest.map claimKey))
    (hfits : Fits cfg c.inflight.size c.bandUsed f rest.length) : Wf cfg (c.nextClaim f rest) := by
  cases rest with
  | nil => exact h.leaveBatch f
  | cons job rest => exact h.wf rfl hfits

/-- **No claim is skipped out of the batch**: when the skip budget is used up, the batch is. -/
theorem Steady.skipClaim (h : Steady cfg c (rest.map claimKey))
    (hfits : Fits cfg c.inflight.size c.bandUsed f (rest.length + 1)) : Wf cfg (c.skipClaim f rest) := by
  have hpool := hfits.pool
  have hbudget := hfits.budget
  unfold Coordinator.skipClaim
  dsimp only
  split_ifs with hover
  · have hlength : rest.length = 0 := by omega
    obtain rfl := List.length_eq_zero_iff.mp hlength
    unfold Coordinator.breakBatch
    rw [List.append_nil]
    exact h.leaveBatch _
  · refine h.nextClaim ⟨by omega, ?_, ?_⟩
    · intro bandCap hcap
      have hband := hfits.band bandCap hcap
      show c.bandUsed f.band + rest.length ≤ bandCap
      omega
    · show rest.length ≤ 1 ∨ f.skipped + 1 + rest.length ≤ f.budget
      omega

/-- The batch that is claimed fits. -/
theorem fits_batchSize {n : ℕ} (hpool : c.inflight.size < cfg.pool)
    (hband : ¬ (f.bandCap.any fun bandCap => decide (bandCap ≤ c.bandUsed f.band)) = true)
    (hn : n ≤ batchSize cfg c f) : Fits cfg c.inflight.size c.bandUsed f n := by
  unfold batchSize at hn
  dsimp only at hn
  cases hcap : f.bandCap with
  | none =>
      rw [hcap] at hn
      dsimp only at hn
      refine ⟨by omega, ?_, by omega⟩
      intro bandCap h
      rw [hcap] at h
      cases h
  | some bandCap =>
      rw [hcap] at hn hband
      dsimp only at hn
      rw [Option.any_some, decide_eq_true_eq] at hband
      refine ⟨by omega, ?_, by omega⟩
      intro bandCap' h
      rw [hcap, Option.some.injEq] at h
      omega

/-- A claim is refused, or its loop has run. -/
theorem claimIngest_cases {s s' : Store} {band : Band} {owner : String} {deadline : ℚ} {maxN : ℤ} {fuel : ℕ}
    {r : Except String (List ClaimedJob)} (h : claimIngest s band owner deadline maxN fuel = some (r, s')) :
    (∃ msg, r = .error msg ∧ s' = s) ∨
      ∃ jobs, r = .ok jobs ∧ claimIngestLoop band owner deadline fuel maxN.toNat s = some (jobs, s') := by
  unfold claimIngest at h
  split_ifs at h
  · obtain ⟨rfl, rfl⟩ := Prod.mk.inj (Option.some.inj h)
    exact Or.inl ⟨_, rfl, rfl⟩
  · obtain ⟨rfl, rfl⟩ := Prod.mk.inj (Option.some.inj h)
    exact Or.inl ⟨_, rfl, rfl⟩
  · obtain ⟨⟨jobs, t⟩, hloop, heq⟩ := Option.map_eq_some_iff.mp h
    obtain ⟨rfl, rfl⟩ := Prod.mk.inj heq
    exact Or.inr ⟨jobs, rfl, hloop⟩

/-- **A batch is claimed.** -/
theorem Steady.claim (h : Steady cfg c []) {s : Store} {band : Band} {nonce : String} {deadline : ℚ} {n fuel : ℕ}
    {jobs : List ClaimedJob} (hnonce : ':' ∉ nonce.toList)
    (hloop : claimIngestLoop band (cfg.token nonce) deadline fuel n
      c.store = some (jobs, s)) :
    Steady cfg { c with store := s } (jobs.map claimKey) ∧ jobs.length ≤ n := by
  obtain ⟨hclaimed, hlength⟩ := claimIngestLoop_claimed band _ deadline fuel n hloop
  exact ⟨⟨h.custodians.claim ⟨nonce, hnonce, rfl⟩ hclaimed, h.agree, h.room, h.lost⟩, hlength⟩

theorem wf_claimBatch (h : Steady cfg c []) {queueFull : Bool} {nonce : String} {deadline : ℚ} {fuel : ℕ}
    (hnonce : ':' ∉ nonce.toList) {c' : Coordinator}
    (hstep : claimBatch cfg c f queueFull nonce deadline fuel = some c') : Wf cfg c' := by
  have hidle : ∀ s, Steady cfg { c with store := s } [] → Wf cfg { c with store := s, phase := .idle } :=
    fun s hs => hs.wf rfl trivial
  unfold claimBatch at hstep
  dsimp only at hstep
  split_ifs at hstep with hpool hqueue hband
  · obtain rfl := Option.some.inj hstep
    exact hidle c.store h
  · obtain rfl := Option.some.inj hstep
    exact hidle c.store h
  · rcases hclaim : claimIngest c.store f.band (cfg.token nonce) deadline
        (batchSize cfg c f) fuel with _ | ⟨r, s⟩
    · rw [hclaim] at hstep
      cases hstep
    · rw [hclaim] at hstep
      rcases claimIngest_cases hclaim with ⟨msg, rfl, rfl⟩ | ⟨jobs, rfl, hloop⟩
      · obtain rfl := Option.some.inj hstep
        exact h.wf rfl trivial
      · rw [Int.toNat_natCast] at hloop
        obtain ⟨hsteady, hlength⟩ := h.claim hnonce hloop
        cases jobs with
        | nil =>
            obtain rfl := Option.some.inj hstep
            exact hidle s hsteady
        | cons job jobs =>
            obtain rfl := Option.some.inj hstep
            exact hsteady.wf rfl (fits_batchSize hpool hband hlength)
  · obtain rfl := Option.some.inj hstep
    exact hidle c.store h

theorem wf_inspectClaim (h : Steady cfg c (claimKey job :: rest.map claimKey))
    (hfits : Fits cfg c.inflight.size c.bandUsed f (rest.length + 1)) (day : Option ℤ) (today hotDays : ℤ)
    (stat : Option (ℕ × ℤ)) : Wf cfg (inspectClaim cfg c f job rest day today hotDays stat) := by
  unfold inspectClaim
  have hpool := hfits.pool
  split_ifs with hfull hband
  · omega
  · exfalso
    cases hcap : f.bandCap with
    | none =>
        rw [hcap] at hband
        cases hband
    | some bandCap =>
        have hroom := hfits.band bandCap hcap
        rw [hcap, Option.any_some, decide_eq_true_eq] at hband
        omega
  · cases rebandScore cfg.digest job day today hotDays with
    | some score => exact (h.requeueJob (some score)).skipClaim hfits
    | none =>
        dsimp only
        split_ifs with hpath hlock hlock
        · exact h.ackJob.skipClaim hfits
        · exact h.ackJob.skipClaim hfits
        · exact h.ackJob.skipClaim hfits
        · have hname : job.identity ≠ "" := by
            intro hempty
            rw [hempty] at hpath
            exact hpath (by decide +kernel)
          cases stat with
          | none => exact h.ackJob.skipClaim hfits
          | some entry =>
              obtain ⟨size, mtimeNs⟩ := entry
              dsimp only
              split_ifs
              · have hstore := writeJobFingerprint_inflight c.store .ingest job.identity
                  (ingestFingerprint size mtimeNs)
                exact (h.congr (congrFun hstore .ingest)).wf rfl ⟨hfits, hname⟩
              · exact h.wf rfl ⟨hfits, hname⟩

theorem wf_admitClaim (h : Steady cfg c (claimKey job :: rest.map claimKey)) (hname : job.identity ≠ "")
    (hfits : Fits cfg c.inflight.size c.bandUsed f (rest.length + 1)) (size : ℕ) (budgetBytes : ℤ)
    (headroomOk fileCacheOk submits : Bool) (now : ℚ) :
    Wf cfg (admitClaim c f job size rest budgetBytes headroomOk fileCacheOk submits now) := by
  unfold admitClaim
  dsimp only
  split_ifs
  · exact (h.requeueJob _).skipClaim hfits
  · exact (h.requeueJob _).skipClaim hfits
  · exact (h.requeueJob _).skipClaim hfits
  · -- the rest of the batch is let go of, and the thread ends
    have hback := h.requeueJob job.score
    refine ⟨?_, hback.agree, hback.room, fun hne => absurd rfl hne, trivial⟩
    refine hback.custodians.perm ?_
    show (rest.map claimKey ++ localClaims c.claims).Perm (localClaims c.claims ++ (c.lost ++ rest).map claimKey)
    rw [h.lost, List.nil_append]
    exact List.perm_append_comm
  · have hpool := hfits.pool
    have hrecord := h.record hname (by omega) now size
    have hsize : (c.record job now size).inflight.size = c.inflight.size + 1 := h.size_record
    refine Steady.nextClaim ⟨hrecord.custodians, hrecord.agree, hrecord.room, hrecord.lost⟩ ⟨?_, ?_, ?_⟩
    · show (c.record job now size).inflight.size + rest.length ≤ cfg.pool
      omega
    · intro bandCap hcap
      have hband := hfits.band bandCap hcap
      show Function.update c.bandUsed f.band (c.bandUsed f.band + 1) f.band + rest.length ≤ bandCap
      rw [Function.update_self]
      omega
    · have hbudget := hfits.budget
      omega

end FillSteps

/-! ## The steps of the drain -/

section DrainSteps

variable {cfg : Config} {c : Coordinator} {identity : String} {slot : Slot} {todo : List (String × Slot)}
  {job : ClaimedJob}

/-- A failed attempt of a claim in hand. -/
theorem wf_bumpAttempt (h : Steady cfg c [(job.identity, job.ownerToken)]) (htracks : Tracks c.inflight todo) :
    Wf cfg (bumpAttempt c (some job) todo) := by
  have hstore := congrFun (bumpJobAttempt_inflight c.store .ingest job.identity) .ingest
  unfold bumpAttempt
  dsimp only
  rcases hbump : bumpJobAttempt c.store .ingest job.identity with ⟨_ | attempt, s⟩
  · rw [hbump] at hstore
    have hnext := h.congr hstore
    refine ⟨?_, hnext.agree, hnext.room, fun hne => absurd rfl hne, trivial⟩
    refine hnext.custodians.perm ?_
    show ([claimKey job] ++ localClaims c.claims).Perm (localClaims c.claims ++ (c.lost ++ [job]).map claimKey)
    rw [h.lost, List.nil_append]
    exact List.perm_append_comm
  · rw [hbump] at hstore
    exact (h.congr hstore).wf rfl htracks

theorem wf_collectResult (h : Steady cfg (c.forget identity) [(identity, job.ownerToken)])
    (hclaim : c.claims.get identity = some job) (hname : job.identity = identity)
    (htracks : Tracks (c.forget identity).inflight todo) (ingestOk needArchival : Bool) (outcome : String)
    (marked : Bool) : Wf cfg (collectResult cfg c identity todo ingestOk needArchival outcome marked) := by
  subst hname
  unfold collectResult
  rw [hclaim]
  dsimp only
  split_ifs
  · exact (h.requeueJob job.score).wf rfl htracks
  · exact wf_bumpAttempt h htracks
  · exact wf_bumpAttempt h htracks
  · exact (h.congr (congrFun (enqueueList_inflight _ _ _ _ _) .ingest)).wf rfl htracks
  · exact h.ackJob.wf rfl htracks

theorem wf_collect (h : Steady cfg c []) (htracks : Tracks c.inflight ((identity, slot) :: todo))
    (answer : Collected) : Wf cfg (collect cfg c identity slot todo answer) := by
  have hentry : c.inflight.get identity = some slot := htracks.entry _ List.mem_cons_self
  obtain ⟨job, hjob⟩ := h.agree.claim hentry
  obtain ⟨hname, -⟩ := h.agree.names identity job hjob
  have hforget : Steady cfg (c.forget identity) [(identity, job.ownerToken)] := h.forget hjob
  have htodo := htracks.pop
  unfold collect
  split_ifs
  · exact h.wf rfl htracks.tail
  · cases answer with
    | notReady => exact h.wf rfl htracks.tail
    | timeout rich =>
        dsimp only
        split_ifs
        · refine (h.sentinel hentry).wf rfl (htracks.tail_of_get fun j hj => ?_)
          show (c.inflight.set identity .sentinel).get j = c.inflight.get j
          rw [get_set, if_neg hj]
        · rw [hjob]
          subst hname
          exact (hforget.requeueJob job.score).wf rfl htodo
    | databaseError =>
        dsimp only
        rw [hjob]
        exact hforget.ackJob.wf rfl htodo
    | error =>
        dsimp only
        rw [hjob]
        subst hname
        exact wf_bumpAttempt hforget htodo
    | result ingestOk needArchival outcome marked =>
        exact wf_collectResult hforget hjob hname htodo ingestOk needArchival outcome marked

theorem wf_retryOrDeadLetter (h : Steady cfg c [claimKey job]) (htracks : Tracks c.inflight todo) (attempt : ℤ) :
    Wf cfg { c with
      store := retryOrDeadLetter c.store .ingest job attempt cfg.maxAttempts
      phase := .drain todo } := by
  have hstore : Steady cfg { c with store := retryOrDeadLetter c.store .ingest job attempt cfg.maxAttempts } [] :=
    ⟨h.custodians.retryOrDeadLetter attempt cfg.maxAttempts, h.agree, h.room, h.lost⟩
  exact hstore.wf rfl htracks

end DrainSteps

/-! ## The other steps -/

section OtherSteps

variable {cfg : Config} {c : Coordinator} {identity : String} {slot : Slot} {todo : List (String × Slot)}

theorem wf_giveBackCollateral (h : Steady cfg c []) (identity : String) (todo : List String) :
    Wf cfg ((giveBackCollateral c identity).goto (.recycle todo)) := by
  unfold giveBackCollateral
  cases hclaim : c.claims.get identity with
  | none => exact Steady.wf (h.forget_of_none hclaim) rfl trivial
  | some job => exact Steady.wf ((h.forget hclaim).requeueJob job.score) rfl trivial

/-- **The local maps have nothing that the store does not know**, so nothing is pruned. -/
theorem wf_pruneLocal (h : Steady cfg c []) (identity : String) (ready : Bool) (todo : List String) :
    Wf cfg ((pruneLocal c identity ready).goto (.prune todo)) := by
  unfold pruneLocal
  dsimp only
  split_ifs with hready hstore
  · exact h.wf rfl trivial
  · exact h.wf rfl trivial
  · cases hclaim : c.claims.get identity with
    | none => exact Steady.wf (h.forget_of_none hclaim) rfl trivial
    | some job =>
        exfalso
        obtain ⟨e, he, -⟩ := h.custodians.entry (mem_localClaims hclaim)
        rw [he] at hstore
        exact hstore rfl

/-- The jobs that are running are moved out of the reach of the reap. -/
theorem mem_reaperSkipIdentities (h : Agree c.inflight c.claims c.submitted c.sizes)
    (hrunning : c.inflight.get identity = some .running) : identity ∈ reaperSkipIdentities c := by
  obtain ⟨job, hjob⟩ := h.claim hrunning
  have hne := (h.names identity job hjob).2
  unfold reaperSkipIdentities
  dsimp only
  rw [List.mem_filter, List.mem_dedup]
  refine ⟨List.mem_append_left _ ?_, by simpa using hne⟩
  exact List.mem_map.mpr ⟨(identity, .running), List.mem_filter.mpr ⟨mem_of_get hrunning, rfl⟩, rfl⟩

theorem wf_protect (h : Steady cfg c []) {since now : ℚ} (hnow : since ≤ now) {todo : List String}
    (hhere : PhaseOk cfg c (.protect since (identity :: todo))) :
    Wf cfg { c with
      store := (extendInflightDeadline c.store .ingest identity (now + extendSeconds)).2
      phase := .protect since todo } := by
  have hnext : Steady cfg { c with
      store := (extendInflightDeadline c.store .ingest identity (now + extendSeconds)).2 } [] :=
    ⟨h.custodians.extend identity _, h.agree, h.room, h.lost⟩
  refine hnext.wf rfl ?_
  intro i hi
  have hcase : i ∈ todo ∨ i = identity ∨ Guarded c.store .ingest since i := by
    rcases hhere i hi with hmem | hguarded
    · exact (List.mem_cons.mp hmem).symm.imp_right Or.inl
    · exact Or.inr (Or.inr hguarded)
  refine hcase.imp_right fun hguarded => ?_
  obtain ⟨job, hjob⟩ := h.agree.claim hi
  obtain ⟨e, he, -⟩ := h.custodians.entry (mem_localClaims hjob)
  exact Guarded.extend hnow ⟨e, he⟩ hguarded

/-- **The reap** takes claims of sentinels only. -/
theorem wf_reap (h : Steady cfg c []) {since now : ℚ} (hnow : now - inflightReapGraceFloor < since + extendSeconds)
    (hhere : PhaseOk cfg c (.reap since)) (limit : ℤ) :
    Wf cfg { c with
      store := (reapExpiredInflight c.store .ingest now limit).2
      phase := .drop c.inflight.entries } := by
  have hrunning : ∀ i, c.inflight.get i = some .running →
      (((reapExpiredInflight c.store .ingest now limit).2.inflight .ingest).get i).isSome = true := by
    intro i hi
    obtain ⟨job, hjob⟩ := h.agree.claim hi
    have hbook := h.custodians.inHand.held _ (mem_localClaims hjob)
    obtain ⟨e, he, -⟩ := book_eq_held.mp (((hhere i hi).book_reap hnow limit).trans hbook)
    rw [he]
    rfl
  refine ⟨?_, h.agree, h.room, fun _ => h.lost, tracks_entries c.inflight⟩
  rw [h.lost, List.map_nil, List.append_nil]
  have hheld : ∀ j token, book (reapExpiredInflight c.store .ingest now limit).2 .ingest j = .held token →
      book c.store .ingest j = .held token := fun j token => book_of_reap
  have hlapse := h.custodians.lapse hheld
  rw [List.nil_append] at hlapse
  have hfilter : (localClaims c.claims).filter (fun d =>
        (((reapExpiredInflight c.store .ingest now limit).2.inflight .ingest).get d.1).isSome) =
      (localClaims c.claims).filter fun d =>
        !lapsed (reapExpiredInflight c.store .ingest now limit).2 c.inflight.entries d.1 := by
    refine List.filter_congr fun d hd => ?_
    obtain ⟨e, he, rfl⟩ := List.mem_map.mp hd
    have hclaim : c.claims.get e.1 = some e.2 := get_of_mem he
    have hslot : (c.inflight.get e.1).isSome = true := by
      rw [← h.agree.claimed, hclaim]
      rfl
    obtain ⟨slot, hslot⟩ := Option.isSome_iff_exists.mp hslot
    unfold lapsed
    dsimp only
    cases slot with
    | running =>
        have hnot : (e.1, Slot.sentinel) ∉ c.inflight.entries := by
          intro hmem
          have hget := get_of_mem hmem
          rw [hslot] at hget
          cases hget
        rw [hrunning e.1 hslot, decide_eq_false hnot]
        rfl
    | sentinel =>
        rw [decide_eq_true (mem_of_get hslot), Bool.true_and]
        cases ((reapExpiredInflight c.store .ingest now limit).2.inflight .ingest).get e.1 with
        | none => rfl
        | some _ => rfl
  rw [hfilter] at hlapse
  exact hlapse

/-- What lapses with the entry in front. -/
theorem lapsed_cons_of_ne {s : Store} {e : String × Slot} {i : String} (hi : i ≠ e.1) :
    lapsed s (e :: todo) i = lapsed s todo i := by
  unfold lapsed
  have hne : (i, Slot.sentinel) ≠ e := fun heq => hi (by rw [← heq])
  simp [hne]

/-- A job that stands in front of the list lapses when it is a sentinel that the store does not know. -/
theorem lapsed_cons_self {s : Store} (hnot : identity ∉ todo.map Prod.fst) :
    lapsed s ((identity, slot) :: todo) identity =
        (decide (slot = .sentinel) && ((s.inflight .ingest).get identity).isNone) ∧
      lapsed s todo identity = false := by
  have hmem : (identity, Slot.sentinel) ∉ todo := fun h => hnot (List.mem_map_of_mem h)
  unfold lapsed
  constructor
  · have hiff : (identity, Slot.sentinel) ∈ (identity, slot) :: todo ↔ slot = .sentinel := by
      rw [List.mem_cons, Prod.mk.injEq]
      exact ⟨fun h => (h.resolve_right hmem).2.symm, fun h => Or.inl ⟨rfl, h.symm⟩⟩
    rw [decide_eq_decide.mpr hiff]
  · rw [decide_eq_false hmem]
    rfl

/-- **A sentinel whose claim was taken** leaves the local maps, and only such a one. -/
theorem wf_dropSentinel (h : Wf cfg c) (hphase : c.phase = .drop ((identity, slot) :: todo)) :
    Wf cfg ((dropSentinel c identity slot).goto (.drop todo)) := by
  have hlost := h.whole (by rw [hphase]; intro heq; cases heq)
  have hhere := h.here
  have hcustodians := h.custodians
  rw [hphase] at hhere hcustodians
  rw [hlost, List.map_nil, List.append_nil] at hcustodians
  have htracks : Tracks c.inflight ((identity, slot) :: todo) := hhere
  have hnot : identity ∉ todo.map Prod.fst := (List.nodup_cons.mp htracks.nodup).1
  obtain ⟨hfront, hrest⟩ := lapsed_cons_self (s := c.store) hnot
  -- the job in front stays where its claim did not lapse
  have hstay : lapsed c.store ((identity, slot) :: todo) identity = false →
      Wf cfg (c.goto (.drop todo)) := by
    intro hkept
    refine ⟨?_, h.agree, h.room, fun _ => hlost, htracks.tail⟩
    show Custodians cfg.toProcess .ingest c.store (handsAt c.store c.claims (.drop todo) ++ c.lost.map claimKey)
    rw [hlost, List.map_nil, List.append_nil]
    have hsame : handsAt c.store c.claims (.drop todo) =
        handsAt c.store c.claims (.drop ((identity, slot) :: todo)) := by
      refine List.filter_congr fun d _ => ?_
      by_cases hd : d.1 = identity
      · rw [hd, hrest, hkept]
      · rw [lapsed_cons_of_ne hd]
    rw [hsame]
    exact hcustodians
  unfold dropSentinel
  split_ifs with hslot hstore
  · refine hstay ?_
    rw [hfront, decide_eq_false hslot]
    rfl
  · refine hstay ?_
    obtain ⟨e, he⟩ := Option.isSome_iff_exists.mp hstore
    rw [hfront, he, Bool.and_comm]
    rfl
  · obtain ⟨job, hjob⟩ := h.agree.claim (htracks.entry _ List.mem_cons_self)
    have hgone : lapsed c.store ((identity, slot) :: todo) identity = true := by
      rw [hfront, decide_eq_true (not_not.mp hslot), Bool.true_and, Option.isNone_iff_eq_none]
      exact Option.not_isSome_iff_eq_none.mp hstore
    refine ⟨?_, h.agree.pop identity, (size_pop_le _ _).trans h.room, fun _ => hlost, htracks.pop⟩
    show Custodians cfg.toProcess .ingest c.store
      (handsAt c.store (c.claims.pop identity) (.drop todo) ++ c.lost.map claimKey)
    rw [hlost, List.map_nil, List.append_nil]
    refine hcustodians.perm ?_
    have hperm := (localClaims_pop hjob).filter fun d => !lapsed c.store ((identity, slot) :: todo) d.1
    rw [List.filter_cons, hgone] at hperm
    have hothers : ((localClaims (c.claims.pop identity)).filter fun d =>
        !lapsed c.store ((identity, slot) :: todo) d.1) = handsAt c.store (c.claims.pop identity) (.drop todo) := by
      refine List.filter_congr fun d hd => ?_
      obtain ⟨e, he, rfl⟩ := List.mem_map.mp hd
      have hne : e.1 ≠ identity := by
        intro heq
        have hget := get_of_mem he
        rw [get_pop, if_pos heq] at hget
        cases hget
      rw [lapsed_cons_of_ne hne]
    rw [← hothers]
    exact hperm

/-- A change of the store that leaves the jobs in flight alone. -/
theorem Wf.congr (h : Wf cfg c) {s : Store} (hinflight : s.inflight .ingest = c.store.inflight .ingest) :
    Wf cfg { c with store := s } := by
  refine ⟨?_, h.agree, h.room, h.whole, ?_⟩
  · have hhands : handsAt s c.claims c.phase = handsAt c.store c.claims c.phase := by
      cases c.phase with
      | drop todo =>
          refine List.filter_congr fun d _ => ?_
          unfold lapsed
          rw [hinflight]
      | _ => rfl
    show Custodians cfg.toProcess .ingest s (handsAt s c.claims c.phase ++ c.lost.map claimKey)
    rw [hhands]
    exact h.custodians.congr hinflight
  · have hhere := h.here
    show PhaseOk cfg { c with store := s } c.phase
    cases hphase : c.phase with
    | protect since todo =>
        rw [hphase] at hhere
        exact fun i hi => (hhere i hi).imp_right fun hguarded => hguarded.congr hinflight
    | reap since =>
        rw [hphase] at hhere
        exact fun i hi => (hhere i hi).congr hinflight
    | _ =>
        rw [hphase] at hhere
        exact hhere

end OtherSteps

/-! ## Every step -/

/-- **Every step of the coordinator keeps its account with the store.** -/
theorem wf_step {cfg : Config} {c c' : Coordinator} {a : Act} (h : Wf cfg c) (hok : StepOk cfg c a)
    (hstep : step cfg c a = some c') : Wf cfg c' := by
  have hsteady : ∀ {phase : Phase}, c.phase = phase → phase ≠ .crashed → ∀ hs,
      handsAt c.store c.claims phase = hs ++ localClaims c.claims → Steady cfg c hs := by
    rintro phase rfl hcrashed hs hhands
    exact h.steady hcrashed hhands
  have hhere := h.here
  cases a with
  | other op =>
      rw [step] at hstep
      split_ifs at hstep with hforeign
      obtain ⟨s, hs, rfl⟩ := Option.map_eq_some_iff.mp hstep
      exact h.congr (foreign_inflight h.custodians.minted hforeign hs)
  | countBands =>
      rw [step] at hstep
      cases hphase : c.phase with
      | idle =>
          rw [hphase] at hstep
          obtain rfl := Option.some.inj hstep
          have hs := hsteady hphase (by simp) [] rfl
          exact Steady.wf (c := { c with bandUsed := countIngestBandInflight c.claims })
            ⟨hs.custodians, hs.agree, hs.room, hs.lost⟩ rfl trivial
      | _ =>
          rw [hphase] at hstep
          cases hstep
  | beginFill band bandCap skipBudget =>
      rw [step] at hstep
      cases hphase : c.phase with
      | idle =>
          rw [hphase] at hstep
          obtain rfl := Option.some.inj hstep
          exact (hsteady hphase (by simp) [] rfl).wf rfl trivial
      | _ =>
          rw [hphase] at hstep
          cases hstep
  | claim queueFull nonce deadline fuel =>
      rw [step] at hstep
      cases hphase : c.phase with
      | fill f =>
          rw [hphase] at hstep
          exact wf_claimBatch (hsteady hphase (by simp) [] rfl) hok hstep
      | _ =>
          rw [hphase] at hstep
          cases hstep
  | inspect day today hotDays stat =>
      rw [step] at hstep
      cases hphase : c.phase with
      | batch f batch =>
          rw [hphase] at hstep hhere
          cases batch with
          | nil => cases hstep
          | cons job rest =>
              obtain rfl := Option.some.inj hstep
              exact wf_inspectClaim (hsteady hphase (by simp) _ rfl) hhere day today hotDays stat
      | _ =>
          rw [hphase] at hstep
          cases hstep
  | offer budgetBytes headroomOk fileCacheOk submits now =>
      rw [step] at hstep
      cases hphase : c.phase with
      | gate f job size rest =>
          rw [hphase] at hstep hhere
          obtain rfl := Option.some.inj hstep
          exact wf_admitClaim (hsteady hphase (by simp) (claimKey job :: rest.map claimKey) rfl) hhere.2 hhere.1 size
            budgetBytes headroomOk fileCacheOk submits now
      | _ =>
          rw [hphase] at hstep
          cases hstep
  | beginDrain =>
      rw [step] at hstep
      cases hphase : c.phase with
      | idle =>
          rw [hphase] at hstep
          obtain rfl := Option.some.inj hstep
          exact (hsteady hphase (by simp) [] rfl).wf rfl (tracks_entries c.inflight)
      | _ =>
          rw [hphase] at hstep
          cases hstep
  | collect answer =>
      rw [step] at hstep
      cases hphase : c.phase with
      | drain todo =>
          rw [hphase] at hstep hhere
          cases todo with
          | nil => cases hstep
          | cons e todo =>
              obtain rfl := Option.some.inj hstep
              exact wf_collect (hsteady hphase (by simp) [] rfl) hhere answer
      | _ =>
          rw [hphase] at hstep
          cases hstep
  | endDrain =>
      rw [step] at hstep
      cases hphase : c.phase with
      | drain todo =>
          rw [hphase] at hstep
          cases todo with
          | nil =>
              obtain rfl := Option.some.inj hstep
              exact (hsteady hphase (by simp) [] rfl).wf rfl trivial
          | cons e todo => cases hstep
      | _ =>
          rw [hphase] at hstep
          cases hstep
  | settle =>
      rw [step] at hstep
      cases hphase : c.phase with
      | retry job attempt todo =>
          rw [hphase] at hstep hhere
          obtain rfl := Option.some.inj hstep
          exact wf_retryOrDeadLetter (hsteady hphase (by simp) [claimKey job] rfl) hhere attempt
      | finish identity job todo =>
          rw [hphase] at hstep hhere
          obtain rfl := Option.some.inj hstep
          have hs := hsteady hphase (by simp) [(identity, job.ownerToken)] rfl
          exact Steady.wf hs.ackJob rfl hhere
      | _ =>
          rw [hphase] at hstep
          cases hstep
  | beginRecycle =>
      rw [step] at hstep
      cases hphase : c.phase with
      | idle =>
          rw [hphase] at hstep
          obtain rfl := Option.some.inj hstep
          exact (hsteady hphase (by simp) [] rfl).wf rfl trivial
      | _ =>
          rw [hphase] at hstep
          cases hstep
  | recycle =>
      rw [step] at hstep
      cases hphase : c.phase with
      | recycle todo =>
          rw [hphase] at hstep
          have hs := hsteady hphase (by simp) [] rfl
          cases todo with
          | nil =>
              obtain rfl := Option.some.inj hstep
              exact hs.wf rfl trivial
          | cons identity todo =>
              obtain rfl := Option.some.inj hstep
              exact wf_giveBackCollateral hs identity todo
      | _ =>
          rw [hphase] at hstep
          cases hstep
  | beginPrune =>
      rw [step] at hstep
      cases hphase : c.phase with
      | idle =>
          rw [hphase] at hstep
          obtain rfl := Option.some.inj hstep
          exact (hsteady hphase (by simp) [] rfl).wf rfl trivial
      | _ =>
          rw [hphase] at hstep
          cases hstep
  | prune ready =>
      rw [step] at hstep
      cases hphase : c.phase with
      | prune todo =>
          rw [hphase] at hstep
          have hs := hsteady hphase (by simp) [] rfl
          cases todo with
          | nil =>
              obtain rfl := Option.some.inj hstep
              exact hs.wf rfl trivial
          | cons identity todo =>
              obtain rfl := Option.some.inj hstep
              exact wf_pruneLocal hs identity ready todo
      | _ =>
          rw [hphase] at hstep
          cases hstep
  | reconcileOrphans nonce =>
      rw [step] at hstep
      cases hphase : c.phase with
      | idle =>
          rw [hphase] at hstep
          obtain rfl := Option.some.inj hstep
          have hs := hsteady hphase (by simp) [] rfl
          have hbook := hs.custodians.frame (book_reconcileOrphans (c.inflight.entries.map Prod.fst ++
            c.claims.entries.map Prod.fst) hok)
          exact Steady.wf (c := { c with store := _ }) ⟨hbook, hs.agree, hs.room, hs.lost⟩ rfl trivial
      | _ =>
          rw [hphase] at hstep
          cases hstep
  | steal here =>
      rw [step] at hstep
      cases hphase : c.phase with
      | idle =>
          rw [hphase] at hstep
          dsimp only at hstep
          split_ifs at hstep with halive
          obtain rfl := Option.some.inj hstep
          have hs := hsteady hphase (by simp) [] rfl
          exact (hs.congr (stealLoop_inflight halive _ 0 h.custodians.minted)).wf rfl trivial
      | _ =>
          rw [hphase] at hstep
          cases hstep
  | beginReap now =>
      rw [step] at hstep
      cases hphase : c.phase with
      | idle =>
          rw [hphase] at hstep
          obtain rfl := Option.some.inj hstep
          exact (hsteady hphase (by simp) [] rfl).wf rfl
            fun i hi => Or.inl (mem_reaperSkipIdentities h.agree hi)
      | _ =>
          rw [hphase] at hstep
          cases hstep
  | protect now =>
      rw [step] at hstep
      cases hphase : c.phase with
      | protect since todo =>
          rw [hphase] at hstep hhere
          have hs := hsteady hphase (by simp) [] rfl
          cases todo with
          | nil =>
              obtain rfl := Option.some.inj hstep
              exact hs.wf rfl fun i hi => (hhere i hi).resolve_left List.not_mem_nil
          | cons identity todo =>
              obtain rfl := Option.some.inj hstep
              exact wf_protect hs (hok since _ hphase) hhere
      | _ =>
          rw [hphase] at hstep
          cases hstep
  | reap now limit =>
      rw [step] at hstep
      cases hphase : c.phase with
      | reap since =>
          rw [hphase] at hstep hhere
          obtain rfl := Option.some.inj hstep
          exact wf_reap (hsteady hphase (by simp) [] rfl) (hok since hphase) hhere limit
      | _ =>
          rw [hphase] at hstep
          cases hstep
  | drop =>
      rw [step] at hstep
      cases hphase : c.phase with
      | drop todo =>
          rw [hphase] at hstep
          cases todo with
          | nil =>
              obtain rfl := Option.some.inj hstep
              refine (hsteady hphase (by simp) [] ?_).wf rfl trivial
              exact List.filter_eq_self.mpr fun _ _ => rfl
          | cons e todo =>
              obtain rfl := Option.some.inj hstep
              exact wf_dropSentinel h hphase
      | _ =>
          rw [hphase] at hstep
          cases hstep

end IngestCoordinator
