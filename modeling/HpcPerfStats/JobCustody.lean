/-
# Who holds a job of the job store

`custody` reads off a store whether a job is absent, queued or held by the owner of a claim.  `effect_step` says
what an operation other than `load` can do to a job: an enqueue queues an absent job, a claim takes a queued
one, and a held job leaves its holder by an acknowledgement, a requeue, a reap after its deadline, the theft
from a dead owner, or the reconciliation of its owner (`Op.Releases`).

* `kept_of_run`: no run loses a job; one that is gone was acknowledged by the owner that held it;
* `exclusive_of_run`: a job changes hands only after one of those operations took it from its holder.
-/
import HpcPerfStats.Custody
import HpcPerfStats.SnapshotRuns

namespace JobStore

open OrderedDict Custody Transition

/-! ## The custody of a job -/

/-- Where a job is that no claim holds. -/
def unheld (s : Store) (key : Kind × String) : Status String :=
  if queuedIdentities s key then .queued else .absent

/-- Where a job is. -/
def custody (s : Store) (key : Kind × String) : Status String :=
  match (s.inflight key.1).get key.2 with
  | some entry => .held entry.owner
  | none => unheld s key

theorem unheld_ne_held (s : Store) (key : Kind × String) (owner : String) : unheld s key ≠ .held owner := by
  unfold unheld
  split_ifs <;> intro h <;> cases h

theorem custody_of_entry {s : Store} {kind : Kind} {ident : String} {entry : Inflight}
    (h : (s.inflight kind).get ident = some entry) : custody s (kind, ident) = .held entry.owner := by
  unfold custody
  rw [h]

theorem custody_of_free {s : Store} {kind : Kind} {ident : String}
    (h : (s.inflight kind).get ident = none) : custody s (kind, ident) = unheld s (kind, ident) := by
  unfold custody
  rw [h]

/-- A job is held by the owner of its entry. -/
theorem custody_eq_held {s : Store} {kind : Kind} {ident owner : String} :
    custody s (kind, ident) = .held owner ↔
      ∃ entry, (s.inflight kind).get ident = some entry ∧ entry.owner = owner := by
  cases hentry : (s.inflight kind).get ident with
  | none =>
      rw [custody_of_free hentry]
      refine iff_of_false (unheld_ne_held s _ owner) ?_
      rintro ⟨entry, hsome, -⟩
      cases hsome
  | some entry =>
      rw [custody_of_entry hentry, Status.held.injEq]
      constructor
      · intro h
        exact ⟨entry, rfl, h⟩
      · rintro ⟨entry', hsome, howner⟩
        rw [Option.some.inj hsome]
        exact howner

theorem custody_congr {s t : Store} {key : Kind × String}
    (hentry : (t.inflight key.1).get key.2 = (s.inflight key.1).get key.2)
    (hqueued : queuedIdentities t key = queuedIdentities s key) : custody t key = custody s key := by
  unfold custody unheld
  rw [hentry, hqueued]

/-- What does not touch the queues nor the jobs in flight. -/
theorem custody_of_eq {s t : Store} (hinflight : t.inflight = s.inflight) (hingest : t.ingest = s.ingest)
    (hlists : t.lists = s.lists) (key : Kind × String) : custody t key = custody s key :=
  custody_congr (by rw [hinflight]) (queuedIdentities_congr hingest hlists key)

/-! ## The helpers -/

theorem custody_setHeap (s : Store) (band : Band) (heap : List (ℚ × String)) (key : Kind × String) :
    custody (s.setHeap band heap) key = custody s key := by
  cases band <;> rfl

theorem custody_setFields (s : Store) (kind : Kind) (ident : String) (fields : Fields) (key : Kind × String) :
    custody (setFields s kind ident fields) key = custody s key := by
  refine custody_of_eq (setFields_inflight s kind ident fields) (setFields_ingest s kind ident fields) ?_ key
  unfold setFields
  dsimp only
  split_ifs
  · rfl
  · rfl

/-- A job that leaves the in-flight map. -/
theorem custody_dropInflight (s : Store) (kind : Kind) (ident : String) (key : Kind × String) :
    custody (dropInflight s kind ident) key = if key = (kind, ident) then unheld s key else custody s key := by
  obtain ⟨kind', i⟩ := key
  have hqueued : queuedIdentities (dropInflight s kind ident) (kind', i) = queuedIdentities s (kind', i) := by
    cases kind' <;> rfl
  by_cases hkey : (kind', i) = (kind, ident)
  · obtain ⟨rfl, rfl⟩ := Prod.mk.inj hkey
    rw [if_pos rfl, custody_of_free (by rw [dropInflight_inflight, get_pop, if_pos rfl])]
    unfold unheld
    rw [hqueued]
  · rw [if_neg hkey]
    refine custody_congr ?_ hqueued
    by_cases hkind : kind' = kind
    · subst hkind
      rw [dropInflight_inflight, get_pop, if_neg (fun hi => hkey (Prod.ext rfl hi))]
    · rw [dropInflight_inflight_of_ne s hkind]

/-- A job that joins the in-flight map, or whose entry is written anew. -/
theorem custody_addInflight (s : Store) (kind : Kind) (ident : String) (entry : Inflight) (key : Kind × String) :
    custody (addInflight s kind ident entry) key =
      if key = (kind, ident) then .held entry.owner else custody s key := by
  obtain ⟨kind', i⟩ := key
  by_cases hkey : (kind', i) = (kind, ident)
  · obtain ⟨rfl, rfl⟩ := Prod.mk.inj hkey
    rw [if_pos rfl]
    exact custody_of_entry (by rw [addInflight_inflight, get_set, if_pos rfl])
  · rw [if_neg hkey]
    refine custody_congr ?_ (by cases kind' <;> rfl)
    by_cases hkind : kind' = kind
    · subst hkind
      rw [addInflight_inflight, get_set, if_neg (fun hi => hkey (Prod.ext rfl hi))]
    · rw [addInflight_inflight_of_ne s hkind]

/-- What is queued when a job goes into its queue. -/
theorem queuedIdentities_putBack (s : Store) (kind : Kind) (ident : String) (score : ℚ) (key : Kind × String) :
    queuedIdentities (putBack s kind ident score) key =
      (decide (key = (kind, ident)) || queuedIdentities s key) := by
  obtain ⟨kind', i⟩ := key
  cases kind with
  | ingest =>
      cases kind' with
      | ingest =>
          show ((ingestSet s ident score).ingest.get i).isSome = _
          rw [ingestSet_ingest, get_set]
          by_cases hi : i = ident
          · simp [hi]
          · simp [hi, queuedIdentities]
      | list k =>
          have hlists : (ingestSet s ident score).lists = s.lists := by
            obtain ⟨heapHot, heapCatchup, heq⟩ := ingestSet_spec s ident score
            rw [heq]
            rfl
          have hne : decide ((Kind.list k, i) = (Kind.ingest, ident)) = false := decide_eq_false (by simp)
          show decide (i ∈ (ingestSet s ident score).lists k) = _
          rw [hlists, hne, Bool.false_or]
          rfl
  | list k =>
      cases kind' with
      | ingest => simp [putBack, listAppend, queuedIdentities, shadowSyncPayload]
      | list k' =>
          show decide (i ∈ Function.update s.lists k (s.lists k ++ [ident]) k') = _
          by_cases hk : k' = k
          · subst hk
            rw [Function.update_self]
            by_cases hi : i = ident
            · simp [hi]
            · simp [hi, queuedIdentities]
          · rw [Function.update_of_ne hk]
            simp [hk, queuedIdentities]

theorem putBack_inflight (s : Store) (kind : Kind) (ident : String) (score : ℚ) :
    (putBack s kind ident score).inflight = s.inflight := by
  cases kind with
  | ingest => exact ingestSet_inflight s ident score
  | list k => rfl

/-- The other jobs stay where they are when a job goes into its queue. -/
theorem custody_putBack_of_ne {s : Store} {kind : Kind} {ident : String} (score : ℚ) {key : Kind × String}
    (hkey : key ≠ (kind, ident)) : custody (putBack s kind ident score) key = custody s key := by
  refine custody_congr (by rw [putBack_inflight]) ?_
  rw [queuedIdentities_putBack, decide_eq_false hkey, Bool.false_or]

/-- A job that is not in flight and goes into its queue. -/
theorem custody_putBack {s : Store} {kind : Kind} {ident : String} (hfree : (s.inflight kind).get ident = none)
    (score : ℚ) (key : Kind × String) :
    custody (putBack s kind ident score) key = if key = (kind, ident) then .queued else custody s key := by
  split_ifs with hkey
  · subst hkey
    rw [custody_of_free (by rw [putBack_inflight]; exact hfree)]
    unfold unheld
    rw [queuedIdentities_putBack]
    simp
  · exact custody_putBack_of_ne score hkey

/-- A job in flight that goes back to its queue. -/
theorem custody_giveBack (s : Store) (kind : Kind) (ident : String) (score : ℚ) (key : Kind × String) :
    custody (putBack (dropInflight s kind ident) kind ident score) key =
      if key = (kind, ident) then .queued else custody s key := by
  have hfree : ((dropInflight s kind ident).inflight kind).get ident = none := by
    rw [dropInflight_inflight, get_pop, if_pos rfl]
  rw [custody_putBack hfree, custody_dropInflight]
  split_ifs <;> rfl

/-! ## What an operation does to a job -/

/-- The deadline of the job is over for the reap. -/
def Overdue (s : Store) (kind : Kind) (now : ℚ) (key : Kind × String) : Prop :=
  kind = key.1 ∧ ∃ entry, (s.inflight key.1).get key.2 = some entry ∧ entry.deadline ≤ now - inflightReapGraceFloor

/-- The operation takes a job from the owner that holds it. -/
def Op.Releases (s : Store) (key : Kind × String) (owner : String) : Op → Prop
  | .ack kind ident owner' => (kind, ident) = key ∧ owner' = owner
  | .requeue kind ident owner' _ => (kind, ident) = key ∧ owner' = owner
  | .reapExpiredInflight kind now _ => Overdue s kind now key
  | .stealDeadOwnerLeases here => ownerIsDead owner here = true
  | .stealJobLeaseIfOwnerDead kind ident here => (kind, ident) = key ∧ ownerIsDead owner here = true
  | .reconcileThisOwnerOrphanLeases kind known owner' => kind = key.1 ∧ key.2 ∉ known ∧ owner' = owner
  | _ => False

/-- What an operation does to a job. -/
inductive Effect (s s' : Store) (op : Op) (key : Kind × String) : Prop where
  | stay (h : custody s' key = custody s key)
  | enqueue (h : custody s key = .absent) (h' : custody s' key = .queued)
  | claim (owner : String) (h : custody s key = .queued) (h' : custody s' key = .held owner)
  | settle (owner : String) (h : custody s key = .held owner) (h' : custody s' key = .absent)
      (hop : op = .ack key.1 key.2 owner)
  | giveBack (owner : String) (h : custody s key = .held owner) (h' : custody s' key = .queued)
      (hop : op.Releases s key owner)

theorem Effect.moves {s s' : Store} {op : Op} {key : Kind × String} (h : Effect s s' op key) :
    (custody s key).Moves (custody s' key) := by
  cases h with
  | stay h => exact .of_eq h
  | enqueue h h' =>
      rw [h, h']
      exact .enqueue
  | claim owner h h' =>
      rw [h, h']
      exact .claim owner
  | settle owner h h' =>
      rw [h, h']
      exact .settle owner
  | giveBack owner h h' =>
      rw [h, h']
      exact .giveBack owner

/-! ## Claims -/

/-- What a claim takes: queued jobs, none twice, which its owner then holds; the other jobs stay where they are. -/
structure Claimed (s t : Store) (kind : Kind) (owner : String) (jobs : List ClaimedJob) : Prop where
  nodup : (jobs.map ClaimedJob.identity).Nodup
  token : ∀ job ∈ jobs, job.kind = kind ∧ job.ownerToken = owner
  before : ∀ job ∈ jobs, custody s (kind, job.identity) = .queued
  after : ∀ job ∈ jobs, custody t (kind, job.identity) = .held owner
  rest : ∀ key, (∀ job ∈ jobs, key ≠ (kind, job.identity)) → custody t key = custody s key

theorem claimed_nil {s t : Store} {kind : Kind} {owner : String} (h : ∀ key, custody t key = custody s key) :
    Claimed s t kind owner [] :=
  ⟨List.nodup_nil, fun _ hjob => absurd hjob List.not_mem_nil, fun _ hjob => absurd hjob List.not_mem_nil,
    fun _ hjob => absurd hjob List.not_mem_nil, fun key _ => h key⟩

/-- A claim does not look at what leaves every job where it is. -/
theorem Claimed.of_custody {s s' t : Store} {kind : Kind} {owner : String} {jobs : List ClaimedJob}
    (h : Claimed s' t kind owner jobs) (hs : ∀ key, custody s' key = custody s key) : Claimed s t kind owner jobs :=
  ⟨h.nodup, h.token, fun job hjob => (hs _).symm.trans (h.before job hjob), h.after,
    fun key hkey => (h.rest key hkey).trans (hs key)⟩

/-- One job is claimed, and then the others. -/
theorem Claimed.cons {s s' t : Store} {kind : Kind} {owner : String} {job : ClaimedJob} {jobs : List ClaimedJob}
    (h : Claimed s' t kind owner jobs) (hkind : job.kind = kind) (htoken : job.ownerToken = owner)
    (hqueued : custody s (kind, job.identity) = .queued)
    (hs : ∀ key, custody s' key = if key = (kind, job.identity) then .held owner else custody s key) :
    Claimed s t kind owner (job :: jobs) := by
  have hheld : custody s' (kind, job.identity) = .held owner := by rw [hs, if_pos rfl]
  have hfresh : ∀ other ∈ jobs, (kind, other.identity) ≠ (kind, job.identity) := by
    intro other hother heq
    have hbefore := h.before other hother
    rw [heq, hheld] at hbefore
    cases hbefore
  refine ⟨?_, ?_, ?_, ?_, ?_⟩
  · rw [List.map_cons, List.nodup_cons]
    refine ⟨?_, h.nodup⟩
    intro hmem
    obtain ⟨other, hother, heq⟩ := List.mem_map.mp hmem
    exact hfresh other hother (by rw [heq])
  · intro other hother
    rcases List.mem_cons.mp hother with rfl | hother
    · exact ⟨hkind, htoken⟩
    · exact h.token other hother
  · intro other hother
    rcases List.mem_cons.mp hother with rfl | hother
    · exact hqueued
    · have hbefore := h.before other hother
      rw [hs, if_neg (hfresh other hother)] at hbefore
      exact hbefore
  · intro other hother
    rcases List.mem_cons.mp hother with rfl | hother
    · rw [h.rest _ (fun o ho heq => hfresh o ho heq.symm), hheld]
    · exact h.after other hother
  · intro key hkey
    rw [h.rest key (fun other hother => hkey other (List.mem_cons_of_mem job hother)), hs,
      if_neg (hkey job List.mem_cons_self)]

/-- What a claim does to one job. -/
theorem Claimed.cases {s t : Store} {kind : Kind} {owner : String} {jobs : List ClaimedJob}
    (h : Claimed s t kind owner jobs) (key : Kind × String) :
    custody t key = custody s key ∨ (custody s key = .queued ∧ custody t key = .held owner) := by
  by_cases hkey : ∃ job ∈ jobs, key = (kind, job.identity)
  · obtain ⟨job, hjob, rfl⟩ := hkey
    exact Or.inr ⟨h.before job hjob, h.after job hjob⟩
  · exact Or.inl (h.rest key (fun job hjob heq => hkey ⟨job, hjob, heq⟩))

/-- A queued ingest job moves to the jobs in flight. -/
theorem custody_take {s : Store} {ident : String} {live : ℚ} (hfree : (s.inflight .ingest).get ident = none)
    (hlive : s.ingest.get ident = some live) (entry : Inflight) :
    custody s (.ingest, ident) = .queued ∧ ∀ key,
      custody (addInflight (ingestPop s ident live) .ingest ident entry) key =
        if key = (.ingest, ident) then .held entry.owner else custody s key := by
  constructor
  · rw [custody_of_free hfree]
    unfold unheld
    have hqueued : queuedIdentities s (.ingest, ident) = true := Option.isSome_iff_exists.mpr ⟨live, hlive⟩
    exact if_pos hqueued
  · intro key
    rw [custody_addInflight]
    split_ifs with hkey
    · rfl
    · rw [ingestPop_eq]
      refine custody_congr rfl ?_
      obtain ⟨kind, i⟩ := key
      cases kind with
      | ingest =>
          show ((s.ingest.pop ident).get i).isSome = (s.ingest.get i).isSome
          rw [get_pop, if_neg (fun hi => hkey (by rw [hi]))]
      | list k => rfl

/-- **A claim of ingest jobs.** -/
theorem claimIngestLoop_claimed (band : Band) (owner : String) (deadline : ℚ) (fuel : ℕ) :
    ∀ (want : ℕ) {s : Store} {r : List ClaimedJob × Store},
      claimIngestLoop band owner deadline fuel want s = some r →
        Claimed s r.2 .ingest owner r.1 ∧ r.1.length ≤ want := by
  induction fuel with
  | zero =>
      intro want s r hr
      cases want with
      | zero =>
          rw [claimIngestLoop, Option.some.injEq] at hr
          rw [← hr]
          exact ⟨claimed_nil fun _ => rfl, le_rfl⟩
      | succ want =>
          rw [claimIngestLoop] at hr
          cases hr
  | succ fuel ih =>
      intro want s r hr
      cases want with
      | zero =>
          rw [claimIngestLoop, Option.some.injEq] at hr
          rw [← hr]
          exact ⟨claimed_nil fun _ => rfl, le_rfl⟩
      | succ want =>
          rw [claimIngestLoop] at hr
          rcases hheap : s.heap band with _ | ⟨⟨snapScore, ident⟩, rest⟩
          · rw [hheap] at hr
            obtain rfl := Option.some.inj hr
            exact ⟨claimed_nil fun _ => rfl, Nat.zero_le _⟩
          · rw [hheap] at hr
            simp only at hr
            have hpop : ∀ key, custody (s.setHeap band rest) key = custody s key := custody_setHeap s band rest
            by_cases hfly : (((s.setHeap band rest).inflight .ingest).get ident).isSome = true
            · rw [if_pos hfly] at hr
              obtain ⟨hclaimed, hlength⟩ := ih _ hr
              exact ⟨hclaimed.of_custody hpop, hlength⟩
            · rw [if_neg hfly] at hr
              rcases hlive : (s.setHeap band rest).ingest.get ident with _ | live
              · rw [hlive] at hr
                obtain ⟨hclaimed, hlength⟩ := ih _ hr
                exact ⟨hclaimed.of_custody hpop, hlength⟩
              · rw [hlive] at hr
                simp only at hr
                by_cases hstale : live ≠ snapScore ∨ inScoreRange band live = false
                · rw [if_pos hstale] at hr
                  obtain ⟨hclaimed, hlength⟩ := ih _ hr
                  exact ⟨hclaimed.of_custody fun key => (custody_setHeap _ _ _ key).trans (hpop key), hlength⟩
                · rw [if_neg hstale, Option.map_eq_some_iff] at hr
                  obtain ⟨r', hr', rfl⟩ := hr
                  obtain ⟨hclaimed, hlength⟩ := ih want hr'
                  obtain ⟨hqueued, htaken⟩ := custody_take (by simpa using hfly) hlive ⟨deadline, owner, some live⟩
                  refine ⟨(hclaimed.cons ?_ ?_ ?_ htaken).of_custody hpop, Nat.succ_le_succ hlength⟩
                  · rfl
                  · rfl
                  · exact hqueued

/-- The front of a list leaves it. -/
theorem custody_listPop {s : Store} {k : ListKind} {ident : String} {rest : List String}
    (hl : s.lists k = ident :: rest) {key : Kind × String} (hkey : key ≠ (.list k, ident)) :
    custody (listPop s k ident rest) key = custody s key := by
  refine custody_congr rfl ?_
  obtain ⟨kind, i⟩ := key
  cases kind with
  | ingest => rfl
  | list k' =>
      show decide (i ∈ Function.update s.lists k rest k') = decide (i ∈ s.lists k')
      by_cases hk : k' = k
      · subst hk
        have hi : i ≠ ident := fun hi => hkey (by rw [hi])
        rw [Function.update_self, hl]
        simp [hi]
      · rw [Function.update_of_ne hk]

/-- **A claim of a LIST job.** -/
theorem claimListLoop_claimed (k : ListKind) (owner : String) (deadline : ℚ) (n : ℕ) : ∀ (s : Store),
    Claimed s (claimListLoop k owner deadline n s).2 (.list k) owner
      (claimListLoop k owner deadline n s).1.toList := by
  induction n with
  | zero => exact fun s => claimed_nil fun _ => rfl
  | succ n ih =>
      intro s
      rcases hl : s.lists k with _ | ⟨ident, rest⟩
      · rw [claimListLoop, hl]
        exact claimed_nil fun _ => rfl
      · rw [claimListLoop_cons k owner deadline n hl]
        by_cases hfly : isInflight s k ident = true
        · rw [if_pos hfly]
          refine (ih (listPop s k ident rest)).of_custody fun key => ?_
          by_cases hkey : key = (.list k, ident)
          · -- the identity is in flight, and its holder keeps it
            obtain ⟨entry, hentry⟩ := Option.isSome_iff_exists.mp hfly
            rw [hkey, custody_of_entry hentry]
            exact custody_of_entry hentry
          · exact custody_listPop hl hkey
        · rw [if_neg hfly]
          have hfree : (s.inflight (.list k)).get ident = none := by
            simpa [isInflight] using hfly
          refine (claimed_nil fun _ => rfl).cons rfl rfl ?_ ?_
          · rw [custody_of_free hfree]
            unfold unheld
            have hmem : ident ∈ s.lists k := hl ▸ List.mem_cons_self
            exact if_pos (decide_eq_true hmem)
          · intro key
            rw [custody_addInflight]
            split_ifs with hkey
            · rfl
            · exact custody_listPop hl hkey

/-! ## The effect of the operations -/

theorem custody_of_ownedEntry {s : Store} {kind : Kind} {ident owner : String} {entry : Inflight}
    (h : ownedEntry s kind ident owner = some entry) : custody s (kind, ident) = .held owner := by
  refine custody_eq_held.mpr ⟨entry, isSome_of_ownedEntry h, ?_⟩
  unfold ownedEntry at h
  split_ifs at h
  exact eq_of_beq (Option.filter_eq_some_iff.mp h).2

/-- A requeue gives the job back if this owner holds it. -/
theorem custody_requeue (s : Store) (kind : Kind) (ident owner : String) (score : Option ℚ) (key : Kind × String) :
    custody (requeue s kind ident owner score).2 key = custody s key ∨
      ((kind, ident) = key ∧ custody s key = .held owner ∧
        custody (requeue s kind ident owner score).2 key = .queued) := by
  unfold requeue
  cases hentry : ownedEntry s kind ident owner with
  | none => exact Or.inl rfl
  | some entry =>
      dsimp only
      rw [custody_giveBack]
      split_ifs with hkey
      · exact Or.inr ⟨hkey.symm, hkey ▸ custody_of_ownedEntry hentry, rfl⟩
      · exact Or.inl rfl

/-- An acknowledgement settles the job if this owner holds it; a LIST job may be queued again already. -/
theorem custody_ack (s : Store) (kind : Kind) (ident owner : String) (key : Kind × String) :
    custody (ack s kind ident owner).2 key = custody s key ∨
      ((kind, ident) = key ∧ custody s key = .held owner ∧
        custody (ack s kind ident owner).2 key = unheld s key) := by
  unfold ack
  cases hentry : ownedEntry s kind ident owner with
  | none => exact Or.inl rfl
  | some entry =>
      have hdrop := custody_dropInflight s kind ident key
      have hack : ∀ t : Store, t.inflight = (dropInflight s kind ident).inflight → t.ingest = s.ingest →
          t.lists = s.lists → custody t key = custody s key ∨
            ((kind, ident) = key ∧ custody s key = .held owner ∧ custody t key = unheld s key) := by
        intro t hinflight hingest hlists
        rw [custody_of_eq hinflight hingest hlists, hdrop]
        split_ifs with hkey
        · exact Or.inr ⟨hkey.symm, hkey ▸ custody_of_ownedEntry hentry, rfl⟩
        · exact Or.inl rfl
      cases kind with
      | ingest => exact hack _ rfl rfl rfl
      | list k => exact hack _ rfl rfl rfl

/-- A job stays where it is, or an owner that is `due` held it and it is queued. -/
def GivenBack (due : String → Prop) (s u : Store) (key : Kind × String) : Prop :=
  custody u key = custody s key ∨ ∃ owner, due owner ∧ custody s key = .held owner ∧ custody u key = .queued

/-- A requeue for an owner that is due. -/
theorem GivenBack.requeue {due : String → Prop} {s u : Store} {key : Kind × String} (h : GivenBack due s u key)
    {kind : Kind} {ident owner : String} (score : Option ℚ) (hdue : (kind, ident) = key → due owner) :
    GivenBack due s (requeue u kind ident owner score).2 key := by
  rcases custody_requeue u kind ident owner score key with hsame | ⟨hkey, hheld, hqueued⟩
  · unfold GivenBack
    rw [hsame]
    exact h
  · rcases h with hstay | ⟨-, -, -, hgone⟩
    · exact Or.inr ⟨owner, hdue hkey, hstay.symm.trans hheld, hqueued⟩
    · rw [hgone] at hheld
      cases hheld

theorem GivenBack.effect {due : String → Prop} {s s' : Store} {op : Op} {key : Kind × String}
    (h : GivenBack due s s' key) (hop : ∀ owner, due owner → custody s key = .held owner → op.Releases s key owner) :
    Effect s s' op key := by
  rcases h with hstay | ⟨owner, hdue, hheld, hqueued⟩
  · exact .stay hstay
  · exact .giveBack owner hheld hqueued (hop owner hdue hheld)

/-- **The reap.** -/
theorem givenBack_reap (s : Store) (kind : Kind) (now : ℚ) (want : ℕ) (key : Kind × String)
    (items : List (String × Inflight)) (hitems : ∀ item ∈ items, (s.inflight kind).get item.1 = some item.2) :
    ∀ (out : List String) {u : Store}, GivenBack (fun _ => Overdue s kind now key) s u key →
      GivenBack (fun _ => Overdue s kind now key) s
        (reapLoop kind (now - inflightReapGraceFloor) want items out u).2 key := by
  induction items with
  | nil => exact fun _ _ h => h
  | cons item items ih =>
      intro out u h
      obtain ⟨ident, entry⟩ := item
      have hrest := ih fun i hi => hitems i (List.mem_cons_of_mem _ hi)
      have hentry : (s.inflight kind).get ident = some entry := hitems (ident, entry) List.mem_cons_self
      rw [reapLoop]
      split_ifs with hfull hdeadline
      · exact h
      · exact hrest out h
      · refine hrest _ ?_
        unfold GivenBack
        rw [custody_giveBack]
        split_ifs with hkey
        · subst hkey
          exact Or.inr ⟨entry.owner, ⟨rfl, entry, hentry, not_lt.mp hdeadline⟩, custody_of_entry hentry, rfl⟩
        · exact h

/-- **The steals.** -/
theorem givenBack_steal (here : Local) (s : Store) (key : Kind × String) (items : List ((Kind × String) × String)) :
    ∀ (stolen : ℕ) {u : Store}, GivenBack (fun owner => ownerIsDead owner here = true) s u key →
      GivenBack (fun owner => ownerIsDead owner here = true) s (stealLoop here items stolen u).2 key := by
  induction items with
  | nil => exact fun _ _ h => h
  | cons item items ih =>
      intro stolen u h
      obtain ⟨⟨kind, ident⟩, ownerToken⟩ := item
      rw [stealLoop]
      split_ifs with halive
      · exact ih stolen h
      · exact ih _ (h.requeue none fun _ => by simpa using halive)

theorem givenBack_stealJob (s : Store) (kind : Kind) (ident : String) (here : Local) (key : Kind × String) :
    GivenBack (fun owner => (kind, ident) = key ∧ ownerIsDead owner here = true) s
      (stealJobLeaseIfOwnerDead s kind ident here).2 key := by
  have hstay : GivenBack (fun owner => (kind, ident) = key ∧ ownerIsDead owner here = true) s s key := Or.inl rfl
  unfold stealJobLeaseIfOwnerDead
  cases s.leases.get (kind, ident) with
  | none => exact hstay
  | some ownerToken =>
      dsimp only
      split_ifs with halive
      · exact hstay
      all_goals
        have hdead : ownerIsDead ownerToken here = true := by
          simpa using fun hfalse => halive (Or.inr hfalse)
        exact hstay.requeue none fun hkey => ⟨hkey, hdead⟩

/-- **The reconciliation of an owner.** -/
theorem givenBack_reconcile (s : Store) (kind : Kind) (known : List String) (owner : String) (key : Kind × String)
    (items : List (String × Inflight)) :
    ∀ (recovered : ℕ) {u : Store},
      GivenBack (fun owner' => kind = key.1 ∧ key.2 ∉ known ∧ owner = owner') s u key →
      GivenBack (fun owner' => kind = key.1 ∧ key.2 ∉ known ∧ owner = owner') s
        (reconcileLoop kind known owner items recovered u).2 key := by
  induction items with
  | nil => exact fun _ _ h => h
  | cons item items ih =>
      intro recovered u h
      obtain ⟨ident, entry⟩ := item
      rw [reconcileLoop]
      split_ifs with hskip
      · exact ih recovered h
      all_goals
        obtain ⟨hunknown, howner⟩ := not_or.mp hskip
        refine ih _ (h.requeue entry.score fun hkey => ?_)
        subst hkey
        exact ⟨rfl, hunknown, (not_not.mp howner).symm⟩

theorem queuedIdentities_reorderList (s : Store) (k : ListKind) (orderedIdents : List String) (key : Kind × String) :
    queuedIdentities (reorderList s k orderedIdents).2 key = queuedIdentities s key := by
  unfold reorderList
  split_ifs with hperm
  · obtain ⟨kind, i⟩ := key
    cases kind with
    | ingest => rfl
    | list k' =>
        show decide (i ∈ Function.update s.lists k orderedIdents k') = decide (i ∈ s.lists k')
        by_cases hk : k' = k
        · subst hk
          rw [Function.update_self]
          exact decide_eq_decide.mpr hperm.1.mem_iff.symm
        · rw [Function.update_of_ne hk]
  · rfl

/-- A job that is not in flight joins its queue or is queued already. -/
theorem effect_of_queued {s s' : Store} {op : Op} {kind : Kind} {ident : String}
    (hfree : (s.inflight kind).get ident = none)
    (h : ∀ key, custody s' key = if key = (kind, ident) then .queued else custody s key) (key : Kind × String) :
    Effect s s' op key := by
  have hkey := h key
  split_ifs at hkey with heq
  · subst heq
    have hunheld := custody_of_free hfree
    unfold unheld at hunheld
    split_ifs at hunheld
    · exact .stay (hkey.trans hunheld.symm)
    · exact .enqueue hunheld hkey
  · exact .stay hkey

theorem effect_zaddIngest {op : Op} (s : Store) (ident : String) (score : ℚ) (fingerprint : Option String) (cap : ℕ)
    (key : Kind × String) : Effect s (zaddIngest s ident score fingerprint cap).2 op key := by
  refine zaddIngest_rule (P := fun t => Effect s t op key) (.stay rfl) ident score fingerprint cap ?_ ?_
  · intro hfree
    exact effect_of_queued hfree (fun key => custody_putBack hfree score key) key
  · intro fields h
    have hcustody := custody_setFields (ingestSet s ident score) .ingest ident fields key
    cases h with
    | stay h => exact .stay (hcustody.trans h)
    | enqueue h h' => exact .enqueue h (hcustody.trans h')
    | claim owner h h' => exact .claim owner h (hcustody.trans h')
    | settle owner h h' hop => exact .settle owner h (hcustody.trans h') hop
    | giveBack owner h h' hop => exact .giveBack owner h (hcustody.trans h') hop

theorem effect_enqueueList {op : Op} (s : Store) (k : ListKind) (ident : String) (dedupe : Bool) (cap : ℕ)
    (key : Kind × String) : Effect s (enqueueList s k ident dedupe cap).2 op key := by
  unfold enqueueList
  split_ifs
  · exact .stay rfl
  · exact .stay rfl
  · cases hentry : (s.inflight (.list k)).get ident with
    | none => exact effect_of_queued hentry (custody_putBack hentry 0) key
    | some entry =>
        by_cases hkey : key = (.list k, ident)
        · subst hkey
          have hentry' : ((listAppend s k ident).inflight (.list k)).get ident = some entry := hentry
          exact .stay ((custody_of_entry hentry').trans (custody_of_entry hentry).symm)
        · exact .stay (custody_putBack_of_ne (s := s) 0 hkey)

theorem Claimed.effect {s t : Store} {kind : Kind} {owner : String} {jobs : List ClaimedJob} {op : Op}
    (h : Claimed s t kind owner jobs) (key : Kind × String) : Effect s t op key := by
  rcases h.cases key with hstay | ⟨hqueued, hheld⟩
  · exact .stay hstay
  · exact .claim owner hqueued hheld

/-- **What a step does to a job.** -/
theorem effect_step {s s' : Store} {op : Op} (hop : op ≠ .load) (hstep : step s op = some s') (key : Kind × String) :
    Effect s s' op key := by
  cases op with
  | zaddIngest ident score fingerprint cap =>
      obtain rfl := Option.some.inj hstep
      exact effect_zaddIngest s ident score fingerprint cap key
  | enqueueList k ident dedupe cap =>
      obtain rfl := Option.some.inj hstep
      exact effect_enqueueList s k ident dedupe cap key
  | claimIngest band owner deadline maxN fuel =>
      obtain ⟨r, hr, rfl⟩ := Option.map_eq_some_iff.mp hstep
      refine claimIngest_rule (P := fun t => Effect s t _ key) (.stay rfl) (fun want r' hr' => ?_) hr
      exact (claimIngestLoop_claimed band owner deadline fuel want hr').1.effect key
  | claimList k owner deadline =>
      obtain rfl := Option.some.inj hstep
      unfold claimList
      split_ifs
      · exact .stay rfl
      · exact (claimListLoop_claimed k owner deadline _ s).effect key
  | ack kind ident owner =>
      obtain rfl := Option.some.inj hstep
      rcases custody_ack s kind ident owner key with hstay | ⟨rfl, hheld, hgone⟩
      · exact .stay hstay
      · unfold unheld at hgone
        split_ifs at hgone
        · exact .giveBack owner hheld hgone ⟨rfl, rfl⟩
        · exact .settle owner hheld hgone rfl
  | requeue kind ident owner score =>
      obtain rfl := Option.some.inj hstep
      rcases custody_requeue s kind ident owner score key with hstay | ⟨hkey, hheld, hqueued⟩
      · exact .stay hstay
      · exact .giveBack owner hheld hqueued ⟨hkey, rfl⟩
  | renewJobLease kind ident owner deadline =>
      obtain rfl := Option.some.inj hstep
      unfold renewJobLease
      cases hentry : ownedEntry s kind ident owner with
      | none => exact .stay rfl
      | some entry =>
          refine .stay ?_
          dsimp only
          rw [custody_addInflight]
          split_ifs with hkey
          · rw [hkey, custody_of_entry (isSome_of_ownedEntry hentry)]
          · rfl
  | extendInflightDeadline kind ident deadline =>
      obtain rfl := Option.some.inj hstep
      unfold extendInflightDeadline
      cases hentry : (s.inflight kind).get ident with
      | none => exact .stay rfl
      | some entry =>
          -- the entry is written as by `addInflight`, and the leases take no part
          refine .stay ?_
          have hadd := custody_addInflight s kind ident ⟨deadline, entry.owner, entry.score⟩ key
          refine Eq.trans ?_ (hadd.trans ?_)
          · exact custody_of_eq rfl rfl rfl key
          · split_ifs with hkey
            · rw [hkey, custody_of_entry hentry]
            · rfl
  | reapExpiredInflight kind now limit =>
      obtain rfl := Option.some.inj hstep
      refine (givenBack_reap s kind now _ key _ (fun item hitem => get_of_mem hitem) [] (Or.inl rfl)).effect ?_
      exact fun _ hdue _ => hdue
  | stealDeadOwnerLeases here =>
      obtain rfl := Option.some.inj hstep
      exact (givenBack_steal here s key _ 0 (Or.inl rfl)).effect fun _ hdead _ => hdead
  | stealJobLeaseIfOwnerDead kind ident here =>
      obtain rfl := Option.some.inj hstep
      exact (givenBack_stealJob s kind ident here key).effect fun _ hdue _ => hdue
  | reconcileThisOwnerOrphanLeases kind known owner =>
      obtain rfl := Option.some.inj hstep
      exact (givenBack_reconcile s kind known owner key _ 0 (Or.inl rfl)).effect fun _ hdue _ => hdue
  | writeJobFingerprint kind ident fingerprint =>
      obtain rfl := Option.some.inj hstep
      unfold writeJobFingerprint
      split_ifs
      · exact .stay rfl
      · exact .stay (custody_setFields s kind ident _ key)
  | bumpJobAttempt kind ident =>
      obtain rfl := Option.some.inj hstep
      unfold bumpJobAttempt
      dsimp only
      split
      · exact .stay rfl
      · exact .stay (custody_setFields s kind ident _ key)
  | reorderList k orderedIdents =>
      obtain rfl := Option.some.inj hstep
      refine .stay (custody_congr ?_ (queuedIdentities_reorderList s k orderedIdents key))
      unfold reorderList
      split_ifs
      · rfl
      · rfl
  | persistFlush written =>
      obtain rfl := Option.some.inj hstep
      exact .stay (custody_of_eq rfl rfl rfl key)
  | load => exact absurd rfl hop

/-! ## Runs -/

theorem moves_of_run {ops : List Op} (hops : ∀ op ∈ ops, op ≠ .load) (key : Kind × String) :
    ∀ op ∈ ops, ∀ s s', step s op = some s' → (custody s key).Moves (custody s' key) :=
  fun op hop _ _ hstep => (effect_step (hops op hop) hstep key).moves

/-- **No run loses a job**: one that is gone was acknowledged, by the owner that held it. -/
theorem kept_of_run {s t : Store} {ops : List Op} {kind : Kind} {ident : String} (hops : ∀ op ∈ ops, op ≠ .load)
    (hs : custody s (kind, ident) ≠ .absent) (hrun : exec step s ops = some t)
    (ht : custody t (kind, ident) = .absent) :
    ∃ n u owner, ops[n]? = some (.ack kind ident owner) ∧ exec step s (ops.take n) = some u ∧
      custody u (kind, ident) = .held owner := by
  obtain ⟨n, op, u, u', owner, hget, hu, hstep, hheld, hgone⟩ :=
    settled_of_exec (moves_of_run hops (kind, ident)) hs hrun ht
  cases effect_step (hops op (List.mem_of_getElem? hget)) hstep (kind, ident) with
  | settle owner' hheld' _ hop => exact ⟨n, u, owner', hop ▸ hget, hu, hheld'⟩
  | stay h =>
      rw [h, hheld] at hgone
      cases hgone
  | enqueue h =>
      rw [h] at hheld
      cases hheld
  | claim owner' h =>
      rw [h] at hheld
      cases hheld
  | giveBack owner' _ hqueued =>
      rw [hqueued] at hgone
      cases hgone

/-- One archive append is queued. -/
def queuedOnce : Store := (enqueueList (Store.init Snapshot.empty) .append "/tar/a" true 1000).2

/-- It is claimed and acknowledged. -/
def claimAndAck : List Op :=
  [.claimList .append "n:h:b:1" 60, .ack (.list .append) "/tar/a" "n:h:b:1"]

theorem not_load_claimAndAck : ∀ op ∈ claimAndAck, op ≠ .load := by
  intro op hop heq
  subst heq
  simp [claimAndAck] at hop

theorem kept_of_run_claimAndAck : ∃ n u owner,
    claimAndAck[n]? = some (.ack (.list .append) "/tar/a" owner) ∧
      exec step queuedOnce (claimAndAck.take n) = some u ∧
      custody u (.list .append, "/tar/a") = .held owner := by
  refine kept_of_run not_load_claimAndAck ?_ (Eq.refl (exec step queuedOnce claimAndAck)) ?_
  · decide +kernel
  · decide +kernel

/-- **A claim is exclusive**: a job that its owner no longer holds was taken from it by one of the operations
that may. -/
theorem exclusive_of_run {s t : Store} {ops : List Op} {key : Kind × String} {owner : String}
    (hops : ∀ op ∈ ops, op ≠ .load) (hs : custody s key = .held owner) (hrun : exec step s ops = some t)
    (ht : custody t key ≠ .held owner) :
    ∃ n op u, ops[n]? = some op ∧ exec step s (ops.take n) = some u ∧ custody u key = .held owner ∧
      op.Releases u key owner := by
  obtain ⟨n, op, u, u', hget, hu, hstep, hheld, hgone⟩ :=
    released_of_exec (moves_of_run hops key) hs hrun ht
  refine ⟨n, op, u, hget, hu, hheld, ?_⟩
  have hleft : custody u' key ≠ .held owner := by
    intro h
    rcases hgone with hgone | hgone
    · rw [h] at hgone
      cases hgone
    · rw [h] at hgone
      cases hgone
  cases effect_step (hops op (List.mem_of_getElem? hget)) hstep key with
  | settle owner' hheld' _ hop =>
      obtain rfl := Status.held.inj (hheld.symm.trans hheld')
      rw [hop]
      exact ⟨rfl, rfl⟩
  | giveBack owner' hheld' _ hop =>
      obtain rfl := Status.held.inj (hheld.symm.trans hheld')
      exact hop
  | stay h => exact absurd (h.trans hheld) hleft
  | enqueue h =>
      rw [h] at hheld
      cases hheld
  | claim owner' h =>
      rw [h] at hheld
      cases hheld

theorem exclusive_of_run_claimAndAck : ∃ n op u, claimAndAck.tail[n]? = some op ∧
    exec step (claimList queuedOnce .append "n:h:b:1" 60).2 (claimAndAck.tail.take n) = some u ∧
      custody u (.list .append, "/tar/a") = .held "n:h:b:1" ∧ op.Releases u (.list .append, "/tar/a") "n:h:b:1" := by
  refine exclusive_of_run (fun op hop => not_load_claimAndAck op (List.mem_of_mem_tail hop)) ?_
    (Eq.refl (exec step _ claimAndAck.tail)) ?_
  · decide +kernel
  · decide +kernel

end JobStore
