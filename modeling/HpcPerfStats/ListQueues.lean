/-
# The LIST queues under `dedupe`

Every caller of `enqueue_list_job` asks for `dedupe`: the identity is not queued again while it is queued or in
flight.  Then no LIST queue has an identity twice and none has one that is in flight, over every run of the store,
reloads from its own document included, so that none of the steps that tear the parts of the store apart is ever
taken (`queuedOnce_of_run`).
-/
import HpcPerfStats.JobCustody

namespace JobStore

open OrderedDict

/-- Every enqueue asks for `dedupe`. -/
def Deduped : Op → Prop
  | .enqueueList _ _ dedupe _ => dedupe = true
  | _ => True

/-- The document is neither written nor read. -/
def Op.InMemory : Op → Prop
  | .load => False
  | .persistFlush _ => False
  | _ => True

/-- No identity is queued twice, and none is queued and in flight; the document on disk is this one. -/
structure Single (disk : Snapshot) (s : Store) : Prop where
  nodup : ∀ k, (s.lists k).Nodup
  free : ∀ k, ∀ i ∈ s.lists k, (s.inflight (.list k)).get i = none
  disk : s.disk = disk

section Single

variable {disk : Snapshot} {s t : Store}

/-- The lists stay, and no more jobs are in flight. -/
theorem Single.of_lists (h : Single disk s) (hlists : t.lists = s.lists) (hdisk : t.disk = s.disk)
    (hfree : ∀ k i, (s.inflight (.list k)).get i = none → (t.inflight (.list k)).get i = none) : Single disk t := by
  refine ⟨fun k => hlists ▸ h.nodup k, ?_, hdisk.trans h.disk⟩
  intro k i hi
  rw [hlists] at hi
  exact hfree k i (h.free k i hi)

theorem Single.congr (h : Single disk s) (hlists : t.lists = s.lists) (hdisk : t.disk = s.disk)
    (hinflight : ∀ k, t.inflight (.list k) = s.inflight (.list k)) : Single disk t :=
  h.of_lists hlists hdisk fun k i hi => (congrArg (Dict.get · i) (hinflight k)).trans hi

theorem Single.listAppend (h : Single disk s) {k : ListKind} {ident : String} (hnot : ident ∉ s.lists k)
    (hfree : (s.inflight (.list k)).get ident = none) : Single disk (listAppend s k ident) := by
  refine ⟨fun k' => ?_, fun k' i hi => ?_, h.disk⟩
  · show (Function.update s.lists k (s.lists k ++ [ident]) k').Nodup
    by_cases hk : k' = k
    · subst hk
      rw [Function.update_self]
      exact (h.nodup k').append (List.nodup_singleton ident) (List.disjoint_singleton.mpr hnot)
    · rw [Function.update_of_ne hk]
      exact h.nodup k'
  · have hi' : i ∈ Function.update s.lists k (s.lists k ++ [ident]) k' := hi
    show (s.inflight (.list k')).get i = none
    by_cases hk : k' = k
    · subst hk
      rw [Function.update_self] at hi'
      rcases List.mem_append.mp hi' with hold | hnew
      · exact h.free k' i hold
      · rw [List.mem_singleton.mp hnew]
        exact hfree
    · rw [Function.update_of_ne hk] at hi'
      exact h.free k' i hi'

theorem Single.dropInflight (h : Single disk s) (kind : Kind) (ident : String) :
    Single disk (dropInflight s kind ident) := by
  refine h.of_lists rfl rfl fun k i hi => ?_
  by_cases hkind : Kind.list k = kind
  · subst hkind
    rw [dropInflight_inflight, get_pop, hi]
    exact ite_self none
  · rw [dropInflight_inflight_of_ne s hkind]
    exact hi

theorem Single.ingestSet (h : Single disk s) (ident : String) (score : ℚ) : Single disk (ingestSet s ident score) := by
  obtain ⟨heapHot, heapCatchup, heq⟩ := ingestSet_spec s ident score
  rw [heq]
  exact h.congr rfl rfl fun _ => rfl

/-- A job that is in flight was not queued, and goes back to the end of its queue. -/
theorem Single.giveBack (h : Single disk s) {kind : Kind} {ident : String}
    (hheld : ((s.inflight kind).get ident).isSome = true) (score : ℚ) :
    Single disk (putBack (JobStore.dropInflight s kind ident) kind ident score) := by
  have hdrop := h.dropInflight kind ident
  cases kind with
  | ingest => exact hdrop.ingestSet ident score
  | list k =>
      refine hdrop.listAppend (fun hmem => ?_) ?_
      · rw [h.free k ident hmem] at hheld
        cases hheld
      · rw [dropInflight_inflight, get_pop, if_pos rfl]

theorem Single.requeue (h : Single disk s) (kind : Kind) (ident owner : String) (score : Option ℚ) :
    Single disk (requeue s kind ident owner score).2 := by
  unfold JobStore.requeue
  cases hentry : ownedEntry s kind ident owner with
  | none => exact h
  | some entry => exact h.giveBack (Option.isSome_iff_exists.mpr ⟨entry, isSome_of_ownedEntry hentry⟩) _

/-- An entry that replaces another one. -/
theorem Single.addInflight (h : Single disk s) {kind : Kind} {ident : String} (entry : Inflight)
    (hnot : ∀ k, kind = .list k → ident ∉ s.lists k) : Single disk (addInflight s kind ident entry) := by
  refine ⟨h.nodup, fun k i hi => ?_, h.disk⟩
  by_cases hkind : Kind.list k = kind
  · subst hkind
    have hne : i ≠ ident := by
      rintro rfl
      exact hnot k rfl hi
    rw [addInflight_inflight, get_set, if_neg hne]
    exact h.free k i hi
  · rw [addInflight_inflight_of_ne s hkind]
    exact h.free k i hi

theorem Single.claimIngest (h : Single disk s) {band : Band} {owner : String} {deadline : ℚ} {maxN : ℤ} {fuel : ℕ}
    {r : Except String (List ClaimedJob) × Store} (hr : claimIngest s band owner deadline maxN fuel = some r) :
    Single disk r.2 := by
  refine claimIngest_rule h (fun want r' hr' => claimIngestLoop_rule ?_ ?_ fuel want h hr') hr
  · intro s band' heap hs
    cases band' with
    | hot => exact hs.congr rfl rfl fun _ => rfl
    | catchup => exact hs.congr rfl rfl fun _ => rfl
  · intro s ident live hs _ _
    have hpop : Single disk (ingestPop s ident live) := by
      rw [ingestPop_eq]
      exact hs.congr rfl rfl fun _ => rfl
    exact hpop.addInflight _ fun k hk => by cases hk

/-- The job in front of a LIST queue is not in flight, so that it is the one claimed. -/
theorem Single.claimList (h : Single disk s) (k : ListKind) (owner : String) (deadline : ℚ) :
    Single disk (claimList s k owner deadline).2 := by
  unfold JobStore.claimList
  split_ifs
  · exact h
  · dsimp only
    rcases hl : s.lists k with _ | ⟨ident, rest⟩
    · exact h
    · have hfree := h.free k ident (hl ▸ List.mem_cons_self)
      have hnodup := h.nodup k
      rw [hl, List.nodup_cons] at hnodup
      rw [List.length_cons, claimListLoop_cons k owner deadline _ hl, if_neg (by simp [isInflight, hfree])]
      -- what stays in the list
      have hsub : ∀ k', List.Sublist (Function.update s.lists k rest k') (s.lists k') := by
        intro k'
        by_cases hk : k' = k
        · subst hk
          rw [Function.update_self, hl]
          exact List.sublist_cons_self ident rest
        · rw [Function.update_of_ne hk]
      have hpop : Single disk (listPop s k ident rest) :=
        ⟨fun k' => (h.nodup k').sublist (hsub k'), fun k' i hi => h.free k' i ((hsub k').subset hi), h.disk⟩
      refine hpop.addInflight _ fun k' hk' => ?_
      obtain rfl := Kind.list.inj hk'
      show ident ∉ Function.update s.lists k rest k
      rw [Function.update_self]
      exact hnodup.1

theorem Single.ack (h : Single disk s) (kind : Kind) (ident owner : String) :
    Single disk (ack s kind ident owner).2 := by
  unfold JobStore.ack
  cases ownedEntry s kind ident owner with
  | none => exact h
  | some entry =>
      have hdrop := h.dropInflight kind ident
      cases kind with
      | ingest => exact hdrop.congr rfl rfl fun _ => rfl
      | list k => exact hdrop.congr rfl rfl fun _ => rfl

theorem Single.renewJobLease (h : Single disk s) (kind : Kind) (ident owner : String) (deadline : ℚ) :
    Single disk (renewJobLease s kind ident owner deadline).2 := by
  unfold JobStore.renewJobLease
  cases hentry : ownedEntry s kind ident owner with
  | none => exact h
  | some entry =>
      refine h.addInflight _ fun k hk hmem => ?_
      subst hk
      have hheld := isSome_of_ownedEntry hentry
      rw [h.free k ident hmem] at hheld
      cases hheld

theorem Single.extendInflightDeadline (h : Single disk s) (kind : Kind) (ident : String) (deadline : ℚ) :
    Single disk (extendInflightDeadline s kind ident deadline).2 := by
  unfold JobStore.extendInflightDeadline
  cases hentry : (s.inflight kind).get ident with
  | none => exact h
  | some entry =>
      have hadd : Single disk (JobStore.addInflight s kind ident ⟨deadline, entry.owner, entry.score⟩) := by
        refine h.addInflight _ fun k hk hmem => ?_
        subst hk
        rw [h.free k ident hmem] at hentry
        cases hentry
      exact hadd.congr rfl rfl fun _ => rfl

/-- The jobs that are still to be looked at are in flight. -/
theorem Single.reapLoop (kind : Kind) (cutoff : ℚ) (want : ℕ) (items : List (String × Inflight)) :
    ∀ (out : List String) {s : Store}, Single disk s → (items.map Prod.fst).Nodup →
      (∀ item ∈ items, ((s.inflight kind).get item.1).isSome = true) →
      Single disk (reapLoop kind cutoff want items out s).2 := by
  induction items with
  | nil => exact fun _ _ h _ _ => h
  | cons item items ih =>
      intro out s h hnodup hheld
      obtain ⟨ident, entry⟩ := item
      rw [List.map_cons, List.nodup_cons] at hnodup
      have hrest : ∀ item ∈ items, ((s.inflight kind).get item.1).isSome = true :=
        fun item hitem => hheld item (List.mem_cons_of_mem _ hitem)
      rw [JobStore.reapLoop]
      split_ifs
      · exact h
      · exact ih out h hnodup.2 hrest
      · refine ih _ (h.giveBack (hheld _ List.mem_cons_self) _) hnodup.2 ?_
        intro item hitem
        rw [putBack_inflight, dropInflight_inflight, get_pop, if_neg]
        · exact hrest item hitem
        · rintro rfl
          exact hnodup.1 (List.mem_map.mpr ⟨item, hitem, rfl⟩)

theorem Single.setFields (h : Single disk s) (kind : Kind) (ident : String) (fields : Fields) :
    Single disk (setFields s kind ident fields) := by
  unfold JobStore.setFields
  dsimp only
  split_ifs
  · exact h.congr rfl rfl fun _ => rfl
  · exact h.congr rfl rfl fun _ => rfl

/-- **One operation.** -/
theorem single_step {s' : Store} {op : Op} (h : Single disk s) (hpending : ∀ k, s.pending k = (s.lists k).toFinset)
    (hdeduped : Deduped op) (hmemory : op.InMemory) (hstep : step s op = some s') : Single disk s' := by
  cases op with
  | zaddIngest ident score fingerprint cap =>
      obtain rfl := Option.some.inj hstep
      exact zaddIngest_rule h ident score fingerprint cap (fun _ => h.ingestSet ident score)
        fun fields hset => hset.setFields .ingest ident fields
  | enqueueList k ident dedupe cap =>
      obtain rfl := Option.some.inj hstep
      obtain rfl : dedupe = true := hdeduped
      unfold JobStore.enqueueList
      split_ifs with hseen
      · exact h
      · exact h
      · rw [Bool.true_and, Bool.or_eq_true, not_or, decide_eq_true_eq, hpending, List.mem_toFinset] at hseen
        exact h.listAppend hseen.1 (Option.not_isSome_iff_eq_none.mp hseen.2)
  | claimIngest band owner deadline maxN fuel =>
      have hmap : (JobStore.claimIngest s band owner deadline maxN fuel).map Prod.snd = some s' := hstep
      obtain ⟨r, hr, rfl⟩ := Option.map_eq_some_iff.mp hmap
      exact h.claimIngest hr
  | claimList k owner deadline =>
      obtain rfl := Option.some.inj hstep
      exact h.claimList k owner deadline
  | ack kind ident owner =>
      obtain rfl := Option.some.inj hstep
      exact h.ack kind ident owner
  | requeue kind ident owner score =>
      obtain rfl := Option.some.inj hstep
      exact h.requeue kind ident owner score
  | renewJobLease kind ident owner deadline =>
      obtain rfl := Option.some.inj hstep
      exact h.renewJobLease kind ident owner deadline
  | extendInflightDeadline kind ident deadline =>
      obtain rfl := Option.some.inj hstep
      exact h.extendInflightDeadline kind ident deadline
  | reapExpiredInflight kind now limit =>
      obtain rfl := Option.some.inj hstep
      refine Single.reapLoop kind _ _ _ [] h (s.inflight kind).nodup fun item hitem => ?_
      rw [get_of_mem hitem]
      rfl
  | stealDeadOwnerLeases here =>
      obtain rfl := Option.some.inj hstep
      exact stealLoop_rule here _ (fun s kind ident owner hs => hs.requeue kind ident owner none) 0 h
  | stealJobLeaseIfOwnerDead kind ident here =>
      obtain rfl := Option.some.inj hstep
      show Single disk (JobStore.stealJobLeaseIfOwnerDead s kind ident here).2
      unfold JobStore.stealJobLeaseIfOwnerDead
      cases s.leases.get (kind, ident) with
      | none => exact h
      | some owner =>
          have hback := h.requeue kind ident owner none
          dsimp only
          split_ifs
          · exact h
          · exact hback
          · exact hback
          · exact hback.congr rfl rfl fun _ => rfl
  | reconcileThisOwnerOrphanLeases kind known owner =>
      obtain rfl := Option.some.inj hstep
      exact reconcileLoop_rule known owner _ (fun item _ s hs => hs.requeue kind item.1 item.2.owner item.2.score) 0 h
  | writeJobFingerprint kind ident fingerprint =>
      obtain rfl := Option.some.inj hstep
      show Single disk (JobStore.writeJobFingerprint s kind ident fingerprint)
      unfold JobStore.writeJobFingerprint
      split_ifs
      · exact h
      · exact h.setFields kind ident _
  | bumpJobAttempt kind ident =>
      obtain rfl := Option.some.inj hstep
      show Single disk (JobStore.bumpJobAttempt s kind ident).2
      unfold JobStore.bumpJobAttempt
      dsimp only
      split
      · exact h
      · exact h.setFields kind ident _
  | reorderList k orderedIdents =>
      obtain rfl := Option.some.inj hstep
      show Single disk (JobStore.reorderList s k orderedIdents).2
      unfold JobStore.reorderList
      split_ifs with hperm
      · have hperm' : ∀ k', (Function.update s.lists k orderedIdents k').Perm (s.lists k') := by
          intro k'
          by_cases hk : k' = k
          · subst hk
            rw [Function.update_self]
            exact hperm.1.symm
          · rw [Function.update_of_ne hk]
        exact ⟨fun k' => (hperm' k').nodup_iff.mpr (h.nodup k'),
          fun k' i hi => h.free k' i ((hperm' k').mem_iff.mp hi), h.disk⟩
      · exact h
  | persistFlush written => exact absurd hmemory not_false
  | load => exact absurd hmemory not_false

end Single

/-! ## Runs -/

/-- The lists of a document are without repetitions, and the sets beside them are theirs. -/
def Snapshot.Listed (disk : Snapshot) : Prop :=
  ∀ k, (disk.lists k).Nodup ∧ disk.pending k = (disk.lists k).toFinset

structure Tidy (s : Store) : Prop extends Inv s where
  single : Single s.disk s
  listed : s.disk.Listed

section Runs

variable {s s' : Store} {op : Op}

/-- **No step goes wrong.** -/
theorem Tidy.stepOk (h : Tidy s) (op : Op) : StepOk s op := by
  cases op with
  | claimList k owner deadline =>
      intro _ i htaken hleft
      have hsplit : takenOff s k ++ leftOver s k = s.lists k := by
        unfold takenOff leftOver
        rw [List.append_assoc, List.take_append_drop, List.takeWhile_append_dropWhile]
      have hnodup := h.single.nodup k
      rw [← hsplit] at hnodup
      exact List.disjoint_of_nodup_append hnodup htaken hleft
  | ack kind ident owner =>
      cases kind with
      | ingest => trivial
      | list k =>
          intro howned hmem
          obtain ⟨entry, hentry⟩ := Option.isSome_iff_exists.mp howned
          have hheld := isSome_of_ownedEntry hentry
          rw [h.single.free k ident hmem] at hheld
          cases hheld
  | load => exact fun k => (h.listed k).2
  | _ => trivial

theorem Tidy.step (h : Tidy s) (hdeduped : Deduped op) (hstep : step s op = some s') : Tidy s' := by
  have hinv : Inv s' := (inv_step_iff h.toInv hstep).mpr (h.stepOk op)
  by_cases hmemory : op.InMemory
  · have hsingle := single_step h.single h.pending hdeduped hmemory hstep
    exact ⟨hinv, hsingle.disk ▸ hsingle, hsingle.disk ▸ h.listed⟩
  · cases op with
    | persistFlush written =>
        obtain rfl := Option.some.inj hstep
        refine ⟨hinv, ⟨h.single.nodup, h.single.free, rfl⟩, ?_⟩
        cases written with
        | false => exact h.listed
        | true =>
            intro k
            show (s.shadow.lists k).Nodup ∧ s.shadow.pending k = (s.shadow.lists k).toFinset
            rw [h.shadow_lists, h.shadow_pending]
            exact ⟨h.single.nodup k, h.pending k⟩
    | load =>
        obtain rfl := Option.some.inj hstep
        obtain ⟨heapHot, heapCatchup, heq⟩ := load_eq s
        rw [heq] at hinv ⊢
        exact ⟨hinv, ⟨fun k => (h.listed k).1, fun _ _ _ => rfl, rfl⟩, h.listed⟩
    | _ => exact absurd trivial hmemory

theorem tidy_init {disk : Snapshot} (hdisk : disk.Listed) : Tidy (Store.init disk) :=
  ⟨inv_init disk, ⟨fun _ => List.nodup_nil, fun _ _ _ => rfl, rfl⟩, hdisk⟩

/-- **Queued once**: when every enqueue asks for `dedupe`, the parts of the store agree in every state of a run, and
no LIST queue has an identity twice or one that is in flight. -/
theorem queuedOnce_of_run {disk : Snapshot} {ops : List Op} (hdisk : disk.Listed) (hops : ∀ op ∈ ops, Deduped op)
    (hrun : Transition.exec JobStore.step (Store.init disk) ops = some s) :
    Inv s ∧ ∀ k, (s.lists k).Nodup ∧ ∀ i ∈ s.lists k, (s.inflight (.list k)).get i = none := by
  have h : Tidy s := Transition.exec_invariant (fun _ _ _ h hop hstep => h.step hop hstep) ops _ s (tidy_init hdisk)
    (Transition.respects_of_forall hops _) hrun
  exact ⟨h.toInv, fun k => ⟨h.single.nodup k, h.single.free k⟩⟩

/-- A file is queued twice and claimed, and the store is written and loaded. -/
def queueAndReload : List Op :=
  [.enqueueList .append "/raw/a" true 1000, .enqueueList .append "/raw/a" true 1000, .persistFlush true,
    .claimList .append "0f:h:b:1" 60, .enqueueList .append "/raw/a" true 1000, .load]

theorem queuedOnce_of_run_queueAndReload : ∃ s,
    Transition.exec JobStore.step (Store.init Snapshot.empty) queueAndReload = some s ∧
      Inv s ∧ ∀ k, (s.lists k).Nodup ∧ ∀ i ∈ s.lists k, (s.inflight (.list k)).get i = none := by
  have hops : ∀ op ∈ queueAndReload, Deduped op := by
    intro op hop
    simp only [queueAndReload, List.mem_cons, List.not_mem_nil, or_false] at hop
    rcases hop with rfl | rfl | rfl | rfl | rfl | rfl
    all_goals first
      | rfl
      | trivial
  exact ⟨_, rfl, queuedOnce_of_run (fun k => ⟨List.nodup_nil, rfl⟩) hops rfl⟩

end Runs

end JobStore
