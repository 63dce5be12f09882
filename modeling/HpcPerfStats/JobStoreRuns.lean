/-
# Runs of the job store

The parts of the job store stay in step (`JobStore.Inv`) under every operation but three.  `claim_list`
takes an identity out of the set beside the list even when the list holds it again, which
`enqueue_list` without `dedupe` allows; `ack` of a LIST job takes the identity out of the set and
drops its payload although it may be queued again; and `load` takes the set as the document has it.

`inv_iff_respects` is about whole runs: the parts agree in every state of a run exactly when none of
these steps is taken in a state where it goes wrong (`StepOk`).
-/
import HpcPerfStats.JobStoreInv
import HpcPerfStats.Transition

namespace JobStore

open OrderedDict

/-! ## Operations -/

/-- The operations of the store. -/
inductive Op where
  | zaddIngest (ident : String) (score : ℚ) (fingerprint : Option String) (cap : ℕ)
  | enqueueList (k : ListKind) (ident : String) (dedupe : Bool) (cap : ℕ)
  | claimIngest (band : Band) (owner : String) (deadline : ℚ) (maxN : ℤ) (fuel : ℕ)
  | claimList (k : ListKind) (owner : String) (deadline : ℚ)
  | ack (kind : Kind) (ident owner : String)
  | requeue (kind : Kind) (ident owner : String) (score : Option ℚ)
  | renewJobLease (kind : Kind) (ident owner : String) (deadline : ℚ)
  | extendInflightDeadline (kind : Kind) (ident : String) (deadline : ℚ)
  | reapExpiredInflight (kind : Kind) (now : ℚ) (limit : ℤ)
  | stealDeadOwnerLeases (here : Local)
  | stealJobLeaseIfOwnerDead (kind : Kind) (ident : String) (here : Local)
  | reconcileThisOwnerOrphanLeases (kind : Kind) (known : List String) (owner : String)
  | writeJobFingerprint (kind : Kind) (ident fingerprint : String)
  | bumpJobAttempt (kind : Kind) (ident : String)
  | reorderList (k : ListKind) (orderedIdents : List String)
  | persistFlush (written : Bool)
  | load

/-- The store after an operation; `none` when the loop of `claim_ingest` has not ended. -/
def step (s : Store) : Op → Option Store
  | .zaddIngest ident score fingerprint cap => some (zaddIngest s ident score fingerprint cap).2
  | .enqueueList k ident dedupe cap => some (enqueueList s k ident dedupe cap).2
  | .claimIngest band owner deadline maxN fuel =>
      (claimIngest s band owner deadline maxN fuel).map Prod.snd
  | .claimList k owner deadline => some (claimList s k owner deadline).2
  | .ack kind ident owner => some (ack s kind ident owner).2
  | .requeue kind ident owner score => some (requeue s kind ident owner score).2
  | .renewJobLease kind ident owner deadline => some (renewJobLease s kind ident owner deadline).2
  | .extendInflightDeadline kind ident deadline =>
      some (extendInflightDeadline s kind ident deadline).2
  | .reapExpiredInflight kind now limit => some (reapExpiredInflight s kind now limit).2
  | .stealDeadOwnerLeases here => some (stealDeadOwnerLeases s here).2
  | .stealJobLeaseIfOwnerDead kind ident here => some (stealJobLeaseIfOwnerDead s kind ident here).2
  | .reconcileThisOwnerOrphanLeases kind known owner =>
      some (reconcileThisOwnerOrphanLeases s kind known owner).2
  | .writeJobFingerprint kind ident fingerprint => some (writeJobFingerprint s kind ident fingerprint)
  | .bumpJobAttempt kind ident => some (bumpJobAttempt s kind ident).2
  | .reorderList k orderedIdents => some (reorderList s k orderedIdents).2
  | .persistFlush written => some (persistFlush s written)
  | .load => some (load s)

/-- **When an operation keeps the parts in step.**  A claim from a list takes off nothing that the
list holds again behind it, an acknowledged LIST job is not queued again, and the document that is
loaded has the identities of each list in the set beside it. -/
def StepOk (s : Store) : Op → Prop
  | .claimList k owner _ => owner ≠ "" → ∀ i ∈ takenOff s k, i ∉ leftOver s k
  | .ack (.list k) ident owner => (ownedEntry s (.list k) ident owner).isSome = true → ident ∉ s.lists k
  | .load => ∀ k, s.disk.pending k = (s.disk.lists k).toFinset
  | _ => True

/-! ## The rules of the loops and of `zadd_ingest` -/

/-- **The rule of the loop of `claim_ingest`**: what a changed heap and a claimed job leave true. -/
theorem claimIngestLoop_rule {P : Store → Prop} {band : Band} {owner : String} {deadline : ℚ}
    (hheap : ∀ s band' heap, P s → P (s.setHeap band' heap))
    (htake : ∀ s ident live, P s → (s.inflight .ingest).get ident = none → s.ingest.get ident = some live →
      P (addInflight (ingestPop s ident live) .ingest ident ⟨deadline, owner, some live⟩)) (fuel : ℕ) :
    ∀ (want : ℕ) {s : Store} {r : List ClaimedJob × Store}, P s →
      claimIngestLoop band owner deadline fuel want s = some r → P r.2 := by
  induction fuel with
  | zero =>
      intro want s r h hr
      cases want with
      | zero =>
          rw [JobStore.claimIngestLoop, Option.some.injEq] at hr
          rw [← hr]
          exact h
      | succ want =>
          rw [JobStore.claimIngestLoop] at hr
          exact absurd hr (by simp)
  | succ fuel ih =>
      intro want s r h hr
      cases want with
      | zero =>
          rw [JobStore.claimIngestLoop, Option.some.injEq] at hr
          rw [← hr]
          exact h
      | succ want =>
          rw [JobStore.claimIngestLoop] at hr
          rcases hentries : s.heap band with _ | ⟨⟨snapScore, ident⟩, rest⟩
          · rw [hentries] at hr
            obtain rfl := Option.some.inj hr
            exact h
          · rw [hentries] at hr
            have hpop := hheap s band rest h
            simp only at hr
            by_cases hfly : (((s.setHeap band rest).inflight .ingest).get ident).isSome = true
            · rw [if_pos hfly] at hr
              exact ih _ hpop hr
            · rw [if_neg hfly] at hr
              rcases hlive : (s.setHeap band rest).ingest.get ident with _ | live
              · rw [hlive] at hr
                exact ih _ hpop hr
              · rw [hlive] at hr
                simp only at hr
                by_cases hstale : live ≠ snapScore ∨ inScoreRange band live = false
                · -- a stale entry is pushed back
                  rw [if_pos hstale] at hr
                  exact ih _ (hheap _ _ _ hpop) hr
                · rw [if_neg hstale, Option.map_eq_some_iff] at hr
                  obtain ⟨r', hr', rfl⟩ := hr
                  show P r'.2
                  exact ih want (htake _ ident live hpop (by simpa using hfly) hlive) hr'

/-- The rule of `claim_ingest`: a call that is refused changes nothing. -/
theorem claimIngest_rule {P : Store → Prop} {s : Store} {band : Band} {owner : String} {deadline : ℚ}
    {maxN : ℤ} {fuel : ℕ} {r : Except String (List ClaimedJob) × Store} (hs : P s)
    (hloop : ∀ want r', claimIngestLoop band owner deadline fuel want s = some r' → P r'.2)
    (hr : claimIngest s band owner deadline maxN fuel = some r) : P r.2 := by
  unfold claimIngest at hr
  split_ifs at hr
  · obtain rfl := Option.some.inj hr
    exact hs
  · obtain rfl := Option.some.inj hr
    exact hs
  · obtain ⟨r', hr', rfl⟩ := Option.map_eq_some_iff.mp hr
    exact hloop _ r' hr'

/-- **The rule of the loop of `claim_list`.** -/
theorem claimListLoop_rule {P : Store → Prop} {k : ListKind} {owner : String} {deadline : ℚ}
    (hpop : ∀ s ident rest, P s → P (listPop s k ident rest))
    (htake : ∀ s ident, P s → P (addInflight s (.list k) ident ⟨deadline, owner, none⟩)) (n : ℕ) :
    ∀ {s : Store}, P s → P (claimListLoop k owner deadline n s).2 := by
  induction n with
  | zero => exact fun h => h
  | succ n ih =>
      intro s h
      rw [claimListLoop]
      cases s.lists k with
      | nil => exact h
      | cons ident rest =>
          dsimp only
          split_ifs
          · exact ih (hpop s ident rest h)
          · exact htake _ ident (hpop s ident rest h)

/-- **The rule of the loop of `reap_expired_inflight`.** -/
theorem reapLoop_rule {P : Store → Prop} {kind : Kind} (cutoff : ℚ) (want : ℕ)
    (items : List (String × Inflight)) (hback : ∀ item ∈ items, ∀ s, P s →
      P (putBack (dropInflight s kind item.1) kind item.1
        (item.2.score.getD catchupScoreBase + leaseConflictScorePenalty))) :
    ∀ (out : List String) {s : Store}, P s → P (reapLoop kind cutoff want items out s).2 := by
  induction items with
  | nil => exact fun out s h => h
  | cons item items ih =>
      intro out s h
      have hrest := ih fun i hi => hback i (List.mem_cons_of_mem item hi)
      obtain ⟨ident, entry⟩ := item
      rw [reapLoop]
      split_ifs
      · exact h
      · exact hrest out h
      · exact hrest _ (hback (ident, entry) List.mem_cons_self s h)

/-- **The rule of the loop of `steal_dead_owner_leases`.** -/
theorem stealLoop_rule {P : Store → Prop} (here : Local) (items : List ((Kind × String) × String))
    (hrequeue : ∀ s kind ident ownerToken, P s → P (requeue s kind ident ownerToken none).2) :
    ∀ (stolen : ℕ) {s : Store}, P s → P (stealLoop here items stolen s).2 := by
  induction items with
  | nil => exact fun stolen s h => h
  | cons item items ih =>
      intro stolen s h
      obtain ⟨⟨kind, ident⟩, ownerToken⟩ := item
      rw [stealLoop]
      split_ifs
      · exact ih stolen h
      · exact ih _ (hrequeue s kind ident ownerToken h)

/-- **The rule of the loop of `reconcile_this_owner_orphan_leases`.** -/
theorem reconcileLoop_rule {P : Store → Prop} {kind : Kind} (known : List String) (owner : String)
    (items : List (String × Inflight)) (hrequeue : ∀ item ∈ items, ∀ s, P s →
      P (requeue s kind item.1 item.2.owner item.2.score).2) :
    ∀ (recovered : ℕ) {s : Store}, P s → P (reconcileLoop kind known owner items recovered s).2 := by
  induction items with
  | nil => exact fun recovered s h => h
  | cons item items ih =>
      intro recovered s h
      have hrest := ih fun i hi => hrequeue i (List.mem_cons_of_mem item hi)
      obtain ⟨ident, entry⟩ := item
      rw [reconcileLoop]
      split_ifs
      · exact hrest recovered h
      · exact hrest _ (hrequeue (ident, entry) List.mem_cons_self s h)

/-- **The rule of `zadd_ingest`**: the job is queued, and its fingerprint is written. -/
theorem zaddIngest_rule {P : Store → Prop} {s : Store} (h : P s) (ident : String) (score : ℚ)
    (fingerprint : Option String) (cap : ℕ)
    (hset : (s.inflight .ingest).get ident = none → P (ingestSet s ident score))
    (hfields : ∀ fields, P (ingestSet s ident score) →
      P (setFields (ingestSet s ident score) .ingest ident fields)) :
    P (zaddIngest s ident score fingerprint cap).2 := by
  unfold zaddIngest
  by_cases hfly : ((s.inflight .ingest).get ident).isSome = true
  · rw [if_pos hfly]
    exact h
  · rw [if_neg hfly]
    have hnext := hset (by simpa using hfly)
    dsimp only
    by_cases hcap : (!(s.ingest.get ident).isSome && !decide (s.ingest.size < cap) &&
        decodeIngestBand score != Band.hot) = true
    · rw [if_pos hcap]
      exact h
    · rw [if_neg hcap]
      cases fingerprint with
      | none => exact hnext
      | some fp =>
          by_cases hfp : fp = ""
          · simp only [hfp, if_true]
            exact hnext
          · simp only [hfp, if_false]
            -- the identity is queued now, so that writing the field mirrors it
            have hqueued : identityIsQueued (ingestSet s ident score) (.ingest, ident) = true := by
              obtain ⟨heapHot, heapCatchup, heq⟩ := ingestSet_spec s ident score
              rw [heq]
              show ((s.ingest.set ident score).get ident).isSome = true
              rw [get_set, if_pos rfl]
              rfl
            rw [← setFields_of_queued hqueued]
            exact hfields _ hnext

/-! ## The operations that always keep the parts in step -/

theorem Inv.zaddIngest {s : Store} (h : Inv s) (ident : String) (score : ℚ)
    (fingerprint : Option String) (cap : ℕ) : Inv (zaddIngest s ident score fingerprint cap).2 :=
  zaddIngest_rule h ident score fingerprint cap (fun hfree => h.ingestSet score hfree)
    fun fields hset => hset.setFields .ingest ident fields

theorem Inv.enqueueList {s : Store} (h : Inv s) (k : ListKind) (ident : String) (dedupe : Bool)
    (cap : ℕ) : Inv (enqueueList s k ident dedupe cap).2 := by
  unfold JobStore.enqueueList
  split_ifs
  · exact h
  · exact h
  · exact h.listAppend k ident

/-- The loop of `claim_ingest`. -/
theorem Inv.claimIngestLoop (band : Band) (owner : String) (deadline : ℚ) (fuel : ℕ) (want : ℕ)
    {s : Store} {r : List ClaimedJob × Store} (h : Inv s)
    (hr : claimIngestLoop band owner deadline fuel want s = some r) : Inv r.2 :=
  claimIngestLoop_rule (fun _ band' heap hs => hs.setHeap band' heap)
    (fun _ _ _ hs _ hlive => hs.claimIngest hlive _) fuel want h hr

theorem Inv.putBack {s : Store} (h : Inv s) (kind : Kind) (ident : String) (score : ℚ) :
    Inv (JobStore.putBack (JobStore.dropInflight s kind ident) kind ident score) := by
  have hdrop := h.dropInflight kind ident
  cases kind with
  | ingest =>
      apply hdrop.ingestSet
      rw [dropInflight_inflight, get_pop, if_pos rfl]
  | list k => exact hdrop.listAppend k ident

theorem Inv.requeue {s : Store} (h : Inv s) (kind : Kind) (ident owner : String)
    (score : Option ℚ) : Inv (requeue s kind ident owner score).2 := by
  unfold JobStore.requeue
  split
  · exact h
  · exact h.putBack kind ident _

/-- A held claim is in flight. -/
theorem isSome_of_ownedEntry {s : Store} {kind : Kind} {ident owner : String} {entry : Inflight}
    (h : ownedEntry s kind ident owner = some entry) : (s.inflight kind).get ident = some entry := by
  unfold ownedEntry at h
  split_ifs at h
  exact (Option.filter_eq_some_iff.mp h).1

theorem Inv.renewJobLease {s : Store} (h : Inv s) (kind : Kind) (ident owner : String)
    (deadline : ℚ) : Inv (renewJobLease s kind ident owner deadline).2 := by
  unfold JobStore.renewJobLease
  split
  · exact h
  · next entry hentry =>
      have hget := isSome_of_ownedEntry hentry
      refine ⟨h.toCore.addInflight kind ident _ ?_, h.mirrors⟩
      rintro rfl
      rw [hget]
      rfl

theorem Inv.extendInflightDeadline {s : Store} (h : Inv s) (kind : Kind) (ident : String)
    (deadline : ℚ) : Inv (extendInflightDeadline s kind ident deadline).2 := by
  unfold JobStore.extendInflightDeadline
  split
  · exact h
  · next entry hentry =>
      -- the lease of the job keeps its owner, so this is the same as giving it a new entry
      have hcore := h.toCore.addInflight kind ident ⟨deadline, entry.owner, entry.score⟩ (by
        rintro rfl
        rw [hentry]
        rfl)
      refine ⟨⟨hcore.apart, ?_, h.hot, h.catchup, h.pending, h.shadow_ingest, h.shadow_lists,
        h.shadow_pending⟩, h.mirrors⟩
      intro kind' i
      have hlease : (s.leases.set (kind, ident) entry.owner).get (kind', i) = _ :=
        hcore.leases kind' i
      rw [get_set] at hlease
      by_cases hkey : (kind', i) = (kind, ident)
      · rw [if_pos hkey] at hlease
        obtain ⟨rfl, rfl⟩ := Prod.mk.inj hkey
        show s.leases.get (kind', i) = _
        rw [h.leases kind' i, hentry]
        exact hlease
      · rw [if_neg hkey] at hlease
        exact hlease

theorem Inv.reapLoop (kind : Kind) (cutoff : ℚ) (want : ℕ) (items : List (String × Inflight))
    (out : List String) {s : Store} (h : Inv s) : Inv (reapLoop kind cutoff want items out s).2 :=
  reapLoop_rule cutoff want items (fun item _ _ hs => hs.putBack kind item.1 _) out h

theorem Inv.stealLoop (here : Local) (items : List ((Kind × String) × String)) (stolen : ℕ) {s : Store}
    (h : Inv s) : Inv (stealLoop here items stolen s).2 :=
  stealLoop_rule here items (fun _ kind ident ownerToken hs => hs.requeue kind ident ownerToken none) stolen h

theorem Inv.reconcileLoop (kind : Kind) (known : List String) (owner : String)
    (items : List (String × Inflight)) (recovered : ℕ) {s : Store} (h : Inv s) :
    Inv (reconcileLoop kind known owner items recovered s).2 :=
  reconcileLoop_rule known owner items
    (fun item _ _ hs => hs.requeue kind item.1 item.2.owner item.2.score) recovered h

/-- The job of a lease is in flight, so that its dead owner's claim is requeued. -/
theorem Inv.stealJobLeaseIfOwnerDead {s : Store} (h : Inv s) (kind : Kind) (ident : String)
    (here : Local) : Inv (stealJobLeaseIfOwnerDead s kind ident here).2 := by
  unfold JobStore.stealJobLeaseIfOwnerDead
  rcases hlease : s.leases.get (kind, ident) with _ | ownerToken
  · exact h
  · simp only
    by_cases hdead : ownerToken = "" ∨ ownerIsDead ownerToken here = false
    · rw [if_pos hdead]
      exact h
    · rw [if_neg hdead]
      have howned : (JobStore.requeue s kind ident ownerToken none).1 = true := by
        have hentry := h.leases kind ident
        rw [hlease] at hentry
        obtain ⟨entry, hget, howner⟩ := Option.map_eq_some_iff.mp hentry.symm
        have hsome : ownedEntry s kind ident ownerToken = some entry := by
          unfold ownedEntry
          rw [if_neg (fun e => hdead (Or.inl e)), hget, Option.filter_some, if_pos (by simp [howner])]
        unfold JobStore.requeue
        rw [hsome]
      rw [if_pos howned]
      exact h.requeue kind ident ownerToken none

theorem Inv.writeJobFingerprint {s : Store} (h : Inv s) (kind : Kind) (ident fingerprint : String) :
    Inv (writeJobFingerprint s kind ident fingerprint) := by
  unfold JobStore.writeJobFingerprint
  split_ifs
  · exact h
  · exact h.setFields kind ident _

theorem Inv.bumpJobAttempt {s : Store} (h : Inv s) (kind : Kind) (ident : String) :
    Inv (bumpJobAttempt s kind ident).2 := by
  unfold JobStore.bumpJobAttempt
  dsimp only
  split
  · exact h
  · exact h.setFields kind ident _

/-- Another order of the same identities is the same set. -/
theorem Inv.reorderList {s : Store} (h : Inv s) (k : ListKind) (orderedIdents : List String) :
    Inv (reorderList s k orderedIdents).2 := by
  unfold JobStore.reorderList
  by_cases hperm : (s.lists k).Perm orderedIdents ∧ s.lists k ≠ orderedIdents
  · rw [if_pos hperm]
    have hmem : ∀ k' i, i ∈ Function.update s.lists k orderedIdents k' ↔ i ∈ s.lists k' := by
      intro k' i
      by_cases hk : k' = k
      · subst hk
        rw [Function.update_self]
        exact hperm.1.mem_iff.symm
      · rw [Function.update_of_ne hk]
    refine ⟨⟨h.apart, h.leases, h.hot, h.catchup, ?_, h.shadow_ingest, ?_, h.shadow_pending⟩, ?_⟩
    · intro k'
      show s.pending k' = (Function.update s.lists k orderedIdents k').toFinset
      rw [h.pending k']
      ext i
      rw [List.mem_toFinset, List.mem_toFinset, hmem]
    · show Function.update s.shadow.lists k orderedIdents = _
      rw [h.shadow_lists]
    · intro key
      refine (h.mirrors key).congr ?_ rfl rfl
      obtain ⟨kind, i⟩ := key
      cases kind with
      | ingest => rfl
      | list k' =>
          show decide (i ∈ Function.update s.lists k orderedIdents k') = decide (i ∈ s.lists k')
          simp only [hmem]
  · rw [if_neg hperm]
    exact h

/-- Writing the snapshot drops payloads of no job only. -/
theorem Inv.persistFlush {s : Store} (h : Inv s) (written : Bool) : Inv (persistFlush s written) := by
  refine ⟨⟨h.apart, h.leases, h.hot, h.catchup, h.pending, h.shadow_ingest, h.shadow_lists,
    h.shadow_pending⟩, ?_⟩
  intro key
  show (s.shadow.payloads.keep (queuedIdentities s)).get key =
    if queuedIdentities s key = true then
      (s.payloads.keep fun key => queuedIdentities s key || inflightIdentities s key).get key
    else none
  have hold := h.mirrors key
  unfold Mirrors at hold
  rw [get_keep, get_keep, hold]
  by_cases hq : queuedIdentities s key = true
  · simp [hq]
  · rw [if_neg hq, if_neg hq]

/-! ## The operations that can go wrong -/

theorem ingestHeapPush_foldl (entries : List (String × ℚ)) : ∀ s : Store,
    ∃ heapHot heapCatchup, entries.foldl (fun s e => ingestHeapPush s e.1 e.2) s =
      { s with heapHot := heapHot, heapCatchup := heapCatchup } := by
  induction entries with
  | nil =>
      intro s
      exact ⟨s.heapHot, s.heapCatchup, rfl⟩
  | cons e entries ih =>
      intro s
      obtain ⟨heapHot, heapCatchup, heq⟩ := ingestHeapPush_eq s e.1 e.2
      rw [List.foldl_cons, heq]
      obtain ⟨heapHot', heapCatchup', heq'⟩ := ih { s with heapHot := heapHot, heapCatchup := heapCatchup }
      rw [heq']
      exact ⟨heapHot', heapCatchup', rfl⟩

/-- **Loading**: everything but the sets beside the lists is rebuilt from the document. -/
theorem load_iff (s : Store) :
    Inv (load s) ↔ ∀ k, s.disk.pending k = (s.disk.lists k).toFinset := by
  obtain ⟨heapHot, heapCatchup, heq⟩ := ingestHeapPush_foldl s.disk.ingest.entries
    { s with ingest := s.disk.ingest, heapHot := [], heapCatchup := [] }
  unfold load
  dsimp only
  rw [heq]
  constructor
  · intro hinv k
    exact hinv.pending k
  · intro hpending
    refine ⟨⟨?_, ?_, rfl, rfl, hpending, rfl, rfl, rfl⟩, ?_⟩
    · intro i _
      rfl
    · intro kind i
      rfl
    · intro key
      unfold Mirrors
      dsimp only
      rw [get_keep]
      rfl

/-- **Acknowledging** a LIST job: the set beside the list keeps step exactly when the identity is not
queued again. -/
theorem Inv.ack_iff {s : Store} (h : Inv s) (kind : Kind) (ident owner : String) :
    Inv (ack s kind ident owner).2 ↔ StepOk s (.ack kind ident owner) := by
  unfold ack
  rcases howned : ownedEntry s kind ident owner with _ | entry
  · cases kind with
    | ingest => exact ⟨fun _ => trivial, fun _ => h⟩
    | list k =>
        refine ⟨fun _ hsome => ?_, fun _ => h⟩
        rw [howned] at hsome
        exact absurd hsome (by simp)
  · have hdrop := h.dropInflight kind ident
    -- the payload of a key that is not queued may go
    have hpayload : queuedIdentities s (kind, ident) = false →
        ∀ key, Mirrors { JobStore.dropInflight s kind ident with
          payloads := s.payloads.pop (kind, ident) } key := by
      intro hnot key
      by_cases hkey : key = (kind, ident)
      · have hold := h.mirrors key
        unfold Mirrors at hold
        rw [hkey, hnot] at hold
        rw [hkey]
        exact mirrors_of_not_queued hnot hold
      · refine (h.mirrors key).congr rfl ?_ rfl
        show (s.payloads.pop (kind, ident)).get key = s.payloads.get key
        rw [get_pop, if_neg hkey]
    cases kind with
    | ingest =>
        refine ⟨fun _ => trivial, fun _ => ?_⟩
        have hnot : queuedIdentities s (.ingest, ident) = false := by
          show (s.ingest.get ident).isSome = false
          by_contra hq
          have hfree := h.apart ident (Bool.not_eq_false _ ▸ hq)
          rw [isSome_of_ownedEntry howned] at hfree
          exact absurd hfree (by simp)
        exact ⟨⟨hdrop.apart, hdrop.leases, h.hot, h.catchup, h.pending, h.shadow_ingest,
          h.shadow_lists, h.shadow_pending⟩, hpayload hnot⟩
    | list k =>
        constructor
        · intro hinv _ hmem
          have hset := hinv.pending k
          have hin : ident ∈ (s.lists k).toFinset := List.mem_toFinset.mpr hmem
          have hset' : Function.update s.pending k ((s.pending k).erase ident) k =
              (s.lists k).toFinset := hset
          rw [← hset', Function.update_self] at hin
          exact absurd hin (Finset.notMem_erase _ _)
        · intro hok
          have hmem : ident ∉ s.lists k := hok (by rw [howned]; rfl)
          have hnot : queuedIdentities s (.list k, ident) = false := by
            show decide (ident ∈ s.lists k) = false
            simpa using hmem
          have hpending : Function.update s.pending k ((s.pending k).erase ident) = s.pending := by
            have herase : (s.pending k).erase ident = s.pending k := by
              rw [Finset.erase_eq_self, h.pending k, List.mem_toFinset]
              exact hmem
            rw [herase, Function.update_eq_self]
          show Inv { JobStore.dropInflight s (.list k) ident with
            payloads := s.payloads.pop (.list k, ident)
            pending := Function.update s.pending k ((s.pending k).erase ident) }
          rw [hpending]
          exact ⟨⟨hdrop.apart, hdrop.leases, h.hot, h.catchup, h.pending, h.shadow_ingest,
            h.shadow_lists, h.shadow_pending⟩, hpayload hnot⟩

/-! ## Runs -/

/-- **One step**: the parts agree after an operation exactly when it meets its condition. -/
theorem inv_step_iff {s s' : Store} {op : Op} (h : Inv s) (hstep : step s op = some s') :
    Inv s' ↔ StepOk s op := by
  cases op with
  | claimIngest band owner deadline maxN fuel =>
      refine ⟨fun _ => trivial, fun _ => ?_⟩
      have hmap : (claimIngest s band owner deadline maxN fuel).map Prod.snd = some s' := hstep
      obtain ⟨r, hr, rfl⟩ := Option.map_eq_some_iff.mp hmap
      exact claimIngest_rule h (fun want r' hr' => Inv.claimIngestLoop band owner deadline fuel want h hr') hr
  | claimList k owner deadline =>
      obtain rfl := Option.some.inj hstep
      by_cases howner : owner = ""
      · refine ⟨fun _ hne => absurd howner hne, fun _ => ?_⟩
        unfold claimList
        rw [if_pos howner]
        exact h
      · rw [h.claimList_iff k deadline howner]
        exact ⟨fun hdis _ => hdis, fun hdis => hdis howner⟩
  | ack kind ident owner =>
      obtain rfl := Option.some.inj hstep
      exact h.ack_iff kind ident owner
  | load =>
      obtain rfl := Option.some.inj hstep
      exact load_iff s
  | zaddIngest ident score fingerprint cap =>
      obtain rfl := Option.some.inj hstep
      exact ⟨fun _ => trivial, fun _ => h.zaddIngest ident score fingerprint cap⟩
  | enqueueList k ident dedupe cap =>
      obtain rfl := Option.some.inj hstep
      exact ⟨fun _ => trivial, fun _ => h.enqueueList k ident dedupe cap⟩
  | requeue kind ident owner score =>
      obtain rfl := Option.some.inj hstep
      exact ⟨fun _ => trivial, fun _ => h.requeue kind ident owner score⟩
  | renewJobLease kind ident owner deadline =>
      obtain rfl := Option.some.inj hstep
      exact ⟨fun _ => trivial, fun _ => h.renewJobLease kind ident owner deadline⟩
  | extendInflightDeadline kind ident deadline =>
      obtain rfl := Option.some.inj hstep
      exact ⟨fun _ => trivial, fun _ => h.extendInflightDeadline kind ident deadline⟩
  | reapExpiredInflight kind now limit =>
      obtain rfl := Option.some.inj hstep
      exact ⟨fun _ => trivial, fun _ => Inv.reapLoop kind _ _ _ [] h⟩
  | stealDeadOwnerLeases here =>
      obtain rfl := Option.some.inj hstep
      exact ⟨fun _ => trivial, fun _ => Inv.stealLoop here _ 0 h⟩
  | stealJobLeaseIfOwnerDead kind ident here =>
      obtain rfl := Option.some.inj hstep
      exact ⟨fun _ => trivial, fun _ => h.stealJobLeaseIfOwnerDead kind ident here⟩
  | reconcileThisOwnerOrphanLeases kind known owner =>
      obtain rfl := Option.some.inj hstep
      exact ⟨fun _ => trivial, fun _ => Inv.reconcileLoop kind known owner _ 0 h⟩
  | writeJobFingerprint kind ident fingerprint =>
      obtain rfl := Option.some.inj hstep
      exact ⟨fun _ => trivial, fun _ => h.writeJobFingerprint kind ident fingerprint⟩
  | bumpJobAttempt kind ident =>
      obtain rfl := Option.some.inj hstep
      exact ⟨fun _ => trivial, fun _ => h.bumpJobAttempt kind ident⟩
  | reorderList k orderedIdents =>
      obtain rfl := Option.some.inj hstep
      exact ⟨fun _ => trivial, fun _ => h.reorderList k orderedIdents⟩
  | persistFlush written =>
      obtain rfl := Option.some.inj hstep
      exact ⟨fun _ => trivial, fun _ => h.persistFlush written⟩

/-- Only the loop of `claim_ingest` may not end. -/
theorem stepOk_of_none {s : Store} {op : Op} (h : step s op = none) : StepOk s op := by
  cases op with
  | claimIngest band owner deadline maxN fuel => trivial
  | _ => exact absurd h (by simp [step])

/-- **Runs of the job store**: from the store as it is made, the parts agree in every state of the run
exactly when every step of it meets its condition. -/
theorem inv_iff_respects (disk : Snapshot) (ops : List Op) :
    (∀ n t, Transition.exec step (Store.init disk) (ops.take n) = some t → Inv t) ↔
      Transition.Respects step StepOk (Store.init disk) ops :=
  Transition.exec_invariant_iff (fun _ _ _ h hstep => inv_step_iff h hstep)
    (fun _ _ h => stepOk_of_none h) ops (Store.init disk) (inv_init disk)

/-- The identity is queued twice and claimed once. -/
def claimTwice : List Op :=
  [.enqueueList .append "/tar/a" false 1000, .enqueueList .append "/tar/a" false 1000,
   .claimList .append "n:h:b:1" 60]

/-- The list still holds the identity, the set beside it does not. -/
theorem not_inv_claimTwice :
    ¬ ∀ n t, Transition.exec step (Store.init Snapshot.empty) (claimTwice.take n) = some t →
      Inv t := by
  intro hall
  obtain ⟨t, ht, hlist, hset⟩ : ∃ t,
      Transition.exec step (Store.init Snapshot.empty) (claimTwice.take 3) = some t ∧
        "/tar/a" ∈ t.lists .append ∧ "/tar/a" ∉ t.pending .append := by
    refine ⟨_, rfl, ?_, ?_⟩
    · decide +kernel
    · decide +kernel
  have hpending := (hall 3 t ht).pending .append
  rw [hpending] at hset
  exact hset (List.mem_toFinset.mpr hlist)

end JobStore
