/-
# Flush and load over runs of the job store

A flush writes the shadow of the store, so a fresh store that loads the snapshot has what is queued exactly when
the shadow has it (`roundTrips_iff`).  `Shadowed` says so of one store, key by key for the payloads.

The shadow keeps the queues in every operation but `ack`, and loses payloads where an identity is queued more than
once, which `enqueue_list` without `dedupe` allows: `claim_list` drops the payload of what it takes off from the
shadow although the list holds the identity again, `ack` drops a payload that a queued job still has, and
a payload is mirrored only for an identity in the set beside the list.  `SnapshotOk` says when a step does none of
this, and `roundTrips_iff_respects` is the result about whole runs.
-/
import HpcPerfStats.IngestRecovery
import HpcPerfStats.JobSnapshot

namespace JobStore

open OrderedDict PyText TokenText

/-! ## A flush and a load -/

/-- The store of a process that starts from what a flush of this store has written. -/
def reloaded (s : Store) : Option Store :=
  (readSnapshot (snapshotDocument (persistFlush s true).disk)).map fun disk => load (Store.init disk)

/-- **A flush and a load restore what is queued**: the scores, the order of every list, the sets and the
payloads of the queued jobs, and nothing else. -/
def RoundTrips (s : Store) : Prop :=
  ∃ t, reloaded s = some t ∧ (∀ i, t.ingest.get i = s.ingest.get i) ∧ t.lists = s.lists ∧
    t.pending = s.pending ∧
    (∀ key, (t.payloads.get key).map Dict.get =
      if queuedIdentities s key = true then (s.payloads.get key).map Dict.get else none) ∧
    (∀ kind i, (t.inflight kind).get i = none) ∧ ∀ key, t.leases.get key = none

/-! ## The shadow -/

/-- The shadow has the payload of the key, when it is queued. -/
def Holds (s : Store) (key : Kind × String) : Prop :=
  queuedIdentities s key = true → (s.shadow.payloads.get key).map Dict.get = (s.payloads.get key).map Dict.get

/-- The shadow has the queues. -/
structure Queues (s : Store) : Prop where
  ingest : ∀ i, s.shadow.ingest.get i = s.ingest.get i
  lists : s.shadow.lists = s.lists
  pending : s.shadow.pending = s.pending

/-- **The shadow has what is queued.** -/
structure Shadowed (s : Store) : Prop extends Queues s where
  holds : ∀ key, Holds s key

theorem Holds.congr {s t : Store} {key : Kind × String} (h : Holds s key)
    (hqueued : queuedIdentities t key = true → queuedIdentities s key = true)
    (hpayload : t.payloads.get key = s.payloads.get key)
    (hshadow : t.shadow.payloads.get key = s.shadow.payloads.get key) : Holds t key := by
  intro hkey
  rw [hpayload, hshadow]
  exact h (hqueued hkey)

/-- What is queued after a list was changed. -/
theorem queuedIdentities_congr {s t : Store} (hingest : t.ingest = s.ingest) (hlists : t.lists = s.lists)
    (key : Kind × String) : queuedIdentities t key = queuedIdentities s key := by
  obtain ⟨kind, i⟩ := key
  cases kind with
  | ingest =>
      show (t.ingest.get i).isSome = _
      rw [hingest]
      rfl
  | list k =>
      show decide (i ∈ t.lists k) = _
      rw [hlists]
      rfl

/-- The heaps, the counters, the jobs in flight and the disk take no part. -/
theorem Shadowed.congr {s t : Store} (h : Shadowed s) (hingest : t.ingest = s.ingest)
    (hlists : t.lists = s.lists) (hpending : t.pending = s.pending) (hpayloads : t.payloads = s.payloads)
    (hshadow : t.shadow = s.shadow) : Shadowed t := by
  refine ⟨⟨?_, ?_, ?_⟩, ?_⟩
  · rw [hshadow, hingest]
    exact h.ingest
  · rw [hshadow, hlists]
    exact h.lists
  · rw [hshadow, hpending]
    exact h.pending
  · intro key
    refine (h.holds key).congr ?_ (by rw [hpayloads]) (by rw [hshadow])
    rw [queuedIdentities_congr hingest hlists]
    exact id

/-- **Mirroring** the payload of a queued key. -/
theorem Queues.sync {s : Store} (h : Queues s) {kind : Kind} {ident : String}
    (hqueued : identityIsQueued s (kind, ident) = true)
    (hrest : ∀ key, key ≠ (kind, ident) → Holds s key) : Shadowed (shadowSyncPayload s kind ident) := by
  refine ⟨⟨h.ingest, h.lists, h.pending⟩, ?_⟩
  intro key hkey
  rw [get_shadowSyncPayload, if_pos hqueued]
  by_cases heq : key = (kind, ident)
  · rw [if_pos heq, heq]
    rfl
  · rw [if_neg heq]
    exact hrest key heq hkey

/-! ## What a flush and a load make of the shadow -/

/-- The store after a load. -/
theorem load_eq (s : Store) : ∃ heapHot heapCatchup, load s =
    let queued := queuedIdentities { s with ingest := s.disk.ingest, lists := s.disk.lists }
    { s with
      ingest := s.disk.ingest
      heapHot := heapHot
      heapCatchup := heapCatchup
      lists := s.disk.lists
      pending := s.disk.pending
      payloads := s.disk.payloads.keep queued
      inflight := fun _ => Dict.empty
      leases := Dict.empty
      shadow := ⟨s.disk.ingest, s.disk.lists, s.disk.pending, (s.disk.payloads.keep queued).keep queued⟩
      hotN := s.disk.ingest.count fun score => decodeIngestBand score == .hot
      catchupN := s.disk.ingest.count fun score => decodeIngestBand score == .catchup } := by
  obtain ⟨heapHot, heapCatchup, heq⟩ := ingestHeapPush_foldl s.disk.ingest.entries
    { s with ingest := s.disk.ingest, heapHot := [], heapCatchup := [] }
  refine ⟨heapHot, heapCatchup, ?_⟩
  unfold load
  dsimp only
  rw [heq]
  have hqueued : ∀ t : Store, t.ingest = s.disk.ingest → t.lists = s.disk.lists →
      queuedIdentities t = queuedIdentities { s with ingest := s.disk.ingest, lists := s.disk.lists } := by
    intro t hingest hlists
    funext key
    exact queuedIdentities_congr hingest hlists key
  rw [hqueued, hqueued]
  all_goals rfl

theorem shadowed_load (s : Store) : Shadowed (load s) := by
  obtain ⟨heapHot, heapCatchup, heq⟩ := load_eq s
  rw [heq]
  refine ⟨⟨fun _ => rfl, rfl, rfl⟩, ?_⟩
  intro key hkey
  have hqueued : queuedIdentities { s with ingest := s.disk.ingest, lists := s.disk.lists } key = true := by
    rw [← hkey]
    exact (queuedIdentities_congr rfl rfl key).symm
  dsimp only
  rw [get_keep, if_pos hqueued]

/-- The payloads of a fresh store whose queues have come back: those of the shadow, for what is queued. -/
theorem get_payloads_load {s : Store} {disk : Snapshot}
    (hsame : SameSnapshot disk { s.shadow with payloads := s.shadow.payloads.keep (queuedIdentities s) })
    (hingest : ∀ i, disk.ingest.get i = s.ingest.get i) (hlists : disk.lists = s.lists) (key : Kind × String) :
    ((load (Store.init disk)).payloads.get key).map Dict.get =
      if queuedIdentities s key = true then (s.shadow.payloads.get key).map Dict.get else none := by
  have hqueued : queuedIdentities
      { Store.init disk with ingest := disk.ingest, lists := disk.lists } key = queuedIdentities s key := by
    obtain ⟨kind, i⟩ := key
    cases kind with
    | ingest =>
        show (disk.ingest.get i).isSome = (s.ingest.get i).isSome
        rw [hingest]
    | list k =>
        show decide (i ∈ disk.lists k) = decide (i ∈ s.lists k)
        rw [hlists]
  obtain ⟨heapHot, heapCatchup, heq⟩ := load_eq (Store.init disk)
  rw [heq]
  show ((disk.payloads.keep _).get key).map Dict.get = _
  rw [get_keep]
  show (if queuedIdentities { Store.init disk with ingest := disk.ingest, lists := disk.lists } key = true
    then disk.payloads.get key else none).map Dict.get = _
  rw [hqueued]
  by_cases hkey : queuedIdentities s key = true
  · rw [if_pos hkey, if_pos hkey, hsame.payloads key]
    show ((s.shadow.payloads.keep (queuedIdentities s)).get key).map Dict.get = _
    rw [get_keep, if_pos hkey]
  · rw [if_neg hkey, if_neg hkey]
    rfl

/-- **A store comes back exactly when its shadow has what is queued.** -/
theorem roundTrips_iff (s : Store) : RoundTrips s ↔ Shadowed s := by
  obtain ⟨disk, hread, hsame⟩ := readSnapshot_snapshotDocument (persistFlush s true).disk
  obtain ⟨heapHot, heapCatchup, heq⟩ := load_eq (Store.init disk)
  have hreloaded : reloaded s = some (load (Store.init disk)) := by
    unfold reloaded
    rw [hread, Option.map_some]
  have hdisk : (persistFlush s true).disk =
      { s.shadow with payloads := s.shadow.payloads.keep (queuedIdentities s) } := rfl
  rw [hdisk] at hsame
  have hpayloads := get_payloads_load hsame
  constructor
  · rintro ⟨t, ht, hingest, hlists, hpending, hback, -, -⟩
    rw [hreloaded] at ht
    obtain rfl := Option.some.inj ht
    have hingest' : ∀ i, disk.ingest.get i = s.ingest.get i := by
      rw [heq] at hingest
      exact hingest
    have hlists' : disk.lists = s.lists := by
      rw [heq] at hlists
      exact hlists
    have hpending' : disk.pending = s.pending := by
      rw [heq] at hpending
      exact hpending
    refine ⟨⟨?_, hsame.lists.symm.trans hlists', hsame.pending.symm.trans hpending'⟩, ?_⟩
    · intro i
      exact (hsame.ingest i).symm.trans (hingest' i)
    · intro key hkey
      have h := hback key
      rw [hpayloads hingest' hlists', if_pos hkey, if_pos hkey] at h
      exact h
  · intro h
    have hingest : ∀ i, disk.ingest.get i = s.ingest.get i := fun i => (hsame.ingest i).trans (h.ingest i)
    have hlists : disk.lists = s.lists := hsame.lists.trans h.lists
    have hpending : disk.pending = s.pending := hsame.pending.trans h.pending
    refine ⟨_, hreloaded, ?_, ?_, ?_, ?_, ?_, ?_⟩
    · rw [heq]
      exact hingest
    · rw [heq]
      exact hlists
    · rw [heq]
      exact hpending
    · intro key
      rw [hpayloads hingest hlists]
      by_cases hkey : queuedIdentities s key = true
      · rw [if_pos hkey, if_pos hkey, h.holds key hkey]
      · rw [if_neg hkey, if_neg hkey]
    · rw [heq]
      exact fun _ _ => rfl
    · rw [heq]
      exact fun _ => rfl

/-! ## The operations that keep the shadow -/

theorem Shadowed.setHeap {s : Store} (h : Shadowed s) (band : Band) (heap : List (ℚ × String)) :
    Shadowed (s.setHeap band heap) := by
  cases band <;> exact h.congr rfl rfl rfl rfl rfl

/-- Queueing an ingest identity. -/
theorem Shadowed.ingestSet {s : Store} (h : Shadowed s) (ident : String) (score : ℚ) :
    Shadowed (ingestSet s ident score) := by
  obtain ⟨heapHot, heapCatchup, heq⟩ := ingestSet_spec s ident score
  rw [heq]
  apply Queues.sync
  · refine ⟨?_, h.lists, h.pending⟩
    intro i
    show (s.shadow.ingest.set ident score).get i = (s.ingest.set ident score).get i
    rw [get_set, get_set, h.ingest]
  · show ((s.ingest.set ident score).get ident).isSome = true
    rw [get_set, if_pos rfl]
    rfl
  · intro key hkey
    refine (h.holds key).congr ?_ rfl rfl
    obtain ⟨kind, i⟩ := key
    cases kind with
    | ingest =>
        have hne : i ≠ ident := fun e => hkey (by rw [e])
        show ((s.ingest.set ident score).get i).isSome = true → (s.ingest.get i).isSome = true
        rw [get_set, if_neg hne]
        exact id
    | list k => exact id

/-- Claiming an ingest identity: its payload leaves the shadow with it. -/
theorem Shadowed.ingestPop {s : Store} (h : Shadowed s) (ident : String) (live : ℚ) :
    Shadowed (ingestPop s ident live) := by
  rw [ingestPop_eq]
  refine ⟨⟨?_, h.lists, h.pending⟩, ?_⟩
  · intro i
    show (s.shadow.ingest.pop ident).get i = (s.ingest.pop ident).get i
    rw [get_pop, get_pop, h.ingest]
  · intro key hkey
    have hne : key ≠ (.ingest, ident) := by
      rintro rfl
      have hgone : ((s.ingest.pop ident).get ident).isSome = true := hkey
      rw [get_pop, if_pos rfl] at hgone
      cases hgone
    have hqueued : queuedIdentities s key = true := by
      obtain ⟨kind, i⟩ := key
      cases kind with
      | ingest =>
          have hstill : ((s.ingest.pop ident).get i).isSome = true := hkey
          rw [get_pop, if_neg fun e => hne (by rw [e])] at hstill
          exact hstill
      | list k => exact hkey
    show ((s.shadow.payloads.pop (.ingest, ident)).get key).map Dict.get = _
    rw [get_pop, if_neg hne]
    exact h.holds key hqueued

/-- Appending to a list. -/
theorem Shadowed.listAppend {s : Store} (h : Shadowed s) (k : ListKind) (ident : String) :
    Shadowed (listAppend s k ident) := by
  unfold JobStore.listAppend
  apply Queues.sync
  · refine ⟨h.ingest, ?_, ?_⟩
    · show Function.update s.shadow.lists k (s.shadow.lists k ++ [ident]) = _
      rw [h.lists]
    · show Function.update s.shadow.pending k (insert ident (s.shadow.pending k)) = _
      rw [h.pending]
  · show decide (ident ∈ Function.update s.pending k (insert ident (s.pending k)) k) = true
    rw [Function.update_self]
    exact decide_eq_true (Finset.mem_insert_self _ _)
  · intro key hkey
    refine (h.holds key).congr ?_ rfl rfl
    obtain ⟨kind, i⟩ := key
    cases kind with
    | ingest => exact id
    | list k' =>
        show decide (i ∈ Function.update s.lists k (s.lists k ++ [ident]) k') = true →
          decide (i ∈ s.lists k') = true
        by_cases hk : k' = k
        · subst hk
          have hne : i ≠ ident := fun e => hkey (by rw [e])
          rw [Function.update_self]
          simp [hne]
        · rw [Function.update_of_ne hk]
          exact id

theorem Shadowed.putBack {s : Store} (h : Shadowed s) (kind : Kind) (ident : String) (score : ℚ) :
    Shadowed (putBack (dropInflight s kind ident) kind ident score) := by
  have hdrop : Shadowed (dropInflight s kind ident) := h.congr rfl rfl rfl rfl rfl
  cases kind with
  | ingest => exact hdrop.ingestSet ident score
  | list k => exact hdrop.listAppend k ident

theorem Shadowed.requeue {s : Store} (h : Shadowed s) (kind : Kind) (ident owner : String) (score : Option ℚ) :
    Shadowed (requeue s kind ident owner score).2 := by
  unfold JobStore.requeue
  split
  · exact h
  · exact h.putBack kind ident _

theorem Shadowed.stealJobLeaseIfOwnerDead {s : Store} (h : Shadowed s) (kind : Kind) (ident : String)
    (here : Local) : Shadowed (stealJobLeaseIfOwnerDead s kind ident here).2 := by
  unfold JobStore.stealJobLeaseIfOwnerDead
  split
  · exact h
  · next ownerToken _ =>
      have hrequeue := h.requeue kind ident ownerToken none
      dsimp only
      split_ifs
      · exact h
      · exact hrequeue
      · exact hrequeue
      · exact hrequeue.congr rfl rfl rfl rfl rfl

theorem Shadowed.claimIngest {s : Store} (h : Shadowed s) {band : Band} {owner : String} {deadline : ℚ}
    {maxN : ℤ} {fuel : ℕ} {r : Except String (List ClaimedJob) × Store}
    (hr : claimIngest s band owner deadline maxN fuel = some r) : Shadowed r.2 := by
  refine claimIngest_rule h ?_ hr
  intro want r' hr'
  exact claimIngestLoop_rule (P := Shadowed) (fun _ band' heap hs => hs.setHeap band' heap)
    (fun _ ident live hs _ _ => (hs.ingestPop ident live).congr rfl rfl rfl rfl rfl) fuel want h hr'

theorem Shadowed.reorderList {s : Store} (h : Shadowed s) (k : ListKind) (orderedIdents : List String) :
    Shadowed (reorderList s k orderedIdents).2 := by
  unfold JobStore.reorderList
  split_ifs with hperm
  · refine ⟨⟨h.ingest, ?_, h.pending⟩, ?_⟩
    · show Function.update s.shadow.lists k orderedIdents = _
      rw [h.lists]
    · intro key
      refine (h.holds key).congr ?_ rfl rfl
      obtain ⟨kind, i⟩ := key
      cases kind with
      | ingest => exact id
      | list k' =>
          show decide (i ∈ Function.update s.lists k orderedIdents k') = true → decide (i ∈ s.lists k') = true
          by_cases hk : k' = k
          · subst hk
            rw [Function.update_self]
            simp only [hperm.1.mem_iff, imp_self]
          · rw [Function.update_of_ne hk]
            exact id
  · exact h

/-- A flush drops the payloads of no job. -/
theorem Shadowed.persistFlush {s : Store} (h : Shadowed s) (written : Bool) :
    Shadowed (persistFlush s written) := by
  refine ⟨⟨h.ingest, h.lists, h.pending⟩, ?_⟩
  intro key hkey
  have hqueued : queuedIdentities s key = true := hkey
  show ((s.shadow.payloads.keep (queuedIdentities s)).get key).map Dict.get =
    ((s.payloads.keep fun key => queuedIdentities s key || inflightIdentities s key).get key).map Dict.get
  rw [get_keep, get_keep, if_pos hqueued, if_pos (by rw [hqueued]; rfl)]
  exact h.holds key hqueued

/-! ## Writing a payload -/

/-- **Fields are written**: the shadow has them unless the identity stands in a list without the set. -/
theorem Shadowed.setFields_iff {s : Store} (h : Shadowed s) (kind : Kind) (ident : String) (fields : Fields) :
    Shadowed (setFields s kind ident fields) ↔ (queuedIdentities s (kind, ident) = true →
      identityIsQueued s (kind, ident) = true ∨ (s.payloads.get (kind, ident)).map Dict.get = some fields.get) := by
  have hqueues : Queues { s with payloads := s.payloads.set (kind, ident) fields } :=
    ⟨h.ingest, h.lists, h.pending⟩
  have hrest : ∀ key, key ≠ (kind, ident) →
      Holds { s with payloads := s.payloads.set (kind, ident) fields } key := by
    intro key hkey
    refine (h.holds key).congr id ?_ rfl
    show (s.payloads.set (kind, ident) fields).get key = s.payloads.get key
    rw [get_set, if_neg hkey]
  by_cases hq : identityIsQueued s (kind, ident) = true
  · rw [setFields_of_queued hq]
    exact iff_of_true (hqueues.sync hq hrest) fun _ => Or.inl hq
  · have heq : setFields s kind ident fields =
        { s with payloads := s.payloads.set (kind, ident) fields } := if_neg hq
    rw [heq]
    constructor
    · intro hafter hqueued
      right
      rw [← h.holds (kind, ident) hqueued]
      have hself : (s.shadow.payloads.get (kind, ident)).map Dict.get =
          ((s.payloads.set (kind, ident) fields).get (kind, ident)).map Dict.get := hafter.holds _ hqueued
      rw [hself, get_set, if_pos rfl]
      rfl
    · intro hok
      refine ⟨hqueues, fun key => ?_⟩
      by_cases hkey : key = (kind, ident)
      · subst hkey
        intro hqueued
        have hsame : (s.payloads.get (kind, ident)).map Dict.get = some fields.get :=
          (hok hqueued).resolve_left hq
        show (s.shadow.payloads.get (kind, ident)).map Dict.get =
          ((s.payloads.set (kind, ident) fields).get (kind, ident)).map Dict.get
        rw [get_set, if_pos rfl, h.holds (kind, ident) hqueued, hsame]
        rfl
      · exact hrest key hkey

/-- Setting a field leaves a payload as it is when it has the field with this value. -/
theorem map_get_eq_set_iff (payload : Option Fields) (name value : String) :
    payload.map Dict.get = some ((payload.getD Dict.empty).set name value).get ↔
      payload.bind (fun fields => fields.get name) = some value := by
  cases payload with
  | none => exact iff_of_false (fun h => nomatch h) fun h => nomatch h
  | some fields =>
      rw [Option.map_some, Option.some.injEq, Option.getD_some, Option.bind_some]
      constructor
      · intro h
        rw [h, get_set, if_pos rfl]
      · intro h
        funext q
        rw [get_set]
        split_ifs with hq
        · rw [hq, h]
        · rfl

/-- A counter that was counted up is another one. -/
theorem attempt_ne {payload : Option Fields} {n : ℤ}
    (h : readAttempt (payload.getD Dict.empty) = some n) :
    payload.bind (fun fields => fields.get "attempt") ≠ some (toString (n + 1)) := by
  intro hsame
  obtain ⟨fields, rfl, hget⟩ := Option.bind_eq_some_iff.mp hsame
  unfold readAttempt at h
  rw [Option.getD_some, hget] at h
  have hread := pyInt_toString_int (n + 1)
  dsimp only at h
  split_ifs at h with hempty
  · have hnone : pyInt "" = none := by decide
    rw [hempty, hnone] at hread
    cases hread
  · rw [hread, Option.some.injEq] at h
    omega

theorem Shadowed.zaddIngest {s : Store} (h : Shadowed s) (ident : String) (score : ℚ)
    (fingerprint : Option String) (cap : ℕ) : Shadowed (zaddIngest s ident score fingerprint cap).2 := by
  refine zaddIngest_rule h ident score fingerprint cap (fun _ => h.ingestSet ident score) ?_
  intro fields hset
  -- the set beside a list plays no part for an ingest job
  exact (hset.setFields_iff .ingest ident fields).mpr fun hqueued => Or.inl hqueued

/-! ## The operations that can lose a payload -/

/-- What holds after identities of one kind were taken off their list: these have no payload in the shadow. -/
structure Taken (s₀ : Store) (k : ListKind) (s : Store) (popped : List String) : Prop extends Queues s where
  payloads : s.payloads = s₀.payloads
  gone : ∀ i ∈ popped, s.shadow.payloads.get (.list k, i) = none
  rest : ∀ key : Kind × String, ¬ (key.1 = .list k ∧ key.2 ∈ popped) → Holds s key

/-- One identity is taken off the list. -/
theorem Taken.listPop {s₀ s : Store} {k : ListKind} {popped : List String} (h : Taken s₀ k s popped)
    {ident : String} {rest : List String} (hl : s.lists k = ident :: rest) :
    Taken s₀ k (listPop s k ident rest) (popped ++ [ident]) := by
  have hget : ∀ key, (JobStore.listPop s k ident rest).shadow.payloads.get key =
      if key = (.list k, ident) then none else s.shadow.payloads.get key := fun key => get_pop _ _ _
  refine ⟨⟨h.ingest, ?_, ?_⟩, h.payloads, ?_, ?_⟩
  · show Function.update s.shadow.lists k (shadowListDrop (s.shadow.lists k) ident) =
      Function.update s.lists k rest
    rw [h.lists, hl, shadowListDrop_cons]
  · show Function.update s.shadow.pending k ((s.shadow.pending k).erase ident) = _
    rw [h.pending]
    rfl
  · intro i hi
    rw [hget]
    split_ifs with hkey
    · rfl
    · rcases List.mem_append.mp hi with hi | hi
      · exact h.gone i hi
      · exact absurd (by rw [List.mem_singleton.mp hi]) hkey
  · intro key hkey
    have hne : key ≠ (.list k, ident) := by
      rintro rfl
      exact hkey ⟨rfl, List.mem_append_right _ (List.mem_singleton_self _)⟩
    refine (h.rest key fun hc => hkey ⟨hc.1, List.mem_append_left _ hc.2⟩).congr ?_ rfl ?_
    · obtain ⟨kind, i⟩ := key
      cases kind with
      | ingest => exact id
      | list k' =>
          show decide (i ∈ Function.update s.lists k rest k') = true → decide (i ∈ s.lists k') = true
          by_cases hk : k' = k
          · subst hk
            rw [Function.update_self, hl, decide_eq_true_eq, decide_eq_true_eq]
            exact List.mem_cons_of_mem ident
          · rw [Function.update_of_ne hk]
            exact id
    · rw [hget, if_neg hne]

theorem Taken.addInflight {s₀ s : Store} {k : ListKind} {popped : List String} (h : Taken s₀ k s popped)
    (ident : String) (entry : Inflight) : Taken s₀ k (addInflight s (.list k) ident entry) popped := by
  refine ⟨⟨h.ingest, h.lists, h.pending⟩, h.payloads, h.gone, fun key hkey => ?_⟩
  refine (h.rest key hkey).congr ?_ rfl rfl
  rw [queuedIdentities_congr rfl rfl]
  exact id

/-- **Nothing is lost when what was taken off and stands in the list again has no payload.** -/
theorem Taken.shadowed_iff {s₀ s : Store} {k : ListKind} {popped : List String} (h : Taken s₀ k s popped) :
    Shadowed s ↔ ∀ i ∈ popped, i ∈ s.lists k → s₀.payloads.get (.list k, i) = none := by
  rw [← h.payloads]
  constructor
  · intro hs i hi hmem
    have hqueued : queuedIdentities s (.list k, i) = true := decide_eq_true hmem
    have hholds := hs.holds (.list k, i) hqueued
    rw [h.gone i hi] at hholds
    exact Option.map_eq_none_iff.mp hholds.symm
  · intro hall
    refine ⟨h.toQueues, fun key => ?_⟩
    by_cases hkey : key.1 = .list k ∧ key.2 ∈ popped
    · obtain ⟨kind, i⟩ := key
      obtain ⟨rfl, hi⟩ : kind = .list k ∧ i ∈ popped := hkey
      intro hqueued
      have hmem : i ∈ s.lists k := of_decide_eq_true hqueued
      rw [h.gone i hi, hall i hi hmem]
    · exact h.rest key hkey

/-- **Claiming from a list.** -/
theorem Shadowed.claimList_iff {s : Store} (h : Shadowed s) (k : ListKind) {owner : String} (deadline : ℚ)
    (howner : owner ≠ "") :
    Shadowed (claimList s k owner deadline).2 ↔
      ∀ i ∈ takenOff s k, i ∈ leftOver s k → s.payloads.get (.list k, i) = none := by
  have hstart : Taken s k s [] := ⟨h.toQueues, rfl, fun i hi => (nomatch hi), fun key _ => h.holds key⟩
  obtain ⟨htaken, hleft⟩ := claimListLoop_spec (P := Taken s k) (k := k)
    (fun _ _ _ _ hs hl => hs.listPop hl) (fun _ _ ident hs => hs.addInflight ident ⟨deadline, owner, none⟩)
    (s.lists k).length s [] hstart le_rfl
  unfold claimList
  rw [if_neg howner]
  show Shadowed (claimListLoop k owner deadline (s.lists k).length s).2 ↔ _
  rw [htaken.shadowed_iff, hleft, List.nil_append]

/-- **When an operation keeps what a reload would restore.**  What a claim takes off a list has no payload if
the list holds it again.  An acknowledged LIST job is not in the set of its list, and has no payload if the list
holds it again.  A payload of an identity that a list holds and its set does not is written as it is. -/
def SnapshotOk (s : Store) : Op → Prop
  | .claimList k owner _ => owner ≠ "" → ∀ i ∈ takenOff s k, i ∈ leftOver s k →
      s.payloads.get (.list k, i) = none
  | .ack (.list k) ident owner => (ownedEntry s (.list k) ident owner).isSome = true →
      ident ∉ s.pending k ∧ (ident ∈ s.lists k → s.payloads.get (.list k, ident) = none)
  | .writeJobFingerprint (.list k) ident fingerprint => fingerprint ≠ "" → ident ∈ s.lists k →
      ident ∈ s.pending k ∨
        (s.payloads.get (.list k, ident)).bind (fun fields => fields.get "fingerprint") = some fingerprint
  | .bumpJobAttempt (.list k) ident => ident ∈ s.lists k →
      ident ∈ s.pending k ∨ readAttempt ((s.payloads.get (.list k, ident)).getD Dict.empty) = none
  | _ => True

/-- **Acknowledging a job.** -/
theorem Shadowed.ack_iff {s : Store} (h : Shadowed s) (hapart : Apart s) (kind : Kind) (ident owner : String) :
    Shadowed (ack s kind ident owner).2 ↔ SnapshotOk s (.ack kind ident owner) := by
  unfold ack
  rcases howned : ownedEntry s kind ident owner with _ | entry
  · cases kind with
    | ingest => exact iff_of_true h trivial
    | list k =>
        refine iff_of_true h fun hsome => ?_
        rw [howned] at hsome
        cases hsome
  · -- the payload of another key stays
    have hrest : ∀ key, key ≠ (kind, ident) →
        (s.payloads.pop (kind, ident)).get key = s.payloads.get key := by
      intro key hkey
      rw [get_pop, if_neg hkey]
    cases kind with
    | ingest =>
        refine iff_of_true ⟨⟨h.ingest, h.lists, h.pending⟩, fun key => ?_⟩ trivial
        by_cases hkey : key = (.ingest, ident)
        · subst hkey
          intro hqueued
          have hnone := hapart.get_eq_none (isSome_of_ownedEntry howned)
          have hsome : (s.ingest.get ident).isSome = true := hqueued
          rw [hnone] at hsome
          cases hsome
        · exact (h.holds key).congr id (hrest key hkey) rfl
    | list k =>
        constructor
        · intro hafter _
          constructor
          · intro hmem
            have hpending : s.shadow.pending = Function.update s.pending k ((s.pending k).erase ident) :=
              hafter.pending
            rw [h.pending] at hpending
            rw [hpending, Function.update_self] at hmem
            exact Finset.notMem_erase _ _ hmem
          · intro hmem
            have hholds : (s.shadow.payloads.get (.list k, ident)).map Dict.get =
                ((s.payloads.pop (.list k, ident)).get (.list k, ident)).map Dict.get :=
              hafter.holds (.list k, ident) (decide_eq_true hmem)
            rw [h.holds (.list k, ident) (decide_eq_true hmem), get_pop, if_pos rfl] at hholds
            exact Option.map_eq_none_iff.mp hholds
        · intro hok
          obtain ⟨hnotin, hnone⟩ := hok (by rw [howned]; rfl)
          have hpending : Function.update s.pending k ((s.pending k).erase ident) = s.pending := by
            rw [Finset.erase_eq_of_notMem hnotin, Function.update_eq_self]
          refine ⟨⟨h.ingest, h.lists, h.pending.trans hpending.symm⟩, fun key => ?_⟩
          by_cases hkey : key = (.list k, ident)
          · subst hkey
            intro hqueued
            have hmem : ident ∈ s.lists k := of_decide_eq_true hqueued
            show (s.shadow.payloads.get (.list k, ident)).map Dict.get =
              ((s.payloads.pop (.list k, ident)).get (.list k, ident)).map Dict.get
            rw [h.holds (.list k, ident) hqueued, get_pop, if_pos rfl, hnone hmem]
          · exact (h.holds key).congr id (hrest key hkey) rfl

theorem Shadowed.writeJobFingerprint_iff {s : Store} (h : Shadowed s) (kind : Kind)
    (ident fingerprint : String) :
    Shadowed (writeJobFingerprint s kind ident fingerprint) ↔
      SnapshotOk s (.writeJobFingerprint kind ident fingerprint) := by
  unfold JobStore.writeJobFingerprint
  by_cases hempty : fingerprint = ""
  · rw [if_pos hempty]
    refine iff_of_true h ?_
    cases kind with
    | ingest => trivial
    | list k => exact fun hne => absurd hempty hne
  · rw [if_neg hempty, h.setFields_iff, map_get_eq_set_iff]
    cases kind with
    | ingest => exact iff_of_true (fun hqueued => Or.inl hqueued) trivial
    | list k =>
        show (decide (ident ∈ s.lists k) = true → decide (ident ∈ s.pending k) = true ∨ _) ↔ _
        rw [decide_eq_true_eq, decide_eq_true_eq]
        exact ⟨fun hall _ => hall, fun hall => hall hempty⟩

theorem Shadowed.bumpJobAttempt_iff {s : Store} (h : Shadowed s) (kind : Kind) (ident : String) :
    Shadowed (bumpJobAttempt s kind ident).2 ↔ SnapshotOk s (.bumpJobAttempt kind ident) := by
  unfold JobStore.bumpJobAttempt
  dsimp only
  split
  · next hnone =>
      refine iff_of_true h ?_
      cases kind with
      | ingest => trivial
      | list k => exact fun _ => Or.inr hnone
  · next n hn =>
      rw [h.setFields_iff, map_get_eq_set_iff]
      cases kind with
      | ingest => exact iff_of_true (fun hqueued => Or.inl hqueued) trivial
      | list k =>
          show (decide (ident ∈ s.lists k) = true → decide (ident ∈ s.pending k) = true ∨ _) ↔
            (ident ∈ s.lists k → ident ∈ s.pending k ∨ _)
          rw [decide_eq_true_eq, decide_eq_true_eq]
          -- a bump always writes another payload
          have hother := attempt_ne hn
          constructor
          · exact fun hall hmem => Or.inl ((hall hmem).resolve_right hother)
          · intro hall hmem
            refine Or.inl ((hall hmem).resolve_right ?_)
            rw [hn]
            exact fun hnone => nomatch hnone

/-! ## Runs -/

/-- **One step**: what a reload restores stays right exactly when the operation meets its condition. -/
theorem Shadowed.step_iff {s s' : Store} {op : Op} (h : Shadowed s) (hapart : Apart s)
    (hstep : step s op = some s') : Shadowed s' ↔ SnapshotOk s op := by
  cases op with
  -- the claims and the writes of fields can copy a row; every other operation is right for every store
  | claimIngest band owner deadline maxN fuel =>
      obtain ⟨r, hr, rfl⟩ := Option.map_eq_some_iff.mp hstep
      exact iff_of_true (h.claimIngest hr) trivial
  | claimList k owner deadline =>
      obtain rfl := Option.some.inj hstep
      -- a claim without an owner is refused before it looks at the list
      by_cases howner : owner = ""
      · refine iff_of_true ?_ fun hne => absurd howner hne
        unfold claimList
        rw [if_pos howner]
        exact h
      · rw [h.claimList_iff k deadline howner]
        exact ⟨fun hall _ => hall, fun hall => hall howner⟩
  | ack kind ident owner =>
      obtain rfl := Option.some.inj hstep
      exact h.ack_iff hapart kind ident owner
  | writeJobFingerprint kind ident fingerprint =>
      obtain rfl := Option.some.inj hstep
      exact h.writeJobFingerprint_iff kind ident fingerprint
  | bumpJobAttempt kind ident =>
      obtain rfl := Option.some.inj hstep
      exact h.bumpJobAttempt_iff kind ident
  | load =>
      obtain rfl := Option.some.inj hstep
      exact iff_of_true (shadowed_load s) trivial
  | zaddIngest ident score fingerprint cap =>
      obtain rfl := Option.some.inj hstep
      exact iff_of_true (h.zaddIngest ident score fingerprint cap) trivial
  | enqueueList k ident dedupe cap =>
      obtain rfl := Option.some.inj hstep
      refine iff_of_true ?_ trivial
      unfold enqueueList
      split_ifs
      · exact h
      · exact h
      · exact h.listAppend k ident
  | requeue kind ident owner score =>
      obtain rfl := Option.some.inj hstep
      exact iff_of_true (h.requeue kind ident owner score) trivial
  | renewJobLease kind ident owner deadline =>
      obtain rfl := Option.some.inj hstep
      refine iff_of_true ?_ trivial
      unfold renewJobLease
      split
      · exact h
      · exact h.congr rfl rfl rfl rfl rfl
  | extendInflightDeadline kind ident deadline =>
      obtain rfl := Option.some.inj hstep
      refine iff_of_true ?_ trivial
      unfold extendInflightDeadline
      split
      · exact h
      · exact h.congr rfl rfl rfl rfl rfl
  | reapExpiredInflight kind now limit =>
      obtain rfl := Option.some.inj hstep
      exact iff_of_true (reapLoop_rule _ _ _ (fun item _ _ hs => hs.putBack kind item.1 _) [] h) trivial
  | stealDeadOwnerLeases here =>
      obtain rfl := Option.some.inj hstep
      exact iff_of_true (stealLoop_rule here _
        (fun _ kind ident ownerToken hs => hs.requeue kind ident ownerToken none) 0 h) trivial
  | stealJobLeaseIfOwnerDead kind ident here =>
      obtain rfl := Option.some.inj hstep
      exact iff_of_true (h.stealJobLeaseIfOwnerDead kind ident here) trivial
  | reconcileThisOwnerOrphanLeases kind known owner =>
      obtain rfl := Option.some.inj hstep
      exact iff_of_true (reconcileLoop_rule known owner _
        (fun item _ _ hs => hs.requeue kind item.1 item.2.owner item.2.score) 0 h) trivial
  | reorderList k orderedIdents =>
      obtain rfl := Option.some.inj hstep
      exact iff_of_true (h.reorderList k orderedIdents) trivial
  | persistFlush written =>
      obtain rfl := Option.some.inj hstep
      exact iff_of_true (h.persistFlush written) trivial

theorem snapshotOk_of_none {s : Store} {op : Op} (h : step s op = none) : SnapshotOk s op := by
  cases op with
  | claimIngest band owner deadline maxN fuel => trivial
  | _ => exact nomatch h

/-- **Flush and load over whole runs**: every state of a run comes back from its snapshot exactly when every
step of the run meets its condition. -/
theorem roundTrips_iff_respects (disk : Snapshot) (ops : List Op) :
    (∀ n t, Transition.exec step (Store.init disk) (ops.take n) = some t → RoundTrips t) ↔
      Transition.Respects step SnapshotOk (Store.init disk) ops := by
  have hinit : Apart (Store.init disk) := fun _ _ => rfl
  have hshadow : Shadowed (Store.init disk) := ⟨⟨fun _ => rfl, rfl, rfl⟩, fun _ _ => rfl⟩
  have hapart : ∀ n t, Transition.exec step (Store.init disk) (ops.take n) = some t → Apart t :=
    fun n t => Transition.exec_invariant_of_step (fun _ _ _ h hstep => h.step hstep) _ _ t hinit
  rw [← Transition.exec_invariant_iff (I := fun s => Apart s ∧ Shadowed s) ?_
    (fun _ _ h => snapshotOk_of_none h) ops _ ⟨hinit, hshadow⟩]
  · constructor
    · exact fun hall n t ht => ⟨hapart n t ht, (roundTrips_iff t).mp (hall n t ht)⟩
    · exact fun hall n t ht => (roundTrips_iff t).mpr (hall n t ht).2
  · rintro s op s' ⟨hs, h⟩ hstep
    rw [h.step_iff hs hstep |>.symm]
    exact ⟨fun h' => h'.2, fun h' => ⟨hs.step hstep, h'⟩⟩

/-- The identity is queued twice, tried once and claimed once. -/
def triedTwice : List Op :=
  [.enqueueList .append "/tar/a" false 1000, .enqueueList .append "/tar/a" false 1000,
   .bumpJobAttempt (.list .append) "/tar/a", .claimList .append "n:h:b:1" 60]

/-- The second job is still queued, and its attempt is not in the snapshot. -/
theorem not_roundTrips_triedTwice :
    ¬ ∀ n t, Transition.exec step (Store.init Snapshot.empty) (triedTwice.take n) = some t →
      RoundTrips t := by
  intro hall
  obtain ⟨t, ht, hqueued, hshadow, hpayload⟩ : ∃ t,
      Transition.exec step (Store.init Snapshot.empty) (triedTwice.take 4) = some t ∧
        queuedIdentities t (.list .append, "/tar/a") = true ∧
        t.shadow.payloads.get (.list .append, "/tar/a") = none ∧
        (t.payloads.get (.list .append, "/tar/a")).isSome = true := by
    refine ⟨_, rfl, ?_, ?_, ?_⟩
    · decide +kernel
    · decide +kernel
    · decide +kernel
  have hholds := ((roundTrips_iff t).mp (hall 4 t ht)).holds _ hqueued
  rw [hshadow] at hholds
  rw [Option.map_eq_none_iff.mp hholds.symm] at hpayload
  cases hpayload

end JobStore
