/-
# What the job store keeps in step

`Inv` is what the redundant parts of the store should have in common: no ingest identity is queued
and in flight, the leases are those of the jobs in flight, the counters count the queued identities
of their band, the set beside a list holds the identities of that list, and the shadow is the queued
state.

This module proves for every helper of the store what it does to `Inv`.  Payloads need care: a helper
changes a queue first and mirrors the payload of the identity afterwards (`shadowSyncPayload`), so
that in between the payload of one key is off.  `Core` is the invariant without the payloads, and
`Mirrors` says of one key that its payload is mirrored.
-/
import HpcPerfStats.JobStore
import Mathlib.Data.Finset.Filter
import Mathlib.Data.List.TakeWhile

namespace JobStore

open OrderedDict

/-! ## The invariant -/

/-- The parts of the store agree, but for the payloads. -/
structure Core (s : Store) : Prop where
  apart : ∀ i, (s.ingest.get i).isSome = true → (s.inflight .ingest).get i = none
  leases : ∀ kind i, s.leases.get (kind, i) = ((s.inflight kind).get i).map Inflight.owner
  hot : s.hotN = s.ingest.count fun score => decodeIngestBand score == .hot
  catchup : s.catchupN = s.ingest.count fun score => decodeIngestBand score == .catchup
  pending : ∀ k, s.pending k = (s.lists k).toFinset
  shadow_ingest : s.shadow.ingest = s.ingest
  shadow_lists : s.shadow.lists = s.lists
  shadow_pending : s.shadow.pending = s.pending

/-- The payload of a key is mirrored when the key is queued. -/
def Mirrors (s : Store) (key : Kind × String) : Prop :=
  s.shadow.payloads.get key = if queuedIdentities s key = true then s.payloads.get key else none

theorem Mirrors.congr {s t : Store} {key : Kind × String} (h : Mirrors s key)
    (hqueued : queuedIdentities t key = queuedIdentities s key)
    (hpayload : t.payloads.get key = s.payloads.get key)
    (hshadow : t.shadow.payloads.get key = s.shadow.payloads.get key) : Mirrors t key := by
  unfold Mirrors
  rw [hqueued, hpayload, hshadow]
  exact h

/-- A key that is not queued has no payload in the shadow. -/
theorem mirrors_of_not_queued {s : Store} {key : Kind × String}
    (hqueued : queuedIdentities s key = false) (hshadow : s.shadow.payloads.get key = none) :
    Mirrors s key := by
  unfold Mirrors
  rw [hqueued, hshadow]
  rfl

/-- **The parts of the store agree.** -/
structure Inv (s : Store) : Prop extends Core s where
  mirrors : ∀ key, Mirrors s key

theorem inv_init (disk : Snapshot) : Inv (Store.init disk) := by
  refine ⟨⟨?_, ?_, rfl, rfl, ?_, rfl, rfl, rfl⟩, ?_⟩
  · intro i _
    rfl
  · intro kind i
    rfl
  · intro k
    rfl
  · intro key
    unfold Mirrors
    split_ifs
    · rfl
    · rfl

section SetHeap

variable (s : Store) (band : Band) (heap : List (ℚ × String))

theorem setHeap_ingest : (s.setHeap band heap).ingest = s.ingest := by
  cases band <;> rfl

theorem setHeap_inflight : (s.setHeap band heap).inflight = s.inflight := by
  cases band <;> rfl

theorem setHeap_shadow : (s.setHeap band heap).shadow = s.shadow := by
  cases band <;> rfl

theorem setHeap_disk : (s.setHeap band heap).disk = s.disk := by
  cases band <;> rfl

end SetHeap

/-- The heaps and the disk take no part. -/
theorem Inv.setHeap {s : Store} (h : Inv s) (band : Band) (heap : List (ℚ × String)) :
    Inv (s.setHeap band heap) := by
  cases band with
  | hot =>
      exact ⟨⟨h.apart, h.leases, h.hot, h.catchup, h.pending, h.shadow_ingest, h.shadow_lists,
        h.shadow_pending⟩, h.mirrors⟩
  | catchup =>
      exact ⟨⟨h.apart, h.leases, h.hot, h.catchup, h.pending, h.shadow_ingest, h.shadow_lists,
        h.shadow_pending⟩, h.mirrors⟩

/-! ## Mirroring a payload -/

/-- With the set of a list in step, both tests for a queued identity agree. -/
theorem Core.isQueued_eq {s : Store} (h : Core s) (key : Kind × String) :
    identityIsQueued s key = queuedIdentities s key := by
  obtain ⟨kind, i⟩ := key
  cases kind with
  | ingest => rfl
  | list k =>
      show decide (i ∈ s.pending k) = decide (i ∈ s.lists k)
      simp only [h.pending k, List.mem_toFinset]

/-- What is mirrored under a key after the payload of one key was mirrored. -/
theorem get_shadowSyncPayload (s : Store) (kind : Kind) (ident : String) (key : Kind × String) :
    (shadowSyncPayload s kind ident).shadow.payloads.get key =
      if key = (kind, ident) then
        if identityIsQueued s (kind, ident) = true then s.payloads.get (kind, ident) else none
      else s.shadow.payloads.get key := by
  unfold shadowSyncPayload
  cases hq : identityIsQueued s (kind, ident) with
  | false =>
      show (s.shadow.payloads.pop (kind, ident)).get key = _
      rw [get_pop]
      simp
  | true =>
      cases hp : s.payloads.get (kind, ident) with
      | none =>
          show (s.shadow.payloads.pop (kind, ident)).get key = _
          rw [get_pop]
          simp
      | some fields =>
          show (s.shadow.payloads.set (kind, ident) fields).get key = _
          rw [get_set]
          simp

/-- **Mirroring** the one payload that is off brings the store in step. -/
theorem Core.sync {s : Store} (h : Core s) (kind : Kind) (ident : String)
    (hrest : ∀ key, key ≠ (kind, ident) → Mirrors s key) :
    Inv (shadowSyncPayload s kind ident) := by
  refine ⟨⟨h.apart, h.leases, h.hot, h.catchup, h.pending, h.shadow_ingest, h.shadow_lists,
    h.shadow_pending⟩, ?_⟩
  intro key
  unfold Mirrors
  rw [get_shadowSyncPayload, h.isQueued_eq]
  by_cases hkey : key = (kind, ident)
  · rw [if_pos hkey, hkey]
    rfl
  · rw [if_neg hkey]
    exact hrest key hkey

theorem setFields_of_queued {s : Store} {kind : Kind} {ident : String} {fields : Fields}
    (h : identityIsQueued s (kind, ident) = true) :
    setFields s kind ident fields =
      shadowSyncPayload { s with payloads := s.payloads.set (kind, ident) fields } kind ident :=
  if_pos h

/-- Fields are written without a change of the queues. -/
theorem Inv.setFields {s : Store} (h : Inv s) (kind : Kind) (ident : String) (fields : Fields) :
    Inv (setFields s kind ident fields) := by
  have hcore : Core { s with payloads := s.payloads.set (kind, ident) fields } :=
    ⟨h.apart, h.leases, h.hot, h.catchup, h.pending, h.shadow_ingest, h.shadow_lists,
      h.shadow_pending⟩
  have hrest : ∀ key, key ≠ (kind, ident) →
      Mirrors { s with payloads := s.payloads.set (kind, ident) fields } key := by
    intro key hkey
    refine (h.mirrors key).congr rfl ?_ rfl
    show (s.payloads.set (kind, ident) fields).get key = s.payloads.get key
    rw [get_set, if_neg hkey]
  unfold JobStore.setFields
  by_cases hq : identityIsQueued { s with payloads := s.payloads.set (kind, ident) fields }
      (kind, ident) = true
  · rw [if_pos hq]
    exact hcore.sync kind ident hrest
  · rw [if_neg hq]
    -- the identity is not queued, so nothing is mirrored for it
    refine ⟨hcore, ?_⟩
    intro key
    by_cases hkey : key = (kind, ident)
    · have hnot : queuedIdentities s key = false := by
        rw [hkey, ← h.isQueued_eq]
        exact Bool.eq_false_iff.mpr hq
      have hold := h.mirrors key
      unfold Mirrors at hold
      rw [hnot] at hold
      exact mirrors_of_not_queued hnot hold
    · exact hrest key hkey

/-! ## Jobs in flight and their leases -/

@[simp] theorem addInflight_inflight (s : Store) (kind : Kind) (ident : String) (entry : Inflight) :
    (addInflight s kind ident entry).inflight kind = (s.inflight kind).set ident entry :=
  Function.update_self _ _ _

@[simp] theorem dropInflight_inflight (s : Store) (kind : Kind) (ident : String) :
    (dropInflight s kind ident).inflight kind = (s.inflight kind).pop ident :=
  Function.update_self _ _ _

theorem addInflight_inflight_of_ne (s : Store) {kind kind' : Kind} (h : kind' ≠ kind)
    (ident : String) (entry : Inflight) :
    (addInflight s kind ident entry).inflight kind' = s.inflight kind' :=
  Function.update_of_ne h _ _

theorem dropInflight_inflight_of_ne (s : Store) {kind kind' : Kind} (h : kind' ≠ kind)
    (ident : String) : (dropInflight s kind ident).inflight kind' = s.inflight kind' :=
  Function.update_of_ne h _ _

/-- The leases are those of the jobs in flight. -/
def Leased (s : Store) : Prop :=
  ∀ kind i, s.leases.get (kind, i) = ((s.inflight kind).get i).map Inflight.owner

/-- The leases follow a job into the in-flight map. -/
theorem Leased.addInflight {s : Store} (h : Leased s) (kind : Kind) (ident : String)
    (entry : Inflight) : Leased (addInflight s kind ident entry) := by
  intro kind' i
  show (s.leases.set (kind, ident) entry.owner).get (kind', i) = _
  rw [get_set]
  by_cases hkind : kind' = kind
  · subst hkind
    rw [addInflight_inflight, get_set]
    by_cases hi : i = ident
    · rw [if_pos (by rw [hi]), if_pos hi]
      rfl
    · rw [if_neg (by simpa using hi), if_neg hi]
      exact h kind' i
  · rw [addInflight_inflight_of_ne s hkind, if_neg (by simp [hkind])]
    exact h kind' i

/-- The leases follow a job out of the in-flight map. -/
theorem Leased.dropInflight {s : Store} (h : Leased s) (kind : Kind) (ident : String) :
    Leased (dropInflight s kind ident) := by
  intro kind' i
  show (s.leases.pop (kind, ident)).get (kind', i) = _
  rw [get_pop]
  by_cases hkind : kind' = kind
  · subst hkind
    rw [dropInflight_inflight, get_pop]
    by_cases hi : i = ident
    · rw [if_pos (by rw [hi]), if_pos hi]
      rfl
    · rw [if_neg (by simpa using hi), if_neg hi]
      exact h kind' i
  · rw [dropInflight_inflight_of_ne s hkind, if_neg (by simp [hkind])]
    exact h kind' i

/-- A job leaves the in-flight map. -/
theorem Inv.dropInflight {s : Store} (h : Inv s) (kind : Kind) (ident : String) :
    Inv (dropInflight s kind ident) := by
  refine ⟨⟨?_, Leased.dropInflight h.leases kind ident, h.hot, h.catchup, h.pending,
    h.shadow_ingest, h.shadow_lists, h.shadow_pending⟩, h.mirrors⟩
  intro i hi
  have hfree := h.apart i hi
  by_cases hkind : Kind.ingest = kind
  · subst hkind
    rw [dropInflight_inflight, get_pop]
    split_ifs
    · rfl
    · exact hfree
  · rw [dropInflight_inflight_of_ne s hkind]
    exact hfree

/-- A job of a LIST kind joins the in-flight map, or a job that is there gets a new entry. -/
theorem Core.addInflight {s : Store} (h : Core s) (kind : Kind) (ident : String) (entry : Inflight)
    (hold : kind = .ingest → ((s.inflight .ingest).get ident).isSome = true) :
    Core (addInflight s kind ident entry) := by
  refine ⟨?_, Leased.addInflight h.leases kind ident entry, h.hot, h.catchup, h.pending,
    h.shadow_ingest, h.shadow_lists, h.shadow_pending⟩
  intro i hi
  have hfree := h.apart i hi
  by_cases hkind : Kind.ingest = kind
  · subst hkind
    rw [addInflight_inflight, get_set]
    by_cases hident : i = ident
    · rw [hident] at hfree
      have hsome := hold rfl
      rw [hfree] at hsome
      exact absurd hsome (by simp)
    · rw [if_neg hident]
      exact hfree
  · rw [addInflight_inflight_of_ne s hkind]
    exact hfree

/-! ## Queued ingest jobs -/

/-- One for a score of the band. -/
def inBand (band : Band) (score : ℚ) : ℕ := if (decodeIngestBand score == band) = true then 1 else 0

theorem ingestBandInc_eq (s : Store) (score : ℚ) :
    ingestBandInc s score =
      { s with hotN := s.hotN + inBand .hot score, catchupN := s.catchupN + inBand .catchup score } := by
  unfold ingestBandInc inBand
  cases decodeIngestBand score with
  | hot => rfl
  | catchup => rfl

theorem ingestBandDec_eq (s : Store) (score : ℚ) :
    ingestBandDec s score =
      { s with hotN := s.hotN - inBand .hot score, catchupN := s.catchupN - inBand .catchup score } := by
  unfold ingestBandDec inBand
  cases decodeIngestBand score with
  | hot => rfl
  | catchup => rfl

theorem ingestHeapPush_eq (s : Store) (ident : String) (score : ℚ) :
    ∃ heapHot heapCatchup, ingestHeapPush s ident score =
      { s with heapHot := heapHot, heapCatchup := heapCatchup } := by
  unfold ingestHeapPush Store.setHeap
  cases decodeIngestBand score with
  | hot => exact ⟨_, s.heapCatchup, rfl⟩
  | catchup => exact ⟨s.heapHot, _, rfl⟩

theorem countP_toList (o : Option ℚ) (band : Band) :
    o.toList.countP (fun v => decodeIngestBand v == band) = o.elim 0 (inBand band) := by
  cases o with
  | none => rfl
  | some v =>
      rw [Option.toList_some, List.countP_singleton]
      rfl

/-- `_ingest_set_locked` before the payload is mirrored. -/
theorem ingestSet_spec (s : Store) (ident : String) (score : ℚ) :
    ∃ heapHot heapCatchup, ingestSet s ident score = shadowSyncPayload { s with
      ingest := s.ingest.set ident score
      heapHot := heapHot
      heapCatchup := heapCatchup
      hotN := s.hotN - (s.ingest.get ident).elim 0 (inBand .hot) + inBand .hot score
      catchupN := s.catchupN - (s.ingest.get ident).elim 0 (inBand .catchup) + inBand .catchup score
      shadow := { s.shadow with ingest := s.shadow.ingest.set ident score } } .ingest ident := by
  unfold ingestSet
  rcases s.ingest.get ident with _ | old
  · simp only [ingestBandInc_eq]
    obtain ⟨heapHot, heapCatchup, heq⟩ := ingestHeapPush_eq { s with
      ingest := s.ingest.set ident score
      hotN := s.hotN + inBand .hot score
      catchupN := s.catchupN + inBand .catchup score } ident score
    rw [heq]
    exact ⟨heapHot, heapCatchup, rfl⟩
  · simp only [ingestBandInc_eq, ingestBandDec_eq]
    obtain ⟨heapHot, heapCatchup, heq⟩ := ingestHeapPush_eq { s with
      ingest := s.ingest.set ident score
      hotN := s.hotN - inBand .hot old + inBand .hot score
      catchupN := s.catchupN - inBand .catchup old + inBand .catchup score } ident score
    rw [heq]
    exact ⟨heapHot, heapCatchup, rfl⟩

/-- The count of a band after a score was set. -/
theorem count_after_set (d : Dict String ℚ) (ident : String) (score : ℚ) (band : Band) :
    d.count (fun v => decodeIngestBand v == band) - (d.get ident).elim 0 (inBand band) +
        inBand band score =
      (d.set ident score).count fun v => decodeIngestBand v == band := by
  have hset := count_set d (fun v => decodeIngestBand v == band) ident score
  have hpop := count_pop d (fun v => decodeIngestBand v == band) ident
  rw [countP_toList] at hset hpop
  change _ = _ + inBand band score at hset
  omega

/-- The count of a band after an identity left. -/
theorem count_after_pop {d : Dict String ℚ} {ident : String} {live : ℚ}
    (h : d.get ident = some live) (band : Band) :
    d.count (fun v => decodeIngestBand v == band) - inBand band live =
      (d.pop ident).count fun v => decodeIngestBand v == band := by
  have hpop := count_pop d (fun v => decodeIngestBand v == band) ident
  rw [countP_toList, h] at hpop
  change _ + inBand band live = _ at hpop
  omega

/-- **Queueing an ingest identity** that is not in flight. -/
theorem Inv.ingestSet {s : Store} (h : Inv s) {ident : String} (score : ℚ)
    (hfree : (s.inflight .ingest).get ident = none) : Inv (ingestSet s ident score) := by
  obtain ⟨heapHot, heapCatchup, heq⟩ := ingestSet_spec s ident score
  rw [heq]
  apply Core.sync
  · refine ⟨?_, h.leases, ?_, ?_, h.pending, ?_, h.shadow_lists, h.shadow_pending⟩
    · intro i hi
      show (s.inflight .ingest).get i = none
      have hi' : ((s.ingest.set ident score).get i).isSome = true := hi
      rw [get_set] at hi'
      by_cases hident : i = ident
      · rw [hident]
        exact hfree
      · rw [if_neg hident] at hi'
        exact h.apart i hi'
    · show s.hotN - _ + _ = _
      rw [h.hot]
      exact count_after_set s.ingest ident score .hot
    · show s.catchupN - _ + _ = _
      rw [h.catchup]
      exact count_after_set s.ingest ident score .catchup
    · show s.shadow.ingest.set ident score = s.ingest.set ident score
      rw [h.shadow_ingest]
  · intro key hkey
    refine (h.mirrors key).congr ?_ rfl rfl
    obtain ⟨kind, i⟩ := key
    cases kind with
    | ingest =>
        have hne : i ≠ ident := fun e => hkey (by rw [e])
        show ((s.ingest.set ident score).get i).isSome = (s.ingest.get i).isSome
        rw [get_set, if_neg hne]
    | list k => rfl

/-- `_ingest_pop_locked`. -/
theorem ingestPop_eq (s : Store) (ident : String) (old : ℚ) :
    ingestPop s ident old = { s with
      ingest := s.ingest.pop ident
      hotN := s.hotN - inBand .hot old
      catchupN := s.catchupN - inBand .catchup old
      shadow := { s.shadow with
        ingest := s.shadow.ingest.pop ident
        payloads := s.shadow.payloads.pop (.ingest, ident) } } := by
  unfold ingestPop
  simp only [ingestBandDec_eq]

/-- **Claiming a queued ingest identity** moves it to the jobs in flight. -/
theorem Inv.claimIngest {s : Store} (h : Inv s) {ident : String} {live : ℚ}
    (hlive : s.ingest.get ident = some live) (entry : Inflight) :
    Inv (addInflight (ingestPop s ident live) .ingest ident entry) := by
  rw [ingestPop_eq]
  refine ⟨⟨?_, ?_, ?_, ?_, h.pending, ?_, h.shadow_lists, h.shadow_pending⟩, ?_⟩
  · intro i hi
    have hi' : ((s.ingest.pop ident).get i).isSome = true := hi
    rw [get_pop] at hi'
    by_cases hident : i = ident
    · rw [if_pos hident] at hi'
      exact absurd hi' (by simp)
    · rw [if_neg hident] at hi'
      rw [addInflight_inflight, get_set, if_neg hident]
      exact h.apart i hi'
  · apply Leased.addInflight
    exact h.leases
  · show s.hotN - _ = _
    rw [h.hot]
    exact count_after_pop hlive .hot
  · show s.catchupN - _ = _
    rw [h.catchup]
    exact count_after_pop hlive .catchup
  · show s.shadow.ingest.pop ident = s.ingest.pop ident
    rw [h.shadow_ingest]
  · intro key
    obtain ⟨kind, i⟩ := key
    cases kind with
    | ingest =>
        by_cases hident : i = ident
        · apply mirrors_of_not_queued
          · show ((s.ingest.pop ident).get i).isSome = false
            rw [get_pop, if_pos hident]
            rfl
          · show (s.shadow.payloads.pop (.ingest, ident)).get (.ingest, i) = none
            rw [get_pop, if_pos (by rw [hident])]
        · refine (h.mirrors (.ingest, i)).congr ?_ rfl ?_
          · show ((s.ingest.pop ident).get i).isSome = (s.ingest.get i).isSome
            rw [get_pop, if_neg hident]
          · show (s.shadow.payloads.pop (.ingest, ident)).get (.ingest, i) = _
            rw [get_pop, if_neg (by simpa using hident)]
    | list k =>
        refine (h.mirrors (.list k, i)).congr rfl rfl ?_
        show (s.shadow.payloads.pop (.ingest, ident)).get (.list k, i) = _
        rw [get_pop, if_neg (by simp)]

/-! ## Lists -/

/-- **Appending to a list** keeps the parts in step. -/
theorem Inv.listAppend {s : Store} (h : Inv s) (k : ListKind) (ident : String) :
    Inv (listAppend s k ident) := by
  unfold JobStore.listAppend
  apply Core.sync
  · refine ⟨h.apart, h.leases, h.hot, h.catchup, ?_, h.shadow_ingest, ?_, ?_⟩
    · intro k'
      show Function.update s.pending k (insert ident (s.pending k)) k' =
        (Function.update s.lists k (s.lists k ++ [ident]) k').toFinset
      by_cases hk : k' = k
      · subst hk
        rw [Function.update_self, Function.update_self, h.pending]
        ext i
        rw [Finset.mem_insert, List.mem_toFinset, List.mem_toFinset, List.mem_append,
          List.mem_singleton]
        exact or_comm
      · rw [Function.update_of_ne hk, Function.update_of_ne hk]
        exact h.pending k'
    · show Function.update s.shadow.lists k (s.shadow.lists k ++ [ident]) = _
      rw [h.shadow_lists]
    · show Function.update s.shadow.pending k (insert ident (s.shadow.pending k)) = _
      rw [h.shadow_pending]
  · intro key hkey
    refine (h.mirrors key).congr ?_ rfl rfl
    obtain ⟨kind, i⟩ := key
    cases kind with
    | ingest => rfl
    | list k' =>
        show decide (i ∈ Function.update s.lists k (s.lists k ++ [ident]) k') =
          decide (i ∈ s.lists k')
        by_cases hk : k' = k
        · subst hk
          have hne : i ≠ ident := fun e => hkey (by rw [e])
          rw [Function.update_self]
          simp [hne]
        · rw [Function.update_of_ne hk]

/-- The parts agree but for identities of one kind that were taken off the list: these have left the
set, and their payloads the shadow, even when they stand in the list again. -/
structure Popped (s : Store) (k : ListKind) (popped : List String) : Prop where
  apart : ∀ i, (s.ingest.get i).isSome = true → (s.inflight .ingest).get i = none
  leases : Leased s
  hot : s.hotN = s.ingest.count fun score => decodeIngestBand score == .hot
  catchup : s.catchupN = s.ingest.count fun score => decodeIngestBand score == .catchup
  pending : ∀ k', s.pending k' =
    (s.lists k').toFinset.filter fun i => ¬ (k' = k ∧ i ∈ popped)
  shadow_ingest : s.shadow.ingest = s.ingest
  shadow_lists : s.shadow.lists = s.lists
  shadow_pending : s.shadow.pending = s.pending
  mirrors : ∀ key : Kind × String, s.shadow.payloads.get key =
    if queuedIdentities s key = true ∧ ¬ (key.1 = .list k ∧ key.2 ∈ popped) then s.payloads.get key
    else none

theorem Inv.popped {s : Store} (h : Inv s) (k : ListKind) : Popped s k [] := by
  refine ⟨h.apart, h.leases, h.hot, h.catchup, ?_, h.shadow_ingest, h.shadow_lists,
    h.shadow_pending, ?_⟩
  · intro k'
    rw [h.pending k']
    simp
  · intro key
    have hold := h.mirrors key
    unfold Mirrors at hold
    simpa using hold

/-- **When nothing of what was taken off stands in the list again**, and only then, the parts
agree. -/
theorem Popped.inv_iff {s : Store} {k : ListKind} {popped : List String} (h : Popped s k popped) :
    Inv s ↔ ∀ i ∈ popped, i ∉ s.lists k := by
  constructor
  · intro hinv i hi hmem
    have hset := h.pending k
    rw [hinv.pending k] at hset
    have hin : i ∈ (s.lists k).toFinset := List.mem_toFinset.mpr hmem
    rw [hset] at hin
    simp [hi] at hin
  · intro hdis
    refine ⟨⟨h.apart, h.leases, h.hot, h.catchup, ?_, h.shadow_ingest, h.shadow_lists,
      h.shadow_pending⟩, ?_⟩
    · intro k'
      rw [h.pending k', Finset.filter_true_of_mem]
      rintro i hi ⟨rfl, hpop⟩
      exact hdis i hpop (List.mem_toFinset.mp hi)
    · intro key
      unfold Mirrors
      rw [h.mirrors key]
      by_cases hq : queuedIdentities s key = true
      · have hnot : ¬ (key.1 = .list k ∧ key.2 ∈ popped) := by
          rintro ⟨hk, hpop⟩
          apply hdis key.2 hpop
          obtain ⟨kind, i⟩ := key
          obtain rfl : kind = .list k := hk
          have hmem : decide (i ∈ s.lists k) = true := hq
          simpa using hmem
        rw [if_pos ⟨hq, hnot⟩, if_pos hq]
      · rw [if_neg (fun hc => hq hc.1), if_neg hq]

theorem shadowListDrop_cons (ident : String) (rest : List String) :
    shadowListDrop (ident :: rest) ident = rest := by
  unfold shadowListDrop
  rw [if_pos (by rfl)]
  rfl

/-- One identity is taken off the list. -/
theorem Popped.listPop {s : Store} {k : ListKind} {popped : List String} (h : Popped s k popped)
    {ident : String} {rest : List String} (hl : s.lists k = ident :: rest) :
    Popped (listPop s k ident rest) k (popped ++ [ident]) := by
  refine ⟨h.apart, h.leases, h.hot, h.catchup, ?_, h.shadow_ingest, ?_, ?_, ?_⟩
  · intro k'
    show Function.update s.pending k ((s.pending k).erase ident) k' =
      (Function.update s.lists k rest k').toFinset.filter fun i => ¬ (k' = k ∧ i ∈ popped ++ [ident])
    by_cases hk : k' = k
    · subst hk
      rw [Function.update_self, Function.update_self, h.pending, hl]
      ext i
      simp only [Finset.mem_erase, Finset.mem_filter, List.mem_toFinset, List.mem_cons,
        List.mem_append, true_and, List.not_mem_nil, or_false]
      tauto
    · rw [Function.update_of_ne hk, Function.update_of_ne hk, h.pending]
      ext i
      simp [hk]
  · show Function.update s.shadow.lists k (shadowListDrop (s.shadow.lists k) ident) =
      Function.update s.lists k rest
    rw [h.shadow_lists, hl, shadowListDrop_cons]
  · show Function.update s.shadow.pending k ((s.shadow.pending k).erase ident) = _
    rw [h.shadow_pending]
    rfl
  · intro key
    show (s.shadow.payloads.pop (.list k, ident)).get key = _
    rw [get_pop, h.mirrors key]
    by_cases hkey : key = (.list k, ident)
    · rw [if_pos hkey, if_neg]
      rintro ⟨-, hnot⟩
      exact hnot (by rw [hkey]; simp)
    · rw [if_neg hkey]
      -- the other keys are queued as before
      have hqueued : queuedIdentities (JobStore.listPop s k ident rest) key = true ↔
          queuedIdentities s key = true := by
        obtain ⟨kind, i⟩ := key
        cases kind with
        | ingest => exact Iff.rfl
        | list k' =>
            show decide (i ∈ Function.update s.lists k rest k') = true ↔
              decide (i ∈ s.lists k') = true
            by_cases hk : k' = k
            · subst hk
              have hne : i ≠ ident := fun e => hkey (by rw [e])
              rw [Function.update_self, hl]
              simp [hne]
            · rw [Function.update_of_ne hk]
      have hpopped : (key.1 = .list k ∧ key.2 ∈ popped ++ [ident]) ↔
          (key.1 = .list k ∧ key.2 ∈ popped) := by
        constructor
        · rintro ⟨hk, hmem⟩
          refine ⟨hk, ?_⟩
          rcases List.mem_append.mp hmem with hmem | hmem
          · exact hmem
          · exact absurd (Prod.ext hk (List.mem_singleton.mp hmem)) hkey
        · rintro ⟨hk, hmem⟩
          exact ⟨hk, List.mem_append_left _ hmem⟩
      simp only [hqueued, hpopped]
      rfl

/-- The job that was taken off joins the jobs in flight. -/
theorem Popped.addInflight {s : Store} {k : ListKind} {popped : List String} (h : Popped s k popped)
    (ident : String) (entry : Inflight) :
    Popped (addInflight s (.list k) ident entry) k popped := by
  refine ⟨?_, h.leases.addInflight _ _ _, h.hot, h.catchup, h.pending, h.shadow_ingest,
    h.shadow_lists, h.shadow_pending, h.mirrors⟩
  intro i hi
  rw [addInflight_inflight_of_ne s (by simp)]
  exact h.apart i hi

/-- The identity is in flight under the kind of the list. -/
def isInflight (s : Store) (k : ListKind) (i : String) : Bool :=
  ((s.inflight (.list k)).get i).isSome

/-- What a claim takes off a list: the identities in front that are in flight, and the first one that
is not. -/
def takenOff (s : Store) (k : ListKind) : List String :=
  (s.lists k).takeWhile (isInflight s k) ++ ((s.lists k).dropWhile (isInflight s k)).take 1

/-- What a claim leaves in the list. -/
def leftOver (s : Store) (k : ListKind) : List String :=
  ((s.lists k).dropWhile (isInflight s k)).drop 1

/-- One round of the loop of `claim_list`. -/
theorem claimListLoop_cons (k : ListKind) (owner : String) (deadline : ℚ) (n : ℕ) {s : Store}
    {ident : String} {rest : List String} (hl : s.lists k = ident :: rest) :
    claimListLoop k owner deadline (n + 1) s =
      if isInflight s k ident = true then claimListLoop k owner deadline n (listPop s k ident rest)
      else (some ⟨.list k, ident, owner, deadline, none, ""⟩,
        addInflight (listPop s k ident rest) (.list k) ident ⟨deadline, owner, none⟩) := by
  rw [claimListLoop, hl]
  rfl

/-- **What the loop of `claim_list` takes off**: `P` is about a store and what was taken off its list. -/
theorem claimListLoop_spec {P : Store → List String → Prop} {k : ListKind} {owner : String} {deadline : ℚ}
    (hpop : ∀ s popped ident rest, P s popped → s.lists k = ident :: rest →
      P (listPop s k ident rest) (popped ++ [ident]))
    (htake : ∀ s popped ident, P s popped →
      P (addInflight s (.list k) ident ⟨deadline, owner, none⟩) popped) (n : ℕ) :
    ∀ (s : Store) (popped : List String), P s popped → (s.lists k).length ≤ n →
      P (claimListLoop k owner deadline n s).2 (popped ++ takenOff s k) ∧
        (claimListLoop k owner deadline n s).2.lists k = leftOver s k := by
  induction n with
  | zero =>
      intro s popped h hlen
      have hnil : s.lists k = [] := List.length_eq_zero_iff.mp (by omega)
      have htaken : takenOff s k = [] := by
        unfold takenOff
        rw [hnil]
        rfl
      have hleft : leftOver s k = [] := by
        unfold leftOver
        rw [hnil]
        rfl
      rw [htaken, hleft, List.append_nil]
      exact ⟨h, hnil⟩
  | succ n ih =>
      intro s popped h hlen
      rcases hl : s.lists k with _ | ⟨ident, rest⟩
      · have htaken : takenOff s k = [] := by
          unfold takenOff
          rw [hl]
          rfl
        have hleft : leftOver s k = [] := by
          unfold leftOver
          rw [hl]
          rfl
        rw [claimListLoop, hl, htaken, hleft, List.append_nil]
        exact ⟨h, hl⟩
      · have hnext := hpop s popped ident rest h hl
        have hrest : (listPop s k ident rest).lists k = rest := Function.update_self _ _ _
        rw [claimListLoop_cons k owner deadline n hl]
        by_cases hfly : isInflight s k ident = true
        · -- the identity is in flight already: it is dropped, and the loop goes on
          have htaken : takenOff s k = ident :: takenOff (listPop s k ident rest) k := by
            unfold takenOff
            rw [hrest, hl, List.takeWhile_cons_of_pos hfly, List.dropWhile_cons_of_pos hfly]
            rfl
          have hleft : leftOver s k = leftOver (listPop s k ident rest) k := by
            unfold leftOver
            rw [hrest, hl, List.dropWhile_cons_of_pos hfly]
            rfl
          have hloop := ih _ _ hnext (by rw [hrest]; rw [hl] at hlen; simp at hlen; omega)
          rw [List.append_assoc, List.singleton_append, ← htaken, ← hleft] at hloop
          rw [if_pos hfly]
          exact hloop
        · have htaken : takenOff s k = [ident] := by
            unfold takenOff
            rw [hl, List.takeWhile_cons_of_neg hfly, List.dropWhile_cons_of_neg hfly]
            rfl
          have hleft : leftOver s k = rest := by
            unfold leftOver
            rw [hl, List.dropWhile_cons_of_neg hfly]
            rfl
          rw [if_neg hfly, htaken, hleft]
          exact ⟨htake _ _ ident hnext, hrest⟩

/-- **Claiming from a list**: the parts agree afterwards exactly when nothing that the claim takes off
stands in the list again. -/
theorem Inv.claimList_iff {s : Store} (h : Inv s) (k : ListKind) {owner : String} (deadline : ℚ)
    (howner : owner ≠ "") :
    Inv (claimList s k owner deadline).2 ↔ ∀ i ∈ takenOff s k, i ∉ leftOver s k := by
  obtain ⟨hpop, hleft⟩ := claimListLoop_spec (P := fun s popped => Popped s k popped)
    (fun _ _ _ _ hs hl => hs.listPop hl) (fun _ _ ident hs => hs.addInflight ident ⟨deadline, owner, none⟩)
    (s.lists k).length s [] (h.popped k) le_rfl
  unfold claimList
  rw [if_neg howner]
  show Inv (claimListLoop k owner deadline (s.lists k).length s).2 ↔ _
  rw [hpop.inv_iff, hleft, List.nil_append]

end JobStore
