/-
# Claims of ingest jobs (`claim_ingest`)

The queued ingest jobs of a band stand in a lazy heap: a new score pushes a new entry, and a
job that was claimed or got another score leaves its old entries behind.  A claim pops entries
until it has enough jobs; it drops those of jobs in flight or gone and arms again those of jobs
with another score.

`Armed` ties the heaps to the scores: every queued job has an entry with its score in the heap
of its band.  `claimIngestLoop_cons` says what one round does with the entry on top, `weight`
drops in every round, and so the claim ends with the least jobs of the band.

Scores are integers: between the two bands lie numbers that belong to the first one and are
outside its score range.  Main result: `claimIngest_least`.
-/
import HpcPerfStats.JobStoreRuns
import Mathlib.Algebra.Order.Ring.Cast

namespace JobStore

open OrderedDict

/-! ## Integer scores -/

/-- An integer score. -/
def IsInt (score : ℚ) : Prop :=
  ∃ n : ℤ, score = n

theorem isInt_catchupScoreBase : IsInt catchupScoreBase :=
  ⟨1000000000000000, rfl⟩

theorem IsInt.penalty {score : ℚ} (h : IsInt score) : IsInt (score + leaseConflictScorePenalty) := by
  obtain ⟨n, rfl⟩ := h
  exact ⟨n + 1000000, by rw [leaseConflictScorePenalty, Int.cast_add]; rfl⟩

/-- An integer score of a band is in its score range. -/
theorem inScoreRange_of_isInt {score : ℚ} (h : IsInt score) :
    inScoreRange (decodeIngestBand score) score = true := by
  obtain ⟨n, rfl⟩ := h
  have hbase : catchupScoreBase = ((1000000000000000 : ℤ) : ℚ) := rfl
  unfold decodeIngestBand
  split_ifs with hhot
  · rw [hbase, Int.cast_lt] at hhot
    show decide ((n : ℚ) ≤ catchupScoreBase - 1) = true
    rw [decide_eq_true_eq, hbase, ← Int.cast_one, ← Int.cast_sub, Int.cast_le]
    omega
  · exact decide_eq_true (not_lt.mp hhot)

/-- The operation brings integer scores only. -/
def Op.IntegerScores : Op → Prop
  | .zaddIngest _ score _ _ => IsInt score
  | .requeue _ _ _ (some score) => IsInt score
  | _ => True

/-! ## The order of the entries -/

instance : Std.Total heapLe := by
  refine ⟨fun a b => ?_⟩
  unfold heapLe
  rcases lt_trichotomy a.1 b.1 with h | h | h
  · exact Or.inl (Or.inl h)
  · rcases le_total a.2 b.2 with h' | h'
    · exact Or.inl (Or.inr ⟨h, h'⟩)
    · exact Or.inr (Or.inr ⟨h.symm, h'⟩)
  · exact Or.inr (Or.inl h)

instance : IsTrans (ℚ × String) heapLe := by
  refine ⟨fun a b c hab hbc => ?_⟩
  rcases hab with hab | ⟨hab, hab'⟩
  · rcases hbc with hbc | ⟨hbc, -⟩
    · exact Or.inl (hab.trans hbc)
    · exact Or.inl (hbc ▸ hab)
  · rcases hbc with hbc | ⟨hbc, hbc'⟩
    · exact Or.inl (hab ▸ hbc)
    · exact Or.inr ⟨hab.trans hbc, hab'.trans hbc'⟩

instance : Std.Antisymm heapLe := by
  refine ⟨fun a b hab hba => ?_⟩
  rcases hab with hab | ⟨hab, hab'⟩
  · rcases hba with hba | ⟨hba, -⟩
    · exact absurd hba hab.not_gt
    · exact absurd hba hab.ne'
  · rcases hba with hba | ⟨-, hba'⟩
    · exact absurd hab hba.ne'
    · exact Prod.ext hab (le_antisymm hab' hba')

/-- The queued jobs of a band, least score first and by identity where scores are equal. -/
def queuedIn (s : Store) (band : Band) : List (ℚ × String) :=
  ((s.ingest.entries.filter fun e => decodeIngestBand e.2 = band).map Prod.swap).insertionSort heapLe

theorem mem_queuedIn {s : Store} {band : Band} {v : ℚ} {i : String} :
    (v, i) ∈ queuedIn s band ↔ s.ingest.get i = some v ∧ decodeIngestBand v = band := by
  unfold queuedIn
  rw [List.mem_insertionSort, List.mem_map]
  constructor
  · rintro ⟨⟨j, w⟩, he, heq⟩
    obtain ⟨rfl, rfl⟩ := Prod.mk.inj heq
    obtain ⟨hmem, hband⟩ := List.mem_filter.mp he
    exact ⟨get_of_mem hmem, of_decide_eq_true hband⟩
  · rintro ⟨hget, hband⟩
    exact ⟨(i, v), List.mem_filter.mpr ⟨mem_of_get hget, decide_eq_true hband⟩, rfl⟩

/-- **The least job in front**: it is the first one, the others follow. -/
theorem queuedIn_eq_cons {s s' : Store} {band : Band} {v : ℚ} {i : String}
    (hget : s.ingest.get i = some v) (hband : decodeIngestBand v = band)
    (hleast : ∀ w j, s.ingest.get j = some w → decodeIngestBand w = band → heapLe (v, i) (w, j))
    (hpop : s'.ingest = s.ingest.pop i) : queuedIn s band = (v, i) :: queuedIn s' band := by
  have hperm : (queuedIn s band).Perm ((v, i) :: queuedIn s' band) := by
    unfold queuedIn
    refine (List.perm_insertionSort _ _).trans ?_
    refine List.Perm.trans ?_ ((List.perm_insertionSort heapLe _).symm.cons (v, i))
    have hfilter := ((perm_pop hget).filter fun e => decodeIngestBand e.2 = band).map Prod.swap
    have hhead : ((i, v) :: (s.ingest.pop i).entries).filter (fun e => decodeIngestBand e.2 = band) =
        (i, v) :: s'.ingest.entries.filter fun e => decodeIngestBand e.2 = band := by
      rw [hpop]
      exact List.filter_cons_of_pos (decide_eq_true hband)
    rw [hhead] at hfilter
    exact hfilter
  refine hperm.eq_of_pairwise' (List.pairwise_insertionSort heapLe _)
    (List.pairwise_cons.mpr ⟨?_, List.pairwise_insertionSort heapLe _⟩)
  rintro ⟨w, j⟩ hmem
  obtain ⟨hget', hband'⟩ := mem_queuedIn.mp hmem
  rw [hpop, get_pop] at hget'
  split_ifs at hget'
  exact hleast w j hget' hband'

/-! ## The invariant -/

/-- Every queued job has an entry with its score in the heap of its band. -/
structure HeapsArmed (ingest : Dict String ℚ) (heap : Band → List (ℚ × String)) : Prop where
  sorted : ∀ band, (heap band).Pairwise heapLe
  banded : ∀ band, ∀ e ∈ heap band, decodeIngestBand e.1 = band
  armed : ∀ i v, ingest.get i = some v → (v, i) ∈ heap (decodeIngestBand v)

/-- All scores are integers. -/
structure IntScores (s : Store) : Prop where
  queued : ∀ i v, s.ingest.get i = some v → IsInt v
  inflight : ∀ i e, (s.inflight .ingest).get i = some e → ∀ v ∈ e.score, IsInt v
  shadow : ∀ i v, s.shadow.ingest.get i = some v → IsInt v
  disk : ∀ i v, s.disk.ingest.get i = some v → IsInt v

/-- **The queued jobs are armed**, and not in flight. -/
structure Armed (s : Store) : Prop where
  apart : ∀ i, (s.ingest.get i).isSome = true → (s.inflight .ingest).get i = none
  heaps : HeapsArmed s.ingest s.heap
  ints : IntScores s

/-- Where nothing but the heaps changes. -/
theorem Armed.of_heaps {s t : Store} (h : Armed s) (hheaps : HeapsArmed t.ingest t.heap)
    (hingest : t.ingest = s.ingest) (hinflight : t.inflight .ingest = s.inflight .ingest)
    (hshadow : t.shadow.ingest = s.shadow.ingest) (hdisk : t.disk.ingest = s.disk.ingest) : Armed t := by
  refine ⟨?_, hheaps, ⟨?_, ?_, ?_, ?_⟩⟩
  · rw [hingest, hinflight]
    exact h.apart
  · rw [hingest]
    exact h.ints.queued
  · rw [hinflight]
    exact h.ints.inflight
  · rw [hshadow]
    exact h.ints.shadow
  · rw [hdisk]
    exact h.ints.disk

/-- Where nothing changes that counts. -/
theorem Armed.congr {s t : Store} (h : Armed s) (hheap : t.heap = s.heap) (hingest : t.ingest = s.ingest)
    (hinflight : t.inflight .ingest = s.inflight .ingest) (hshadow : t.shadow.ingest = s.shadow.ingest)
    (hdisk : t.disk.ingest = s.disk.ingest) : Armed t := by
  refine h.of_heaps ?_ hingest hinflight hshadow hdisk
  rw [hingest, hheap]
  exact h.heaps

theorem heapsArmed_empty : HeapsArmed Dict.empty (Store.init Snapshot.empty).heap := by
  refine ⟨?_, ?_, ?_⟩
  · intro band
    cases band with
    | hot => exact List.Pairwise.nil
    | catchup => exact List.Pairwise.nil
  · intro band e he
    cases band with
    | hot => cases he
    | catchup => cases he
  · intro i v hv
    cases hv

theorem armed_init {disk : Snapshot} (h : ∀ i v, disk.ingest.get i = some v → IsInt v) :
    Armed (Store.init disk) := by
  refine ⟨fun _ _ => rfl, heapsArmed_empty, ⟨?_, ?_, ?_, h⟩⟩
  · intro i v hv
    cases hv
  · intro i e he
    cases he
  · intro i v hv
    cases hv

/-! ## Heaps -/

section Heaps

variable (s : Store) (band : Band) (heap : List (ℚ × String))

theorem heap_setHeap (band' : Band) :
    (s.setHeap band heap).heap band' = if band' = band then heap else s.heap band' := by
  cases band with
  | hot => cases band' <;> rfl
  | catchup => cases band' <;> rfl

/-- A store with other heaps. -/
theorem Armed.setHeap {s : Store} (h : Armed s) {band : Band} {heap : List (ℚ × String)}
    (hheaps : HeapsArmed s.ingest (s.setHeap band heap).heap) : Armed (s.setHeap band heap) := by
  refine h.of_heaps ?_ (setHeap_ingest s band heap) ?_ ?_ ?_
  · rw [setHeap_ingest]
    exact hheaps
  · rw [setHeap_inflight]
  · rw [setHeap_shadow]
  · rw [setHeap_disk]

theorem heap_push (ident : String) (score : ℚ) :
    (ingestHeapPush s ident score).heap band =
      if band = decodeIngestBand score then (s.heap band).orderedInsert heapLe (score, ident)
      else s.heap band := by
  unfold ingestHeapPush
  rw [heap_setHeap]
  split_ifs with h
  · rw [h]
  · rfl

theorem mem_heap_push (ident : String) (score : ℚ) (e : ℚ × String) :
    e ∈ (ingestHeapPush s ident score).heap band ↔
      (band = decodeIngestBand score ∧ e = (score, ident)) ∨ e ∈ s.heap band := by
  rw [heap_push]
  split_ifs with h
  · rw [List.mem_orderedInsert, eq_true h, true_and]
  · rw [eq_false h, false_and, false_or]

end Heaps

/-- **Pushing an entry** arms the job for this score. -/
theorem HeapsArmed.push {s : Store} {ingest : Dict String ℚ} (h : HeapsArmed ingest s.heap) (ident : String)
    (score : ℚ) : HeapsArmed (ingest.set ident score) (ingestHeapPush s ident score).heap := by
  refine ⟨?_, ?_, ?_⟩
  · intro band
    rw [heap_push]
    split_ifs
    · exact (h.sorted band).orderedInsert (score, ident) _
    · exact h.sorted band
  · intro band e he
    rcases (mem_heap_push s band ident score e).mp he with ⟨hband, rfl⟩ | he
    · exact hband.symm
    · exact h.banded band e he
  · intro i v hv
    rw [mem_heap_push]
    rw [get_set] at hv
    split_ifs at hv with hi
    · obtain rfl := Option.some.inj hv
      exact Or.inl ⟨rfl, by rw [hi]⟩
    · exact Or.inr (h.armed i v hv)

/-- Only what is read counts. -/
theorem HeapsArmed.mono {ingest ingest' : Dict String ℚ} {heap : Band → List (ℚ × String)}
    (h : HeapsArmed ingest heap) (hsub : ∀ i v, ingest'.get i = some v → ingest.get i = some v) :
    HeapsArmed ingest' heap :=
  ⟨h.sorted, h.banded, fun i v hv => h.armed i v (hsub i v hv)⟩

/-- Arming a queued job again. -/
theorem Armed.push {s : Store} (h : Armed s) {ident : String} {live : ℚ} (hlive : s.ingest.get ident = some live) :
    Armed (ingestHeapPush s ident live) := by
  refine Armed.setHeap h ((h.heaps.push ident live).mono fun i v hv => ?_)
  rw [get_set]
  split_ifs with hi
  · rw [← hlive, ← hi]
    exact hv
  · exact hv

/-- **Dropping the entry on top** leaves every job armed whose entry it was not. -/
theorem HeapsArmed.dropTop {s : Store} {ingest : Dict String ℚ} {band : Band} {e : ℚ × String}
    {rest : List (ℚ × String)} (h : HeapsArmed s.ingest s.heap) (hheap : s.heap band = e :: rest)
    (hsub : ∀ i v, ingest.get i = some v → s.ingest.get i = some v ∧ (v, i) ≠ e) :
    HeapsArmed ingest (s.setHeap band rest).heap := by
  have hlist : ∀ band', ((s.setHeap band rest).heap band').Sublist (s.heap band') := by
    intro band'
    rw [heap_setHeap]
    split_ifs with hband
    · rw [hband, hheap]
      exact List.sublist_cons_self e rest
    · exact List.Sublist.refl _
  refine ⟨fun band' => (h.sorted band').sublist (hlist band'),
    fun band' e' he' => h.banded band' e' ((hlist band').mem he'), ?_⟩
  intro i v hv
  obtain ⟨hget, hne⟩ := hsub i v hv
  have hmem := h.armed i v hget
  rw [heap_setHeap]
  split_ifs with hband
  · rw [hband, hheap] at hmem
    exact (List.mem_cons.mp hmem).resolve_left hne
  · exact hmem

/-- An entry that is not that of a queued job. -/
theorem Armed.dropStale {s : Store} (h : Armed s) {band : Band} {e : ℚ × String} {rest : List (ℚ × String)}
    (hheap : s.heap band = e :: rest) (hstale : s.ingest.get e.2 ≠ some e.1) : Armed (s.setHeap band rest) := by
  refine Armed.setHeap h (h.heaps.dropTop hheap fun i v hv => ⟨hv, ?_⟩)
  rintro rfl
  exact hstale hv

/-! ## One round of a claim -/

/-- Popping the entry of a queued job takes the job: it moves to the jobs in flight. -/
theorem Armed.take {s : Store} (h : Armed s) {band : Band} {ident : String} {live : ℚ}
    {rest : List (ℚ × String)} (hheap : s.heap band = (live, ident) :: rest)
    (hlive : s.ingest.get ident = some live) (deadline : ℚ) (owner : String) :
    Armed (addInflight (ingestPop (s.setHeap band rest) ident live) .ingest ident
      ⟨deadline, owner, some live⟩) := by
  rw [ingestPop_eq]
  have hingest : (s.setHeap band rest).ingest = s.ingest := setHeap_ingest s band rest
  have hinflight : (s.setHeap band rest).inflight = s.inflight := setHeap_inflight s band rest
  have hpop : ∀ i v, ((s.setHeap band rest).ingest.pop ident).get i = some v →
      i ≠ ident ∧ s.ingest.get i = some v := by
    intro i v hv
    rw [get_pop, hingest] at hv
    split_ifs at hv with hi
    exact ⟨hi, hv⟩
  have hfly : ∀ i, (((s.setHeap band rest).inflight .ingest).set ident ⟨deadline, owner, some live⟩).get i =
      if i = ident then some ⟨deadline, owner, some live⟩ else (s.inflight .ingest).get i := by
    intro i
    rw [get_set, hinflight]
  refine ⟨?_, ?_, ⟨?_, ?_, ?_, ?_⟩⟩
  · intro i hi
    obtain ⟨v, hv⟩ := Option.isSome_iff_exists.mp hi
    obtain ⟨hne, hget⟩ := hpop i v hv
    rw [addInflight_inflight, hfly, if_neg hne]
    exact h.apart i (by rw [hget]; rfl)
  · exact h.heaps.dropTop hheap fun i v hv =>
      ⟨(hpop i v hv).2, fun heq => (hpop i v hv).1 (Prod.mk.inj heq).2⟩
  · intro i v hv
    exact h.ints.queued i v (hpop i v hv).2
  · intro i e he
    rw [addInflight_inflight, hfly] at he
    split_ifs at he
    · obtain rfl := Option.some.inj he
      intro v hv
      obtain rfl := Option.some.inj hv
      exact h.ints.queued ident live hlive
    · exact h.ints.inflight i e he
  · intro i v hv
    have hv' : ((s.setHeap band rest).shadow.ingest.pop ident).get i = some v := hv
    rw [get_pop, setHeap_shadow] at hv'
    split_ifs at hv'
    exact h.ints.shadow i v hv'
  · intro i v hv
    have hv' : (s.setHeap band rest).disk.ingest.get i = some v := hv
    rw [setHeap_disk] at hv'
    exact h.ints.disk i v hv'

/-- The entry is not that of its job, which is queued with another score. -/
def rearms (ingest : Dict String ℚ) (e : ℚ × String) : Bool :=
  (ingest.get e.2).any fun live => live != e.1

/-- What every round takes something of: the entries of a heap, and once more those that are armed
again. -/
def weight (s : Store) (band : Band) : ℕ :=
  (s.heap band).length + (s.heap band).countP (rearms s.ingest)

/-- A round that claims nothing. -/
structure Skips (band : Band) (s s' : Store) : Prop where
  armed : Armed s'
  ingest : s'.ingest = s.ingest
  weight_lt : weight s' band < weight s band

/-- A round that claims a job: the least one of the band. -/
structure Takes (band : Band) (s s' : Store) (job : ClaimedJob) : Prop where
  armed : Armed s'
  ingest : s'.ingest = s.ingest.pop job.identity
  least : ∃ live, job.score = some live ∧ queuedIn s band = (live, job.identity) :: queuedIn s' band
  weight_lt : weight s' band < weight s band

theorem skips_dropStale {s : Store} (h : Armed s) {band : Band} {e : ℚ × String} {rest : List (ℚ × String)}
    (hheap : s.heap band = e :: rest) (hstale : s.ingest.get e.2 ≠ some e.1) :
    Skips band s (s.setHeap band rest) := by
  refine ⟨h.dropStale hheap hstale, setHeap_ingest s band rest, ?_⟩
  unfold weight
  rw [heap_setHeap, if_pos rfl, setHeap_ingest, hheap, List.length_cons, List.countP_cons]
  omega

/-- Arming a job again puts a live entry into a heap for a stale one. -/
theorem skips_rearm {s : Store} (h : Armed s) {band : Band} {e : ℚ × String} {rest : List (ℚ × String)}
    {live : ℚ} (hheap : s.heap band = e :: rest) (hlive : s.ingest.get e.2 = some live) (hne : live ≠ e.1) :
    Skips band s (ingestHeapPush (s.setHeap band rest) e.2 live) := by
  have hstale : s.ingest.get e.2 ≠ some e.1 := by
    rw [hlive]
    exact fun heq => hne (Option.some.inj heq)
  have hingest : (ingestHeapPush (s.setHeap band rest) e.2 live).ingest = s.ingest := by
    unfold ingestHeapPush
    rw [setHeap_ingest, setHeap_ingest]
  have hlive' : (s.setHeap band rest).ingest.get e.2 = some live := by
    rw [setHeap_ingest]
    exact hlive
  refine ⟨(h.dropStale hheap hstale).push hlive', hingest, ?_⟩
  have hpushed : rearms s.ingest (live, e.2) = false := by
    show (s.ingest.get e.2).any (fun v => v != live) = false
    rw [hlive]
    exact bne_self_eq_false live
  have hpopped : rearms s.ingest e = true := by
    show (s.ingest.get e.2).any (fun v => v != e.1) = true
    rw [hlive]
    exact bne_iff_ne.mpr hne
  unfold weight
  rw [hingest, hheap, heap_push, heap_setHeap, if_pos rfl, List.length_cons, List.countP_cons, if_pos hpopped]
  split_ifs
  · rw [List.orderedInsert_length, (List.perm_orderedInsert heapLe (live, e.2) rest).countP_eq,
      List.countP_cons, hpushed]
    simp only [Bool.false_eq_true, if_false]
    omega
  · omega

/-- The entry of a queued job on top is the least job of the band. -/
theorem takes_top {s : Store} (h : Armed s) {band : Band} {ident : String} {live : ℚ}
    {rest : List (ℚ × String)} (hheap : s.heap band = (live, ident) :: rest)
    (hlive : s.ingest.get ident = some live) (deadline : ℚ) (owner fingerprint : String) :
    Takes band s (addInflight (ingestPop (s.setHeap band rest) ident live) .ingest ident
        ⟨deadline, owner, some live⟩)
      ⟨.ingest, ident, owner, deadline, some live, fingerprint⟩ := by
  have harmed := h.take hheap hlive deadline owner
  have hingest : (addInflight (ingestPop (s.setHeap band rest) ident live) .ingest ident
      ⟨deadline, owner, some live⟩).ingest = s.ingest.pop ident := by
    rw [ingestPop_eq]
    show (s.setHeap band rest).ingest.pop ident = _
    rw [setHeap_ingest]
  have hheap' : (addInflight (ingestPop (s.setHeap band rest) ident live) .ingest ident
      ⟨deadline, owner, some live⟩).heap band = rest := by
    rw [ingestPop_eq]
    show (s.setHeap band rest).heap band = rest
    rw [heap_setHeap, if_pos rfl]
  refine ⟨harmed, hingest, ⟨live, rfl, queuedIn_eq_cons hlive ?_ ?_ hingest⟩, ?_⟩
  · exact h.heaps.banded band (live, ident) (hheap ▸ List.mem_cons_self)
  · -- the others of the band have their entries further down
    intro w j hj hband
    have hmem := h.heaps.armed j w hj
    rw [hband, hheap] at hmem
    rcases List.mem_cons.mp hmem with heq | hmem
    · rw [heq]
      exact Or.inr ⟨rfl, le_refl ident⟩
    · have hsorted := h.heaps.sorted band
      rw [hheap] at hsorted
      exact (List.pairwise_cons.mp hsorted).1 _ hmem
  · have hcount : rest.countP (rearms (s.ingest.pop ident)) ≤ rest.countP (rearms s.ingest) := by
      refine List.countP_mono_left fun e _ he => ?_
      unfold rearms at he ⊢
      rw [get_pop] at he
      split_ifs at he
      · cases he
      · exact he
    unfold weight
    rw [hheap', hingest, hheap, List.length_cons, List.countP_cons]
    omega

/-- **What one round of a claim does** with the entry on top. -/
theorem claimIngestLoop_cons {s : Store} (h : Armed s) {band : Band} {e : ℚ × String}
    {rest : List (ℚ × String)} (hheap : s.heap band = e :: rest) (owner : String) (deadline : ℚ) :
    (∃ s', Skips band s s' ∧ ∀ fuel want, claimIngestLoop band owner deadline (fuel + 1) (want + 1) s =
        claimIngestLoop band owner deadline fuel (want + 1) s') ∨
      ∃ s' job, Takes band s s' job ∧
        ∀ fuel want, claimIngestLoop band owner deadline (fuel + 1) (want + 1) s =
          (claimIngestLoop band owner deadline fuel want s').map fun r => (job :: r.1, r.2) := by
  obtain ⟨snapScore, ident⟩ := e
  by_cases hfly : ((s.inflight .ingest).get ident).isSome = true
  · -- a job in flight is not queued
    have hgone : s.ingest.get ident ≠ some snapScore := by
      intro hlive
      have hfree := h.apart ident (by rw [hlive]; rfl)
      rw [hfree] at hfly
      cases hfly
    refine Or.inl ⟨_, skips_dropStale h hheap hgone, fun fuel want => ?_⟩
    rw [claimIngestLoop, hheap]
    simp only [setHeap_inflight]
    rw [if_pos hfly]
  · cases hlive : s.ingest.get ident with
    | none =>
        have hgone : s.ingest.get ident ≠ some snapScore := by
          rw [hlive]
          exact (Option.some_ne_none snapScore).symm
        refine Or.inl ⟨_, skips_dropStale h hheap hgone, fun fuel want => ?_⟩
        rw [claimIngestLoop, hheap]
        simp only [setHeap_inflight, setHeap_ingest, hlive]
        rw [if_neg hfly]
    | some live =>
        by_cases hne : live = snapScore
        · subst hne
          have hband : decodeIngestBand live = band :=
            h.heaps.banded band (live, ident) (hheap ▸ List.mem_cons_self)
          have hrange : inScoreRange band live = true :=
            hband ▸ inScoreRange_of_isInt (h.ints.queued ident live hlive)
          have hlive_ok : ¬ (live ≠ live ∨ inScoreRange band live = false) := by
            rw [hrange]
            simp
          let taken := addInflight (ingestPop (s.setHeap band rest) ident live) .ingest ident
            ⟨deadline, owner, some live⟩
          let fields := (taken.payloads.get (.ingest, ident)).getD Dict.empty
          refine Or.inr ⟨taken, _, takes_top h hheap hlive deadline owner ((fields.get "fingerprint").getD ""),
            fun fuel want => ?_⟩
          rw [claimIngestLoop, hheap]
          simp only [setHeap_inflight, setHeap_ingest, hlive]
          rw [if_neg hfly, if_neg hlive_ok]
        · refine Or.inl ⟨_, skips_rearm h hheap hlive hne, fun fuel want => ?_⟩
          rw [claimIngestLoop, hheap]
          simp only [setHeap_inflight, setHeap_ingest, hlive]
          rw [if_neg hfly, if_pos (Or.inl hne)]

/-! ## A whole claim -/

/-- **What a claim gives**: the least jobs of the band in order, and every other job stays queued with
its score. -/
structure Claims (band : Band) (want : ℕ) (s s' : Store) (jobs : List ClaimedJob) : Prop where
  least : jobs.map (fun j => (j.score, j.identity)) =
    ((queuedIn s band).take want).map fun e => (some e.1, e.2)
  others : ∀ i, s'.ingest.get i = if i ∈ jobs.map ClaimedJob.identity then none else s.ingest.get i

theorem queuedIn_congr {s t : Store} (h : t.ingest = s.ingest) (band : Band) :
    queuedIn t band = queuedIn s band := by
  unfold queuedIn
  rw [h]

/-- No entry, no job. -/
theorem queuedIn_of_heap_nil {s : Store} (h : Armed s) {band : Band} (hheap : s.heap band = []) :
    queuedIn s band = [] := by
  refine List.eq_nil_iff_forall_not_mem.mpr ?_
  rintro ⟨v, i⟩ hmem
  obtain ⟨hget, hband⟩ := mem_queuedIn.mp hmem
  have harmed := h.heaps.armed i v hget
  rw [hband, hheap] at harmed
  cases harmed

theorem claims_nothing {s : Store} {band : Band} {want : ℕ} (h : (queuedIn s band).take want = []) :
    Claims band want s s [] := by
  refine ⟨?_, fun i => ?_⟩
  · rw [h]
    rfl
  · rw [List.map_nil, if_neg List.not_mem_nil]

theorem Takes.claims {s s' t : Store} {band : Band} {want : ℕ} {job : ClaimedJob} {jobs : List ClaimedJob}
    (htake : Takes band s s' job) (h : Claims band want s' t jobs) : Claims band (want + 1) s t (job :: jobs) := by
  obtain ⟨live, hscore, hqueued⟩ := htake.least
  refine ⟨?_, fun i => ?_⟩
  · rw [List.map_cons, h.least, hqueued, List.take_succ_cons, List.map_cons, hscore]
  · rw [h.others, htake.ingest, get_pop, List.map_cons]
    by_cases hi : i = job.identity
    · rw [if_pos hi, if_pos (List.mem_cons.mpr (Or.inl hi)), ite_self]
    · rw [if_neg hi]
      simp only [List.mem_cons, hi, false_or]

/-- **The loop ends, with the least jobs.** -/
theorem claimIngestLoop_claims {band : Band} (owner : String) (deadline : ℚ) (n : ℕ) :
    ∀ (want : ℕ) (s : Store), Armed s → weight s band = n →
      ∃ jobs s', Claims band want s s' jobs ∧
        ∀ fuel, n < fuel → claimIngestLoop band owner deadline fuel want s = some (jobs, s') := by
  -- every round takes something of the weight
  induction n using Nat.strong_induction_on with
  | _ n ih =>
      intro want s h hn
      cases want with
      | zero =>
          refine ⟨[], s, claims_nothing List.take_zero, fun fuel _ => ?_⟩
          cases fuel <;> rfl
      | succ want =>
          cases hheap : s.heap band with
          | nil =>
              refine ⟨[], s, claims_nothing ?_, fun fuel hfuel => ?_⟩
              · rw [queuedIn_of_heap_nil h hheap, List.take_nil]
              · obtain ⟨fuel, rfl⟩ := Nat.exists_eq_succ_of_ne_zero (Nat.ne_zero_of_lt hfuel)
                rw [claimIngestLoop, hheap]
          | cons e rest =>
              rcases claimIngestLoop_cons h hheap owner deadline with ⟨s', hskip, hround⟩ | ⟨s', job, htake, hround⟩
              · have hlt := hskip.weight_lt
                obtain ⟨jobs, t, hclaims, hrun⟩ := ih _ (hn ▸ hlt) (want + 1) s' hskip.armed rfl
                refine ⟨jobs, t, ⟨?_, ?_⟩, fun fuel hfuel => ?_⟩
                · rw [hclaims.least, queuedIn_congr hskip.ingest]
                · rw [← hskip.ingest]
                  exact hclaims.others
                · obtain ⟨fuel, rfl⟩ := Nat.exists_eq_succ_of_ne_zero (Nat.ne_zero_of_lt hfuel)
                  rw [hround, hrun fuel (by omega)]
              · have hlt := htake.weight_lt
                obtain ⟨jobs, t, hclaims, hrun⟩ := ih _ (hn ▸ hlt) want s' htake.armed rfl
                refine ⟨job :: jobs, t, htake.claims hclaims, fun fuel hfuel => ?_⟩
                obtain ⟨fuel, rfl⟩ := Nat.exists_eq_succ_of_ne_zero (Nat.ne_zero_of_lt hfuel)
                rw [hround, hrun fuel (by omega)]
                rfl

/-- A claim leaves the rest armed. -/
theorem Armed.claimIngestLoop {band : Band} {owner : String} {deadline : ℚ} (fuel : ℕ) :
    ∀ (want : ℕ) {s : Store} {r : List ClaimedJob × Store}, Armed s →
      claimIngestLoop band owner deadline fuel want s = some r → Armed r.2 := by
  induction fuel with
  | zero =>
      intro want s r h hr
      cases want with
      | zero =>
          obtain rfl := Option.some.inj hr
          exact h
      | succ want => cases hr
  | succ fuel ih =>
      intro want s r h hr
      cases want with
      | zero =>
          obtain rfl := Option.some.inj hr
          exact h
      | succ want =>
          cases hheap : s.heap band with
          | nil =>
              rw [JobStore.claimIngestLoop, hheap] at hr
              obtain rfl := Option.some.inj hr
              exact h
          | cons e rest =>
              rcases claimIngestLoop_cons h hheap owner deadline with ⟨s', hskip, hround⟩ | ⟨s', job, htake, hround⟩
              · rw [hround] at hr
                exact ih (want + 1) hskip.armed hr
              · rw [hround, Option.map_eq_some_iff] at hr
                obtain ⟨r', hr', rfl⟩ := hr
                have hrest : Armed r'.2 := ih want htake.armed hr'
                exact hrest

/-! ## The other operations -/

theorem Armed.shadowSyncPayload {s : Store} (h : Armed s) (kind : Kind) (ident : String) :
    Armed (shadowSyncPayload s kind ident) :=
  h.congr rfl rfl rfl rfl rfl

theorem Armed.setFields {s : Store} (h : Armed s) (kind : Kind) (ident : String) (fields : Fields) :
    Armed (setFields s kind ident fields) := by
  unfold JobStore.setFields
  simp only
  split_ifs
  · exact h.congr rfl rfl rfl rfl rfl
  · exact h.congr rfl rfl rfl rfl rfl

/-- `_ingest_set_locked` pushes the entry after the score was set. -/
theorem ingestSet_eq (s : Store) (ident : String) (score : ℚ) :
    ∃ hotN catchupN, ingestSet s ident score =
      let t := ingestHeapPush { s with
        ingest := s.ingest.set ident score, hotN := hotN, catchupN := catchupN } ident score
      shadowSyncPayload { t with shadow := { t.shadow with ingest := t.shadow.ingest.set ident score } }
        .ingest ident := by
  unfold ingestSet
  cases s.ingest.get ident with
  | none =>
      simp only [ingestBandInc_eq]
      exact ⟨_, _, rfl⟩
  | some old =>
      simp only [ingestBandInc_eq, ingestBandDec_eq]
      exact ⟨_, _, rfl⟩

/-- **Queueing a job** that is not in flight. -/
theorem Armed.ingestSet {s : Store} (h : Armed s) {ident : String} {score : ℚ}
    (hfree : (s.inflight .ingest).get ident = none) (hint : IsInt score) : Armed (ingestSet s ident score) := by
  obtain ⟨hotN, catchupN, heq⟩ := ingestSet_eq s ident score
  rw [heq]
  let counted : Store := { s with ingest := s.ingest.set ident score, hotN := hotN, catchupN := catchupN }
  have hheaps : HeapsArmed (s.ingest.set ident score) (ingestHeapPush counted ident score).heap :=
    HeapsArmed.push (by exact h.heaps) ident score
  refine Armed.shadowSyncPayload ⟨?_, ?_, ⟨?_, ?_, ?_, ?_⟩⟩ .ingest ident
  all_goals simp only [ingestHeapPush, setHeap_ingest, setHeap_inflight, setHeap_shadow, setHeap_disk]
  · intro i hi
    rw [get_set] at hi
    split_ifs at hi with hident
    · rw [hident]
      exact hfree
    · exact h.apart i hi
  · exact hheaps
  · intro i v hv
    rw [get_set] at hv
    split_ifs at hv
    · exact Option.some.inj hv ▸ hint
    · exact h.ints.queued i v hv
  · exact h.ints.inflight
  · intro i v hv
    rw [get_set] at hv
    split_ifs at hv
    · exact Option.some.inj hv ▸ hint
    · exact h.ints.shadow i v hv
  · exact h.ints.disk

theorem Armed.dropInflight {s : Store} (h : Armed s) (kind : Kind) (ident : String) :
    Armed (dropInflight s kind ident) := by
  cases kind with
  | list k => exact h.congr rfl rfl rfl rfl rfl
  | ingest =>
      refine ⟨?_, h.heaps, ⟨h.ints.queued, ?_, h.ints.shadow, h.ints.disk⟩⟩
      · intro i hi
        rw [dropInflight_inflight, get_pop]
        split_ifs
        · rfl
        · exact h.apart i hi
      · intro i e he
        rw [dropInflight_inflight, get_pop] at he
        split_ifs at he
        exact h.ints.inflight i e he

theorem Armed.putBack {s : Store} (h : Armed s) (kind : Kind) (ident : String) {score : ℚ}
    (hint : kind = .ingest → IsInt score) :
    Armed (putBack (JobStore.dropInflight s kind ident) kind ident score) := by
  have hdrop := h.dropInflight kind ident
  cases kind with
  | ingest =>
      refine hdrop.ingestSet ?_ (hint rfl)
      rw [dropInflight_inflight, get_pop, if_pos rfl]
  | list k => exact hdrop.congr rfl rfl rfl rfl rfl

theorem Armed.requeue {s : Store} (h : Armed s) (kind : Kind) (ident owner : String) {score : Option ℚ}
    (hint : ∀ v ∈ score, kind = .ingest → IsInt v) : Armed (requeue s kind ident owner score).2 := by
  unfold JobStore.requeue
  split
  · exact h
  · refine h.putBack kind ident fun hkind => ?_
    cases score with
    | none => exact isInt_catchupScoreBase
    | some v => exact hint v rfl hkind

/-- The score of an entry in flight. -/
theorem Armed.entry_int {s : Store} (h : Armed s) {kind : Kind} {ident : String} {entry : Inflight}
    (hget : (s.inflight kind).get ident = some entry) : ∀ v ∈ entry.score, kind = .ingest → IsInt v := by
  rintro v hv rfl
  exact h.ints.inflight ident entry hget v hv

theorem Armed.items_int {s : Store} (h : Armed s) (kind : Kind) :
    ∀ item ∈ (s.inflight kind).entries, ∀ v ∈ item.2.score, kind = .ingest → IsInt v :=
  fun _ hitem => h.entry_int (get_of_mem hitem)

/-- An entry in flight keeps its score. -/
theorem Armed.setEntry {s : Store} (h : Armed s) {kind : Kind} {ident : String} {entry : Inflight}
    (hget : (s.inflight kind).get ident = some entry) (deadline : ℚ) (owner : String) :
    Armed { s with
      inflight := Function.update s.inflight kind
        ((s.inflight kind).set ident ⟨deadline, owner, entry.score⟩) } := by
  cases kind with
  | list k => exact h.congr rfl rfl rfl rfl rfl
  | ingest =>
      have hfly : ∀ i, ((Function.update s.inflight .ingest
          ((s.inflight .ingest).set ident ⟨deadline, owner, entry.score⟩)) .ingest).get i =
          if i = ident then some ⟨deadline, owner, entry.score⟩ else (s.inflight .ingest).get i := by
        intro i
        rw [Function.update_self, get_set]
      refine ⟨?_, h.heaps, ⟨h.ints.queued, ?_, h.ints.shadow, h.ints.disk⟩⟩
      · intro i hi
        rw [hfly]
        split_ifs with hident
        · -- a job in flight is not queued
          have hfree := h.apart i hi
          rw [hident, hget] at hfree
          cases hfree
        · exact h.apart i hi
      · intro i e he
        rw [hfly] at he
        split_ifs at he
        · obtain rfl := Option.some.inj he
          exact h.ints.inflight ident entry hget
        · exact h.ints.inflight i e he

theorem Armed.renewJobLease {s : Store} (h : Armed s) (kind : Kind) (ident owner : String) (deadline : ℚ) :
    Armed (renewJobLease s kind ident owner deadline).2 := by
  unfold JobStore.renewJobLease
  split
  · exact h
  · next entry hentry =>
      exact (h.setEntry (isSome_of_ownedEntry hentry) deadline entry.owner).congr rfl rfl rfl rfl rfl

theorem Armed.extendInflightDeadline {s : Store} (h : Armed s) (kind : Kind) (ident : String) (deadline : ℚ) :
    Armed (extendInflightDeadline s kind ident deadline).2 := by
  unfold JobStore.extendInflightDeadline
  split
  · exact h
  · next entry hentry => exact h.setEntry hentry deadline entry.owner

theorem Armed.ack {s : Store} (h : Armed s) (kind : Kind) (ident owner : String) :
    Armed (ack s kind ident owner).2 := by
  unfold JobStore.ack
  split
  · exact h
  · cases kind with
    | ingest => exact (h.dropInflight .ingest ident).congr rfl rfl rfl rfl rfl
    | list k => exact h.congr rfl rfl rfl rfl rfl

theorem Armed.reapLoop (kind : Kind) (cutoff : ℚ) (want : ℕ) (items : List (String × Inflight))
    (out : List String) {s : Store} (h : Armed s)
    (hitems : ∀ item ∈ items, ∀ v ∈ item.2.score, kind = .ingest → IsInt v) :
    Armed (reapLoop kind cutoff want items out s).2 := by
  refine reapLoop_rule cutoff want items (fun item hitem s hs => ?_) out h
  refine hs.putBack kind item.1 fun hkind => IsInt.penalty ?_
  cases hscore : item.2.score with
  | none => exact isInt_catchupScoreBase
  | some v => exact hitems item hitem v hscore hkind

theorem Armed.stealLoop (here : Local) (items : List ((Kind × String) × String)) (stolen : ℕ) {s : Store}
    (h : Armed s) : Armed (stealLoop here items stolen s).2 :=
  stealLoop_rule here items
    (fun _ kind ident ownerToken hs => hs.requeue kind ident ownerToken fun _ hv => nomatch hv) stolen h

theorem Armed.stealJobLeaseIfOwnerDead {s : Store} (h : Armed s) (kind : Kind) (ident : String)
    (here : Local) : Armed (stealJobLeaseIfOwnerDead s kind ident here).2 := by
  unfold JobStore.stealJobLeaseIfOwnerDead
  cases s.leases.get (kind, ident) with
  | none => exact h
  | some ownerToken =>
      have hrequeue : Armed (JobStore.requeue s kind ident ownerToken none).2 :=
        h.requeue kind ident ownerToken fun v hv => nomatch hv
      simp only
      split_ifs
      · exact h
      · exact hrequeue
      · exact hrequeue
      · exact hrequeue.congr rfl rfl rfl rfl rfl

theorem Armed.reconcileLoop (kind : Kind) (known : List String) (owner : String)
    (items : List (String × Inflight)) (recovered : ℕ) {s : Store} (h : Armed s)
    (hitems : ∀ item ∈ items, ∀ v ∈ item.2.score, kind = .ingest → IsInt v) :
    Armed (reconcileLoop kind known owner items recovered s).2 :=
  reconcileLoop_rule known owner items
    (fun item hitem _ hs => hs.requeue kind item.1 item.2.owner (hitems item hitem)) recovered h

theorem Armed.zaddIngest {s : Store} (h : Armed s) (ident : String) {score : ℚ} (hint : IsInt score)
    (fingerprint : Option String) (cap : ℕ) : Armed (zaddIngest s ident score fingerprint cap).2 := by
  apply zaddIngest_rule h ident score fingerprint cap
  · exact fun hfly => h.ingestSet hfly hint
  · intro fields hset
    unfold JobStore.setFields
    dsimp only
    split_ifs
    · exact hset.congr rfl rfl rfl rfl rfl
    · exact hset.congr rfl rfl rfl rfl rfl

theorem Armed.claimListLoop (k : ListKind) (owner : String) (deadline : ℚ) (n : ℕ) {s : Store} (h : Armed s) :
    Armed (claimListLoop k owner deadline n s).2 :=
  claimListLoop_rule (fun _ _ _ hs => hs.congr rfl rfl rfl rfl rfl)
    (fun _ _ hs => hs.congr rfl rfl rfl rfl rfl) n h

/-- What the heaps hold after all entries of a list were pushed. -/
theorem heap_foldl_push (entries : List (String × ℚ)) : ∀ s : Store, (∀ band, (s.heap band).Pairwise heapLe) →
    ∀ band, ((entries.foldl (fun s e => ingestHeapPush s e.1 e.2) s).heap band).Pairwise heapLe ∧
      ∀ e, e ∈ (entries.foldl (fun s e => ingestHeapPush s e.1 e.2) s).heap band ↔
        e ∈ s.heap band ∨ (e.swap ∈ entries ∧ band = decodeIngestBand e.1) := by
  induction entries with
  | nil =>
      intro s hsorted band
      exact ⟨hsorted band, fun e => by simp⟩
  | cons p entries ih =>
      intro s hsorted band
      have hpush : ∀ band, ((ingestHeapPush s p.1 p.2).heap band).Pairwise heapLe := by
        intro band
        rw [heap_push]
        split_ifs
        · exact (hsorted band).orderedInsert (p.2, p.1) _
        · exact hsorted band
      obtain ⟨hsorted', hmem⟩ := ih (ingestHeapPush s p.1 p.2) hpush band
      refine ⟨hsorted', fun e => ?_⟩
      rw [List.foldl_cons, hmem, mem_heap_push, List.mem_cons]
      have hswap : e = (p.2, p.1) ↔ e.swap = p := by
        constructor
        · rintro rfl
          rfl
        · rintro rfl
          rfl
      rw [← hswap]
      constructor
      · rintro ((⟨hband, he⟩ | he) | ⟨he, hband⟩)
        · exact Or.inr ⟨Or.inl he, by rw [hband, he]⟩
        · exact Or.inl he
        · exact Or.inr ⟨Or.inr he, hband⟩
      · rintro (he | ⟨he | he, hband⟩)
        · exact Or.inl (Or.inr he)
        · exact Or.inl (Or.inl ⟨by rw [hband, he], he⟩)
        · exact Or.inr ⟨he, hband⟩

/-- **Loading** arms all jobs of the document. -/
theorem Armed.load {s : Store} (h : Armed s) : Armed (load s) := by
  let emptied : Store := { s with ingest := s.disk.ingest, heapHot := [], heapCatchup := [] }
  have hempty : ∀ band, emptied.heap band = [] := by
    intro band
    cases band <;> rfl
  have hheaps := heap_foldl_push s.disk.ingest.entries emptied fun band => by
    rw [hempty]
    exact List.Pairwise.nil
  obtain ⟨heapHot, heapCatchup, heq⟩ := ingestHeapPush_foldl s.disk.ingest.entries emptied
  have harmed : HeapsArmed s.disk.ingest
      (s.disk.ingest.entries.foldl (fun s e => ingestHeapPush s e.1 e.2) emptied).heap := by
    refine ⟨fun band => (hheaps band).1, ?_, ?_⟩
    · intro band e he
      rcases ((hheaps band).2 e).mp he with he | ⟨-, hband⟩
      · rw [hempty] at he
        cases he
      · exact hband.symm
    · intro i v hv
      exact ((hheaps _).2 (v, i)).mpr (Or.inr ⟨mem_of_get hv, rfl⟩)
  rw [heq] at harmed
  unfold JobStore.load
  dsimp only
  rw [heq]
  exact ⟨fun _ _ => rfl, harmed, ⟨h.ints.disk, fun _ _ he => (nomatch he), h.ints.disk, h.ints.disk⟩⟩

theorem Armed.persistFlush {s : Store} (h : Armed s) (written : Bool) : Armed (persistFlush s written) := by
  refine ⟨h.apart, h.heaps, ⟨h.ints.queued, h.ints.inflight, h.ints.shadow, ?_⟩⟩
  cases written with
  | true => exact h.ints.shadow
  | false => exact h.ints.disk

/-- **Every operation with integer scores leaves the queued jobs armed.** -/
theorem Armed.step {s s' : Store} {op : Op} (h : Armed s) (hop : op.IntegerScores)
    (hstep : step s op = some s') : Armed s' := by
  -- a score enters by the enqueue and by the requeue only; the others move rows or drop them
  cases op with
  | claimIngest band owner deadline maxN fuel =>
      obtain ⟨r, hr, rfl⟩ := Option.map_eq_some_iff.mp hstep
      exact claimIngest_rule h (fun want r' hr' => h.claimIngestLoop fuel want hr') hr
  | zaddIngest ident score fingerprint cap =>
      obtain rfl := Option.some.inj hstep
      exact h.zaddIngest ident hop fingerprint cap
  | requeue kind ident owner score =>
      obtain rfl := Option.some.inj hstep
      refine h.requeue kind ident owner fun v hv _ => ?_
      cases score with
      | none => cases hv
      | some w => exact Option.some.inj hv ▸ hop
  | reapExpiredInflight kind now limit =>
      obtain rfl := Option.some.inj hstep
      exact h.reapLoop kind _ _ _ [] (h.items_int kind)
  | reconcileThisOwnerOrphanLeases kind known owner =>
      obtain rfl := Option.some.inj hstep
      exact h.reconcileLoop kind known owner _ 0 (h.items_int kind)
  | stealDeadOwnerLeases here =>
      obtain rfl := Option.some.inj hstep
      exact h.stealLoop here _ 0
  | stealJobLeaseIfOwnerDead kind ident here =>
      obtain rfl := Option.some.inj hstep
      exact h.stealJobLeaseIfOwnerDead kind ident here
  | ack kind ident owner =>
      obtain rfl := Option.some.inj hstep
      exact h.ack kind ident owner
  | renewJobLease kind ident owner deadline =>
      obtain rfl := Option.some.inj hstep
      exact h.renewJobLease kind ident owner deadline
  | extendInflightDeadline kind ident deadline =>
      obtain rfl := Option.some.inj hstep
      exact h.extendInflightDeadline kind ident deadline
  | load =>
      obtain rfl := Option.some.inj hstep
      exact h.load
  | persistFlush written =>
      obtain rfl := Option.some.inj hstep
      exact h.persistFlush written
  | claimList k owner deadline =>
      obtain rfl := Option.some.inj hstep
      unfold claimList
      split_ifs
      · exact h
      · exact h.claimListLoop k owner deadline _
  | enqueueList k ident dedupe cap =>
      obtain rfl := Option.some.inj hstep
      unfold enqueueList
      split_ifs
      · exact h
      · exact h
      · exact h.congr rfl rfl rfl rfl rfl
  | writeJobFingerprint kind ident fingerprint =>
      obtain rfl := Option.some.inj hstep
      unfold writeJobFingerprint
      split_ifs
      · exact h
      · exact h.setFields kind ident _
  | bumpJobAttempt kind ident =>
      obtain rfl := Option.some.inj hstep
      unfold bumpJobAttempt
      simp only
      split
      · exact h
      · exact h.setFields kind ident _
  | reorderList k orderedIdents =>
      obtain rfl := Option.some.inj hstep
      unfold reorderList
      split_ifs
      · exact h.congr rfl rfl rfl rfl rfl
      · exact h

/-- The queued jobs are armed after every history with integer scores. -/
theorem armed_exec {disk : Snapshot} {ops : List Op} {s : Store}
    (hdisk : ∀ i v, disk.ingest.get i = some v → IsInt v) (hops : ∀ op ∈ ops, op.IntegerScores)
    (hrun : Transition.exec step (Store.init disk) ops = some s) : Armed s :=
  Transition.exec_invariant (fun _ _ _ h hop hstep => h.step hop hstep) ops (Store.init disk) s
    (armed_init hdisk) (Transition.respects_of_forall hops _) hrun

/-- **A claim takes the least jobs of its band**, after every history with integer scores: it ends, with
the jobs of least score (by identity where scores are equal) in order, as many as are wanted and
there, and leaves every other job queued with its score. -/
theorem claimIngest_least {disk : Snapshot} {ops : List Op} {s : Store}
    (hdisk : ∀ i v, disk.ingest.get i = some v → IsInt v) (hops : ∀ op ∈ ops, op.IntegerScores)
    (hrun : Transition.exec step (Store.init disk) ops = some s) (band : Band) {owner : String}
    (howner : owner ≠ "") (deadline : ℚ) {maxN : ℤ} (hmax : 1 ≤ maxN) :
    ∃ jobs s' fuel₀, Claims band maxN.toNat s s' jobs ∧
      jobs.length = min maxN.toNat (s.ingest.count fun v => decodeIngestBand v == band) ∧
      ∀ fuel ≥ fuel₀, claimIngest s band owner deadline maxN fuel = some (.ok jobs, s') := by
  obtain ⟨jobs, s', hclaims, hloop⟩ :=
    claimIngestLoop_claims owner deadline _ maxN.toNat s (armed_exec hdisk hops hrun) rfl
  refine ⟨jobs, s', weight s band + 1, hclaims, ?_, fun fuel hfuel => ?_⟩
  · have hlength := congrArg List.length hclaims.least
    rw [List.length_map, List.length_map, List.length_take] at hlength
    rw [hlength]
    congr 1
    unfold queuedIn Dict.count
    rw [List.length_insertionSort, List.length_map, List.countP_eq_length_filter]
    rfl
  · unfold claimIngest
    rw [if_neg howner, if_neg (not_lt.mpr hmax), hloop fuel (by omega)]
    rfl

/-- Two jobs, one of them with a new score. -/
def rescored : List Op :=
  [.zaddIngest "/raw/a" 5 none 1000, .zaddIngest "/raw/b" 3 none 1000, .zaddIngest "/raw/a" 2 none 1000]

theorem claimIngest_least_rescored :
    ∃ s, Transition.exec step (Store.init Snapshot.empty) rescored = some s ∧
      ∃ jobs s' fuel₀, Claims .hot 1 s s' jobs ∧
        jobs.length = min 1 (s.ingest.count fun v => decodeIngestBand v == .hot) ∧
        ∀ fuel ≥ fuel₀, claimIngest s .hot "n:h:b:1" 60 1 fuel = some (.ok jobs, s') := by
  have hdisk : ∀ i v, Snapshot.empty.ingest.get i = some v → IsInt v := by
    intro i v hv
    cases hv
  have hops : ∀ op ∈ rescored, op.IntegerScores := by
    intro op hop
    rcases List.mem_cons.mp hop with rfl | hop
    · exact ⟨5, rfl⟩
    · rcases List.mem_cons.mp hop with rfl | hop
      · exact ⟨3, rfl⟩
      · obtain rfl := List.mem_singleton.mp hop
        exact ⟨2, rfl⟩
  exact ⟨_, rfl, claimIngest_least hdisk hops rfl .hot (by decide) 60 (le_refl 1)⟩

end JobStore
