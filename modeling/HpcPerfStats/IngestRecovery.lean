/-
# Recovered ingest jobs and their scores

The score of an ingest job says in which band it is queued and, in the catch-up band, for which
calendar day.  A job in flight comes back into the queue when its claim is given back (`requeue`),
expires (`reap_expired_inflight`), belongs to a dead process (`steal_dead_owner_leases`,
`steal_job_lease_if_owner_dead`) or is missing from the maps of its own process
(`reconcile_this_owner_orphan_leases`).  The last one queues it with the score of the claim.  A reap
adds a penalty of one stride, which is one day, and a steal gives no score, so that the job is queued
at the start of the catch-up band.

`recoveries` lists what an operation brings back, and `Recovers` says that this and nothing else
changes.  `Placed` ties every job to the score that it was first queued with.  Main result:
`recovers_iff`, about every run of the store: each recovery queues each of its jobs once, in the band of
its claim and for its day, exactly when no step is one of those that move it (`RecoveryOk`).
-/
import HpcPerfStats.JobStoreRuns
import Mathlib.Data.Rat.Floor
import Mathlib.Tactic.Linarith

namespace JobStore

open OrderedDict

/-! ## Scores and days -/

/-- `SCORE_STRIDE`. -/
def scoreStride : ℚ := 1000000

/-- `HOT_SCORE_BASE`. -/
def hotScoreBase : ℚ := 0

/-- `date.max.toordinal()`; a date is its ordinal here. -/
def maxOrdinal : ℤ := 3652059

/-- `date.fromordinal`; `none` when it raises. -/
def fromOrdinal (ordinal : ℤ) : Option ℤ :=
  if 1 ≤ ordinal ∧ ordinal ≤ maxOrdinal then some ordinal else none

/-- `_tie_break_from_identity`; `digest` is the number in the first four bytes of the SHA-1 digest. -/
def tieBreakFromIdentity (digest : String → ℕ) (ident : String) : ℕ := digest ident % 1000000

/-- `encode_ingest_score`. -/
def encodeIngestScore (digest : String → ℕ) (band : Band) (day today : ℤ) (ident : String) : ℚ :=
  let tie := (tieBreakFromIdentity digest ident : ℚ)
  match band with
  | .hot => max hotScoreBase (hotScoreBase + ((today - day : ℤ) : ℚ) * scoreStride + tie)
  | .catchup => catchupScoreBase + (day : ℚ) * scoreStride + tie

/-- `decode_catchup_calendar_day`. -/
def decodeCatchupCalendarDay (score : ℚ) : Option ℤ :=
  if decodeIngestBand score ≠ .catchup then none
  else fromOrdinal ⌊(score - catchupScoreBase) / scoreStride⌋

theorem scoreStride_pos : 0 < scoreStride := by
  unfold scoreStride
  norm_num

theorem leaseConflictScorePenalty_eq : leaseConflictScorePenalty = scoreStride := rfl

theorem decodeIngestBand_eq_hot {score : ℚ} : decodeIngestBand score = .hot ↔ score < catchupScoreBase := by
  unfold decodeIngestBand
  split_ifs with h
  · exact iff_of_true rfl h
  · exact iff_of_false (fun heq => nomatch heq) h

theorem decodeIngestBand_eq_catchup {score : ℚ} :
    decodeIngestBand score = .catchup ↔ catchupScoreBase ≤ score := by
  unfold decodeIngestBand
  split_ifs with h
  · exact iff_of_false (fun heq => nomatch heq) (not_le.mpr h)
  · exact iff_of_true rfl (not_lt.mp h)

/-- A hot score has no calendar day. -/
theorem decodeCatchupCalendarDay_of_hot {score : ℚ} (h : decodeIngestBand score = .hot) :
    decodeCatchupCalendarDay score = none := by
  unfold decodeCatchupCalendarDay
  rw [h]
  exact if_pos (fun heq => nomatch heq)

theorem decodeCatchupCalendarDay_of_catchup {score : ℚ} (h : decodeIngestBand score = .catchup) :
    decodeCatchupCalendarDay score = fromOrdinal ⌊(score - catchupScoreBase) / scoreStride⌋ :=
  if_neg (not_not.mpr h)

theorem fromOrdinal_eq_none {ordinal : ℤ} : fromOrdinal ordinal = none ↔ ordinal < 1 ∨ maxOrdinal < ordinal := by
  unfold fromOrdinal
  split_ifs with h
  · exact iff_of_false (fun heq => nomatch heq) (by omega)
  · exact iff_of_true rfl (by omega)

/-- Two ordinals that follow one another are dates of their own, until the last date. -/
theorem fromOrdinal_eq_succ_iff {ordinal : ℤ} (h : 0 ≤ ordinal) :
    fromOrdinal ordinal = fromOrdinal (ordinal + 1) ↔ maxOrdinal < ordinal := by
  unfold fromOrdinal
  split_ifs with hdate hnext
  · rw [Option.some.injEq]
    omega
  · refine iff_of_false (fun heq => nomatch heq) ?_
    omega
  · refine iff_of_false (fun heq => nomatch heq) ?_
    omega
  · refine iff_of_true rfl ?_
    unfold maxOrdinal at *
    omega

theorem tieBreak_lt (digest : String → ℕ) (ident : String) :
    (tieBreakFromIdentity digest ident : ℚ) < scoreStride := by
  have hlt : tieBreakFromIdentity digest ident < 1000000 := Nat.mod_lt _ (by norm_num)
  have hcast : (tieBreakFromIdentity digest ident : ℚ) < ((1000000 : ℕ) : ℚ) := Nat.cast_lt.mpr hlt
  exact hcast.trans_eq rfl

/-- **The day of a catch-up score** comes back, and moves by one with every penalty. -/
theorem decodeCatchupCalendarDay_encode (digest : String → ℕ) {day : ℤ} (hday : 0 ≤ day) (today : ℤ)
    (ident : String) (n : ℕ) :
    decodeCatchupCalendarDay
        (encodeIngestScore digest .catchup day today ident + n * leaseConflictScorePenalty) =
      fromOrdinal (day + n) := by
  have htie := tieBreak_lt digest ident
  have htie' : (0 : ℚ) ≤ tieBreakFromIdentity digest ident := Nat.cast_nonneg _
  have hpos := scoreStride_pos
  have hstart : (0 : ℚ) ≤ (day : ℚ) * scoreStride := mul_nonneg (Int.cast_nonneg hday) hpos.le
  have hpenalty : (0 : ℚ) ≤ n * scoreStride := mul_nonneg (Nat.cast_nonneg n) hpos.le
  have hband : decodeIngestBand
      (encodeIngestScore digest .catchup day today ident + n * leaseConflictScorePenalty) = .catchup := by
    rw [decodeIngestBand_eq_catchup, leaseConflictScorePenalty_eq]
    show _ ≤ catchupScoreBase + (day : ℚ) * scoreStride + tieBreakFromIdentity digest ident + _
    linarith
  rw [decodeCatchupCalendarDay_of_catchup hband]
  congr 1
  rw [Int.floor_eq_iff, le_div_iff₀ hpos, div_lt_iff₀ hpos, leaseConflictScorePenalty_eq]
  show _ ≤ catchupScoreBase + (day : ℚ) * scoreStride + tieBreakFromIdentity digest ident + _ - _ ∧ _
  push_cast
  constructor
  · linarith
  · show catchupScoreBase + (day : ℚ) * scoreStride + tieBreakFromIdentity digest ident + _ - _ < _
    linarith

/-- The scores of dates are in the bands that they are encoded for. -/
theorem decodeIngestBand_encode (digest : String → ℕ) (band : Band) {day today : ℤ} (hday : 0 ≤ day)
    (htoday : today ≤ maxOrdinal) (ident : String) :
    decodeIngestBand (encodeIngestScore digest band day today ident) = band := by
  have htie := tieBreak_lt digest ident
  cases band with
  | hot =>
      have hdays : ((today - day : ℤ) : ℚ) ≤ (maxOrdinal : ℚ) := Int.cast_le.mpr (by omega)
      rw [decodeIngestBand_eq_hot]
      show max hotScoreBase (hotScoreBase + ((today - day : ℤ) : ℚ) * scoreStride + _) < _
      unfold hotScoreBase catchupScoreBase maxOrdinal scoreStride at *
      refine max_lt (by norm_num) ?_
      push_cast at hdays ⊢
      linarith
  | catchup =>
      have hstart : (0 : ℚ) ≤ (day : ℚ) * scoreStride := mul_nonneg (Int.cast_nonneg hday) scoreStride_pos.le
      have htie' : (0 : ℚ) ≤ tieBreakFromIdentity digest ident := Nat.cast_nonneg _
      rw [decodeIngestBand_eq_catchup]
      show _ ≤ catchupScoreBase + (day : ℚ) * scoreStride + _
      linarith

/-- The scores queue a job in the same band and for the same day. -/
def SamePlace (v w : ℚ) : Prop :=
  decodeIngestBand v = decodeIngestBand w ∧ decodeCatchupCalendarDay v = decodeCatchupCalendarDay w

theorem SamePlace.refl (v : ℚ) : SamePlace v v :=
  ⟨rfl, rfl⟩

theorem SamePlace.symm {v w : ℚ} (h : SamePlace v w) : SamePlace w v :=
  ⟨h.1.symm, h.2.symm⟩

theorem SamePlace.trans {u v w : ℚ} (h : SamePlace u v) (h' : SamePlace v w) : SamePlace u w :=
  ⟨h.1.trans h'.1, h.2.trans h'.2⟩

/-- The start of the catch-up band is the place of the catch-up scores without a day. -/
theorem samePlace_base_iff {c : ℚ} :
    SamePlace c catchupScoreBase ↔ decodeIngestBand c = .catchup ∧ decodeCatchupCalendarDay c = none := by
  have hband : decodeIngestBand catchupScoreBase = .catchup := decodeIngestBand_eq_catchup.mpr le_rfl
  have hday : decodeCatchupCalendarDay catchupScoreBase = none := by
    rw [decodeCatchupCalendarDay_of_catchup hband, fromOrdinal_eq_none, sub_self, zero_div, Int.floor_zero]
    exact Or.inl zero_lt_one
  unfold SamePlace
  rw [hband, hday]

/-- **A penalty keeps the place** of a hot score a stride away from the catch-up band, and of a score
beyond the last date. -/
theorem samePlace_penalty_iff {c : ℚ} :
    SamePlace c (c + leaseConflictScorePenalty) ↔
      c + leaseConflictScorePenalty < catchupScoreBase ∨
        catchupScoreBase + (maxOrdinal + 1) * scoreStride ≤ c := by
  have hpos := scoreStride_pos
  have hmax : (0 : ℚ) ≤ (maxOrdinal + 1) * scoreStride := by
    unfold maxOrdinal scoreStride
    norm_num
  rw [leaseConflictScorePenalty_eq]
  rcases lt_or_ge c catchupScoreBase with hhot | hcatchup
  · have hband : decodeIngestBand c = .hot := decodeIngestBand_eq_hot.mpr hhot
    constructor
    · rintro ⟨hsame, -⟩
      exact Or.inl (decodeIngestBand_eq_hot.mp (hsame.symm.trans hband))
    · rintro (hstill | hlate)
      · have hband' : decodeIngestBand (c + scoreStride) = .hot := decodeIngestBand_eq_hot.mpr hstill
        exact ⟨hband.trans hband'.symm, by
          rw [decodeCatchupCalendarDay_of_hot hband, decodeCatchupCalendarDay_of_hot hband']⟩
      · exact absurd hhot (by linarith)
  · have hband : decodeIngestBand c = .catchup := decodeIngestBand_eq_catchup.mpr hcatchup
    have hband' : decodeIngestBand (c + scoreStride) = .catchup :=
      decodeIngestBand_eq_catchup.mpr (by linarith)
    have hnext : ⌊(c + scoreStride - catchupScoreBase) / scoreStride⌋ =
        ⌊(c - catchupScoreBase) / scoreStride⌋ + 1 := by
      rw [add_sub_right_comm, add_div, div_self hpos.ne', Int.floor_add_one]
    have hfirst : 0 ≤ ⌊(c - catchupScoreBase) / scoreStride⌋ :=
      Int.floor_nonneg.mpr (div_nonneg (sub_nonneg.mpr hcatchup) hpos.le)
    have hlate : catchupScoreBase + (maxOrdinal + 1) * scoreStride ≤ c ↔
        maxOrdinal < ⌊(c - catchupScoreBase) / scoreStride⌋ := by
      rw [← Int.add_one_le_iff, Int.le_floor, le_div_iff₀ hpos, le_sub_iff_add_le']
      push_cast
      exact Iff.rfl
    have hsame : SamePlace c (c + scoreStride) ↔
        fromOrdinal ⌊(c - catchupScoreBase) / scoreStride⌋ =
          fromOrdinal (⌊(c - catchupScoreBase) / scoreStride⌋ + 1) := by
      unfold SamePlace
      rw [hband, hband', decodeCatchupCalendarDay_of_catchup hband, decodeCatchupCalendarDay_of_catchup hband',
        hnext]
      exact and_iff_right rfl
    have hnot : ¬ c + scoreStride < catchupScoreBase := by
      linarith
    rw [hsame, hlate, or_iff_right hnot]
    exact fromOrdinal_eq_succ_iff hfirst

/-- **A penalty moves every catch-up job of a date**, to the next day. -/
theorem not_samePlace_penalty_encode (digest : String → ℕ) {day : ℤ} (hday : 1 ≤ day) (hmax : day ≤ maxOrdinal)
    (today : ℤ) (ident : String) :
    ¬ SamePlace (encodeIngestScore digest .catchup day today ident)
      (encodeIngestScore digest .catchup day today ident + leaseConflictScorePenalty) := by
  rintro ⟨-, hsame⟩
  have hfirst := decodeCatchupCalendarDay_encode digest (by omega : 0 ≤ day) today ident 0
  have hnext := decodeCatchupCalendarDay_encode digest (by omega : 0 ≤ day) today ident 1
  rw [Nat.cast_zero, zero_mul, add_zero, Nat.cast_zero, add_zero] at hfirst
  rw [Nat.cast_one, one_mul, Nat.cast_one] at hnext
  rw [hfirst, hnext] at hsame
  have hlate := (fromOrdinal_eq_succ_iff (by omega)).mp hsame
  omega

/-! ## What an operation brings back -/

/-- An ingest job that comes back, with its entry in flight and the score that it is queued with. -/
structure Recovery where
  ident : String
  entry : Inflight
  score : ℚ

/-- The job comes back when this owner holds it. -/
def givenBack (s : Store) (ident owner : String) (score : ℚ) : List Recovery :=
  ((ownedEntry s .ingest ident owner).map fun entry => ⟨ident, entry, score⟩).toList

/-- The expired entries, `want` of them at most. -/
def reaped (cutoff : ℚ) (want : ℕ) (items : List (String × Inflight)) : List Recovery :=
  ((items.filter fun item => item.2.deadline ≤ cutoff).take want).map fun item =>
    ⟨item.1, item.2, item.2.score.getD catchupScoreBase + leaseConflictScorePenalty⟩

/-- What the lease of a job brings back. -/
def stolenOf (s : Store) (here : Local) : (Kind × String) × String → List Recovery
  | ((.ingest, ident), ownerToken) =>
      if ownerIsDead ownerToken here then givenBack s ident ownerToken catchupScoreBase else []
  | ((.list _, _), _) => []

/-- What an entry of this owner brings back. -/
def orphanOf (s : Store) (known : List String) (owner : String) (item : String × Inflight) : List Recovery :=
  if item.1 ∈ known ∨ item.2.owner ≠ owner then []
  else givenBack s item.1 item.2.owner (item.2.score.getD catchupScoreBase)

/-- The ingest jobs that an operation brings back. -/
def recoveries (s : Store) : Op → List Recovery
  | .requeue .ingest ident owner score => givenBack s ident owner (score.getD catchupScoreBase)
  | .reapExpiredInflight .ingest now limit =>
      reaped (now - inflightReapGraceFloor) (max 1 limit).toNat (s.inflight .ingest).entries
  | .stealDeadOwnerLeases here => s.leases.entries.flatMap (stolenOf s here)
  | .stealJobLeaseIfOwnerDead .ingest ident here =>
      (s.leases.get (.ingest, ident)).toList.flatMap fun ownerToken =>
        stolenOf s here ((.ingest, ident), ownerToken)
  | .reconcileThisOwnerOrphanLeases .ingest known owner =>
      (s.inflight .ingest).entries.flatMap (orphanOf s known owner)
  | _ => []

/-- **The jobs came back**, and the other ingest jobs are where they were. -/
structure Recovers (s s' : Store) (rs : List Recovery) : Prop where
  held : ∀ r ∈ rs, (s.inflight .ingest).get r.ident = some r.entry
  back : ∀ r ∈ rs, s'.ingest.get r.ident = some r.score ∧ (s'.inflight .ingest).get r.ident = none
  rest : ∀ i, (∀ r ∈ rs, r.ident ≠ i) →
    s'.ingest.get i = s.ingest.get i ∧ (s'.inflight .ingest).get i = (s.inflight .ingest).get i

/-- The operation is about no ingest job. -/
theorem recovers_nil {s s' : Store} (hingest : s'.ingest = s.ingest)
    (hinflight : s'.inflight .ingest = s.inflight .ingest) : Recovers s s' [] := by
  refine ⟨fun r hr => (nomatch hr), fun r hr => (nomatch hr), fun i _ => ?_⟩
  rw [hingest, hinflight]
  exact ⟨rfl, rfl⟩

theorem Recovers.refl (s : Store) : Recovers s s [] :=
  recovers_nil rfl rfl

/-- **Jobs that come back one after another.** -/
theorem Recovers.append {s t u : Store} {rs rs' : List Recovery} (h : Recovers s t rs) (h' : Recovers t u rs')
    (hapart : ∀ r ∈ rs, ∀ r' ∈ rs', r.ident ≠ r'.ident) : Recovers s u (rs ++ rs') := by
  refine ⟨?_, ?_, ?_⟩
  · intro r hr
    rcases List.mem_append.mp hr with hr | hr
    · exact h.held r hr
    · rw [← (h.rest r.ident fun r₀ hr₀ => hapart r₀ hr₀ r hr).2]
      exact h'.held r hr
  · intro r hr
    rcases List.mem_append.mp hr with hr | hr
    · obtain ⟨hingest, hinflight⟩ := h'.rest r.ident fun r' hr' => (hapart r hr r' hr').symm
      rw [hingest, hinflight]
      exact h.back r hr
    · exact h'.back r hr
  · intro i hi
    obtain ⟨hingest, hinflight⟩ := h.rest i fun r hr => hi r (List.mem_append_left rs' hr)
    obtain ⟨hingest', hinflight'⟩ := h'.rest i fun r hr => hi r (List.mem_append_right rs hr)
    exact ⟨hingest'.trans hingest, hinflight'.trans hinflight⟩

theorem ingestSet_ingest (s : Store) (ident : String) (score : ℚ) :
    (ingestSet s ident score).ingest = s.ingest.set ident score := by
  obtain ⟨heapHot, heapCatchup, heq⟩ := ingestSet_spec s ident score
  rw [heq]
  rfl

theorem ingestSet_inflight (s : Store) (ident : String) (score : ℚ) :
    (ingestSet s ident score).inflight = s.inflight := by
  obtain ⟨heapHot, heapCatchup, heq⟩ := ingestSet_spec s ident score
  rw [heq]
  rfl

/-- One job comes back. -/
theorem recovers_putBack {s : Store} {ident : String} {entry : Inflight}
    (hentry : (s.inflight .ingest).get ident = some entry) (score : ℚ) :
    Recovers s (putBack (dropInflight s .ingest ident) .ingest ident score) [⟨ident, entry, score⟩] := by
  have hingest : ∀ i, (putBack (dropInflight s .ingest ident) .ingest ident score).ingest.get i =
      if i = ident then some score else s.ingest.get i := by
    intro i
    show (ingestSet (dropInflight s .ingest ident) ident score).ingest.get i = _
    rw [ingestSet_ingest, get_set]
    rfl
  have hinflight : ∀ i, ((putBack (dropInflight s .ingest ident) .ingest ident score).inflight .ingest).get i =
      if i = ident then none else (s.inflight .ingest).get i := by
    intro i
    show ((ingestSet (dropInflight s .ingest ident) ident score).inflight .ingest).get i = _
    rw [ingestSet_inflight, dropInflight_inflight, get_pop]
  refine ⟨?_, ?_, ?_⟩
  · intro r hr
    obtain rfl := List.mem_singleton.mp hr
    exact hentry
  · intro r hr
    obtain rfl := List.mem_singleton.mp hr
    rw [hingest, hinflight, if_pos rfl, if_pos rfl]
    exact ⟨rfl, rfl⟩
  · intro i hi
    have hne : i ≠ ident := (hi _ (List.mem_singleton_self _)).symm
    rw [hingest, hinflight, if_neg hne, if_neg hne]
    exact ⟨rfl, rfl⟩

/-! ## The jobs of the LIST kinds -/

theorem putBack_list_ingest (s : Store) (k : ListKind) (ident : String) (score : ℚ) :
    Recovers s (putBack (dropInflight s (.list k) ident) (.list k) ident score) [] :=
  recovers_nil rfl rfl

theorem requeue_list (s : Store) (k : ListKind) (ident owner : String) (score : Option ℚ) :
    Recovers s (requeue s (.list k) ident owner score).2 [] := by
  unfold requeue
  split
  · exact Recovers.refl s
  · exact putBack_list_ingest s k ident (score.getD catchupScoreBase)

theorem reapLoop_list (k : ListKind) (cutoff : ℚ) (want : ℕ) (items : List (String × Inflight))
    (out : List String) (s : Store) : Recovers s (reapLoop (.list k) cutoff want items out s).2 [] := by
  refine reapLoop_rule (P := fun t => Recovers s t []) cutoff want items ?_ out (Recovers.refl s)
  intro item _ t ht
  exact ht.append (putBack_list_ingest t k item.1 _) fun r hr => nomatch hr

theorem reconcileLoop_list (k : ListKind) (known : List String) (owner : String)
    (items : List (String × Inflight)) (recovered : ℕ) (s : Store) :
    Recovers s (reconcileLoop (.list k) known owner items recovered s).2 [] := by
  refine reconcileLoop_rule (P := fun t => Recovers s t []) known owner items ?_ recovered (Recovers.refl s)
  intro item _ t ht
  exact ht.append (requeue_list t k item.1 _ _) fun r hr => nomatch hr

/-! ## The ingest jobs -/

theorem mem_givenBack {s : Store} {ident owner : String} {score : ℚ} {r : Recovery} :
    r ∈ givenBack s ident owner score ↔
      ∃ entry, ownedEntry s .ingest ident owner = some entry ∧ r = ⟨ident, entry, score⟩ := by
  unfold givenBack
  rw [Option.mem_toList, Option.map_eq_some_iff]
  exact exists_congr fun entry => and_congr_right fun _ => eq_comm

/-- A job that is where it was is given back as before. -/
theorem givenBack_congr {s t : Store} {ident : String}
    (h : (t.inflight .ingest).get ident = (s.inflight .ingest).get ident) (owner : String) (score : ℚ) :
    givenBack t ident owner score = givenBack s ident owner score := by
  unfold givenBack ownedEntry
  rw [h]

theorem requeue_ingest (s : Store) (ident owner : String) (score : Option ℚ) :
    Recovers s (requeue s .ingest ident owner score).2
      (givenBack s ident owner (score.getD catchupScoreBase)) := by
  unfold requeue givenBack
  cases hentry : ownedEntry s .ingest ident owner with
  | none => exact Recovers.refl s
  | some entry => exact recovers_putBack (isSome_of_ownedEntry hentry) _

/-- Rounds over pairs with their jobs apart: what a pair brings back does not depend on the others. -/
theorem Recovers.round {α : Type} (f : Store → α → List Recovery) {s t u : Store} {rs : List Recovery}
    {items : List α} (h : Recovers s t rs) (hrest : Recovers t u (items.flatMap (f t)))
    (hcongr : ∀ item ∈ items, f t item = f s item)
    (hapart : ∀ item ∈ items, ∀ r' ∈ f s item, ∀ r ∈ rs, r.ident ≠ r'.ident) :
    Recovers s u (rs ++ items.flatMap (f s)) := by
  have hsame : items.flatMap (f t) = items.flatMap (f s) := List.flatMap_congr hcongr
  rw [hsame] at hrest
  refine h.append hrest fun r hr r' hr' => ?_
  obtain ⟨item, hitem, hr'⟩ := List.mem_flatMap.mp hr'
  exact hapart item hitem r' hr' r hr

theorem mem_stolenOf {s : Store} {here : Local} {lease : (Kind × String) × String} {r : Recovery} :
    r ∈ stolenOf s here lease ↔
      lease.1 = (.ingest, r.ident) ∧ ownerIsDead lease.2 here = true ∧
        ownedEntry s .ingest r.ident lease.2 = some r.entry ∧ r.score = catchupScoreBase := by
  obtain ⟨⟨kind, ident⟩, ownerToken⟩ := lease
  cases kind with
  | list k => exact iff_of_false List.not_mem_nil fun h => nomatch h.1
  | ingest =>
      rw [stolenOf]
      split_ifs with hdead
      · rw [mem_givenBack]
        constructor
        · rintro ⟨entry, hentry, rfl⟩
          exact ⟨rfl, hdead, hentry, rfl⟩
        · rintro ⟨hkey, -, hentry, hscore⟩
          obtain rfl : ident = r.ident := (Prod.mk.inj hkey).2
          exact ⟨r.entry, hentry, by rw [← hscore]⟩
      · exact iff_of_false List.not_mem_nil fun h => hdead h.2.1

theorem stolenOf_congr {s t : Store} {here : Local} {lease : (Kind × String) × String}
    (h : ∀ i, lease.1 = (.ingest, i) → (t.inflight .ingest).get i = (s.inflight .ingest).get i) :
    stolenOf t here lease = stolenOf s here lease := by
  obtain ⟨⟨kind, ident⟩, ownerToken⟩ := lease
  cases kind with
  | list k => rfl
  | ingest => rw [stolenOf, stolenOf, givenBack_congr (h ident rfl)]

/-- The claim of a dead owner comes back. -/
theorem requeue_stolen (s : Store) (here : Local) (kind : Kind) (ident ownerToken : String)
    (hdead : ownerIsDead ownerToken here = true) :
    Recovers s (requeue s kind ident ownerToken none).2 (stolenOf s here ((kind, ident), ownerToken)) := by
  cases kind with
  | list k => exact requeue_list s k ident ownerToken none
  | ingest =>
      rw [stolenOf, if_pos hdead]
      exact requeue_ingest s ident ownerToken none

/-- **The steal of all dead owners' leases.** -/
theorem stealLoop_recovers (here : Local) (items : List ((Kind × String) × String)) :
    ∀ (stolen : ℕ) (s : Store), (items.map Prod.fst).Nodup →
      Recovers s (stealLoop here items stolen s).2 (items.flatMap (stolenOf s here)) := by
  induction items with
  | nil => exact fun _ s _ => Recovers.refl s
  | cons item items ih =>
      intro stolen s hnodup
      obtain ⟨⟨kind, ident⟩, ownerToken⟩ := item
      obtain ⟨hnew, hnodup⟩ := List.nodup_cons.mp hnodup
      rw [stealLoop, List.flatMap_cons]
      split_ifs with halive
      · have hnone : stolenOf s here ((kind, ident), ownerToken) = [] := by
          rw [List.eq_nil_iff_forall_not_mem]
          intro r hr
          rw [(mem_stolenOf.mp hr).2.1] at halive
          cases halive
        rw [hnone]
        exact ih stolen s hnodup
      · have hhead := requeue_stolen s here kind ident ownerToken (Bool.not_eq_false _ ▸ halive)
        -- no other lease is of this job
        have hkey : ∀ lease ∈ items, ∀ r ∈ stolenOf s here ((kind, ident), ownerToken),
            lease.1 ≠ (.ingest, r.ident) := by
          intro lease hlease r hr hsame
          have hmem : lease.1 ∈ items.map Prod.fst := List.mem_map_of_mem hlease
          rw [hsame, ← (mem_stolenOf.mp hr).1] at hmem
          exact hnew hmem
        refine hhead.round (fun s lease => stolenOf s here lease) (ih _ _ hnodup) ?_ ?_
        · intro lease hlease
          refine stolenOf_congr fun i hi => (hhead.rest i fun r hr heq => ?_).2
          exact hkey lease hlease r hr (heq ▸ hi)
        · intro lease hlease r' hr' r hr heq
          exact hkey lease hlease r hr (heq ▸ (mem_stolenOf.mp hr').1)

theorem mem_orphanOf {s : Store} {known : List String} {owner : String} {item : String × Inflight}
    {r : Recovery} (hr : r ∈ orphanOf s known owner item) :
    r.ident = item.1 ∧ (s.inflight .ingest).get item.1 = some r.entry ∧
      r.score = item.2.score.getD catchupScoreBase := by
  unfold orphanOf at hr
  split_ifs at hr
  · cases hr
  · obtain ⟨entry, hentry, rfl⟩ := mem_givenBack.mp hr
    exact ⟨rfl, isSome_of_ownedEntry hentry, rfl⟩

/-- **The reconciliation of the orphans of an owner.** -/
theorem reconcileLoop_recovers (known : List String) (owner : String) (items : List (String × Inflight)) :
    ∀ (recovered : ℕ) (s : Store), (items.map Prod.fst).Nodup →
      Recovers s (reconcileLoop .ingest known owner items recovered s).2
        (items.flatMap (orphanOf s known owner)) := by
  induction items with
  | nil => exact fun _ s _ => Recovers.refl s
  | cons item items ih =>
      intro recovered s hnodup
      obtain ⟨ident, entry⟩ := item
      obtain ⟨hnew, hnodup⟩ := List.nodup_cons.mp hnodup
      rw [reconcileLoop, List.flatMap_cons]
      split_ifs with hskip
      · have hnone : orphanOf s known owner (ident, entry) = [] := if_pos hskip
        rw [hnone]
        exact ih recovered s hnodup
      · have horphan : orphanOf s known owner (ident, entry) =
            givenBack s ident entry.owner (entry.score.getD catchupScoreBase) := if_neg hskip
        have hhead := requeue_ingest s ident entry.owner entry.score
        rw [← horphan] at hhead
        have hkey : ∀ other ∈ items, ∀ r ∈ orphanOf s known owner (ident, entry), r.ident ≠ other.1 := by
          intro other hother r hr hsame
          have hmem : other.1 ∈ items.map Prod.fst := List.mem_map_of_mem hother
          rw [← hsame, (mem_orphanOf hr).1] at hmem
          exact hnew hmem
        refine hhead.round (fun s item => orphanOf s known owner item) (ih _ _ hnodup) ?_ ?_
        · intro other hother
          unfold orphanOf
          rw [givenBack_congr (hhead.rest other.1 fun r hr => hkey other hother r hr).2]
        · intro other hother r' hr' r hr heq
          exact hkey other hother r hr (heq.trans (mem_orphanOf hr').1)

theorem mem_reaped {cutoff : ℚ} {want : ℕ} {items : List (String × Inflight)} {r : Recovery}
    (hr : r ∈ reaped cutoff want items) :
    (r.ident, r.entry) ∈ items ∧
      r.score = r.entry.score.getD catchupScoreBase + leaseConflictScorePenalty := by
  obtain ⟨item, hitem, rfl⟩ := List.mem_map.mp hr
  exact ⟨(List.mem_filter.mp (List.mem_of_mem_take hitem)).1, rfl⟩

theorem reaped_cons_of_lt {cutoff : ℚ} {item : String × Inflight} (h : cutoff < item.2.deadline) (want : ℕ)
    (items : List (String × Inflight)) : reaped cutoff want (item :: items) = reaped cutoff want items := by
  unfold reaped
  rw [List.filter_cons_of_neg (by simpa using h)]

theorem reaped_cons_of_le {cutoff : ℚ} {item : String × Inflight} (h : item.2.deadline ≤ cutoff) (want : ℕ)
    (items : List (String × Inflight)) : reaped cutoff (want + 1) (item :: items) =
      [⟨item.1, item.2, item.2.score.getD catchupScoreBase + leaseConflictScorePenalty⟩] ++
        reaped cutoff want items := by
  unfold reaped
  rw [List.filter_cons_of_pos (by simpa using h), List.take_succ_cons, List.map_cons]
  rfl

/-- **The reap of expired claims.** -/
theorem reapLoop_recovers (cutoff : ℚ) (want : ℕ) (items : List (String × Inflight)) :
    ∀ (out : List String) (s : Store), (items.map Prod.fst).Nodup →
      (∀ item ∈ items, (s.inflight .ingest).get item.1 = some item.2) →
      Recovers s (reapLoop .ingest cutoff want items out s).2 (reaped cutoff (want - out.length) items) := by
  induction items with
  | nil =>
      intro out s _ _
      unfold reaped
      rw [List.filter_nil, List.take_nil]
      exact Recovers.refl s
  | cons item items ih =>
      intro out s hnodup hheld
      obtain ⟨ident, entry⟩ := item
      obtain ⟨hnew, hnodup⟩ := List.nodup_cons.mp hnodup
      have hrest := fun other hother => hheld other (List.mem_cons_of_mem (ident, entry) hother)
      rw [reapLoop]
      split_ifs with hfull hlate
      · rw [Nat.sub_eq_zero_of_le hfull]
        exact Recovers.refl s
      · rw [reaped_cons_of_lt hlate]
        exact ih out s hnodup hrest
      · have hhead := recovers_putBack (hheld (ident, entry) List.mem_cons_self)
          (entry.score.getD catchupScoreBase + leaseConflictScorePenalty)
        have hleft : want - out.length = want - (out ++ [ident]).length + 1 := by
          rw [List.length_append, List.length_singleton]
          omega
        have hkey : ∀ other ∈ items, ident ≠ other.1 := by
          intro other hother hsame
          have hmem : other.1 ∈ items.map Prod.fst := List.mem_map_of_mem hother
          exact hnew (hsame ▸ hmem)
        rw [hleft, reaped_cons_of_le (not_lt.mp hlate)]
        refine hhead.append (ih _ _ hnodup fun other hother => ?_) ?_
        · have hsame := (hhead.rest other.1 fun r hr => ?_).2
          · rw [hsame]
            exact hrest other hother
          · rw [List.mem_singleton.mp hr]
            exact hkey other hother
        · intro r hr r' hr'
          rw [List.mem_singleton.mp hr]
          exact hkey _ (mem_reaped hr').1

/-- **The steal of one lease.** -/
theorem stealJobLeaseIfOwnerDead_recovers (s : Store) (kind : Kind) (ident : String) (here : Local) :
    Recovers s (stealJobLeaseIfOwnerDead s kind ident here).2
      ((s.leases.get (kind, ident)).toList.flatMap fun ownerToken =>
        stolenOf s here ((kind, ident), ownerToken)) := by
  unfold stealJobLeaseIfOwnerDead
  cases s.leases.get (kind, ident) with
  | none => exact Recovers.refl s
  | some ownerToken =>
      rw [Option.toList_some, List.flatMap_singleton]
      dsimp only
      by_cases halive : ownerToken = "" ∨ ownerIsDead ownerToken here = false
      · have hnone : stolenOf s here ((kind, ident), ownerToken) = [] := by
          rw [List.eq_nil_iff_forall_not_mem]
          intro r hr
          obtain ⟨-, hdead, hentry, -⟩ := mem_stolenOf.mp hr
          rcases halive with hempty | halive
          · unfold ownedEntry at hentry
            rw [if_pos hempty] at hentry
            cases hentry
          · rw [show ownerIsDead ownerToken here = true from hdead] at halive
            cases halive
        rw [if_pos halive, hnone]
        exact Recovers.refl s
      · have hdead : ownerIsDead ownerToken here = true := by
          simpa using fun h => halive (Or.inr h)
        have hrequeue := requeue_stolen s here kind ident ownerToken hdead
        rw [if_neg halive]
        split_ifs
        · exact hrequeue
        · exact hrequeue
        · -- the lease that is dropped takes no part
          exact ⟨hrequeue.held, hrequeue.back, hrequeue.rest⟩

/-- The operations that bring jobs back. -/
def Op.isRecovery : Op → Bool
  | .requeue .. => true
  | .reapExpiredInflight .. => true
  | .stealDeadOwnerLeases .. => true
  | .stealJobLeaseIfOwnerDead .. => true
  | .reconcileThisOwnerOrphanLeases .. => true
  | _ => false

/-- **What a recovery does to the ingest jobs.** -/
theorem recovers_step {s s' : Store} {op : Op} (hop : op.isRecovery = true) (hstep : step s op = some s') :
    Recovers s s' (recoveries s op) := by
  cases op with
  | requeue kind ident owner score =>
      obtain rfl := Option.some.inj hstep
      cases kind with
      | ingest => exact requeue_ingest s ident owner score
      | list k => exact requeue_list s k ident owner score
  | reapExpiredInflight kind now limit =>
      obtain rfl := Option.some.inj hstep
      cases kind with
      | ingest =>
          exact reapLoop_recovers _ _ _ [] s (s.inflight .ingest).nodup fun _ hitem => get_of_mem hitem
      | list k => exact reapLoop_list k _ _ _ [] s
  | stealDeadOwnerLeases here =>
      obtain rfl := Option.some.inj hstep
      exact stealLoop_recovers here s.leases.entries 0 s s.leases.nodup
  | stealJobLeaseIfOwnerDead kind ident here =>
      obtain rfl := Option.some.inj hstep
      have h := stealJobLeaseIfOwnerDead_recovers s kind ident here
      cases kind with
      | ingest => exact h
      | list k =>
          have hnone : ((s.leases.get (.list k, ident)).toList.flatMap fun ownerToken =>
              stolenOf s here ((.list k, ident), ownerToken)) = [] :=
            List.flatMap_eq_nil_iff.mpr fun _ _ => rfl
          rw [hnone] at h
          exact h
  | reconcileThisOwnerOrphanLeases kind known owner =>
      obtain rfl := Option.some.inj hstep
      cases kind with
      | ingest => exact reconcileLoop_recovers known owner _ 0 s (s.inflight .ingest).nodup
      | list k => exact reconcileLoop_list k known owner _ 0 s
  | _ => cases hop

/-! ## The operations that bring nothing back -/

/-- No queued job is in flight. -/
def Apart (s : Store) : Prop :=
  ∀ i, (s.ingest.get i).isSome = true → (s.inflight .ingest).get i = none

theorem Apart.get_eq_none {s : Store} (h : Apart s) {i : String} {entry : Inflight}
    (hentry : (s.inflight .ingest).get i = some entry) : s.ingest.get i = none := by
  by_contra hqueued
  have hfree := h i (Option.isSome_iff_ne_none.mpr hqueued)
  rw [hentry] at hfree
  cases hfree

/-- **No job gets a score**: a queued job had its score, and a job in flight has the score it was queued
with or had in flight. -/
structure Keeps (s s' : Store) : Prop where
  apart : Apart s → Apart s'
  queued : ∀ i v, s'.ingest.get i = some v → s.ingest.get i = some v
  claimed : ∀ i entry, (s'.inflight .ingest).get i = some entry →
    (∃ v, entry.score = some v ∧ s.ingest.get i = some v) ∨
      ∃ old, (s.inflight .ingest).get i = some old ∧ entry.score = old.score

theorem keeps_of_eq {s s' : Store} (hingest : s'.ingest = s.ingest)
    (hinflight : s'.inflight .ingest = s.inflight .ingest) : Keeps s s' := by
  refine ⟨?_, ?_, ?_⟩
  · unfold Apart
    rw [hingest, hinflight]
    exact id
  · rw [hingest]
    exact fun _ _ h => h
  · rw [hinflight]
    exact fun i entry h => Or.inr ⟨entry, h, rfl⟩

theorem Keeps.refl (s : Store) : Keeps s s :=
  keeps_of_eq rfl rfl

theorem Keeps.trans {s t u : Store} (h : Keeps s t) (h' : Keeps t u) : Keeps s u := by
  refine ⟨h'.apart ∘ h.apart, fun i v hv => h.queued i v (h'.queued i v hv), ?_⟩
  intro i entry hentry
  rcases h'.claimed i entry hentry with ⟨v, hscore, hv⟩ | ⟨old, hold, hscore⟩
  · exact Or.inl ⟨v, hscore, h.queued i v hv⟩
  · rw [hscore]
    exact h.claimed i old hold

/-- A claimed job keeps its score. -/
theorem keeps_take {s : Store} {ident : String} {live : ℚ} (hlive : s.ingest.get ident = some live)
    (deadline : ℚ) (owner : String) :
    Keeps s (addInflight (ingestPop s ident live) .ingest ident ⟨deadline, owner, some live⟩) := by
  have hingest : ∀ i, (addInflight (ingestPop s ident live) .ingest ident
      ⟨deadline, owner, some live⟩).ingest.get i = if i = ident then none else s.ingest.get i := by
    intro i
    rw [ingestPop_eq]
    exact get_pop s.ingest ident i
  have hinflight : ∀ i, ((addInflight (ingestPop s ident live) .ingest ident
      ⟨deadline, owner, some live⟩).inflight .ingest).get i =
        if i = ident then some ⟨deadline, owner, some live⟩ else (s.inflight .ingest).get i := by
    intro i
    rw [addInflight_inflight, get_set, ingestPop_eq]
  refine ⟨?_, ?_, ?_⟩
  · intro hapart i hi
    rw [hingest] at hi
    split_ifs at hi with hne
    · cases hi
    · rw [hinflight, if_neg hne]
      exact hapart i hi
  · intro i v hv
    rw [hingest] at hv
    split_ifs at hv
    exact hv
  · intro i entry hentry
    rw [hinflight] at hentry
    split_ifs at hentry with hi
    · obtain rfl := Option.some.inj hentry
      exact Or.inl ⟨live, rfl, hi ▸ hlive⟩
    · exact Or.inr ⟨entry, hentry, rfl⟩

theorem keeps_claimIngest {s : Store} {band : Band} {owner : String} {deadline : ℚ} {maxN : ℤ} {fuel : ℕ}
    {r : Except String (List ClaimedJob) × Store} (hr : claimIngest s band owner deadline maxN fuel = some r) :
    Keeps s r.2 := by
  refine claimIngest_rule (Keeps.refl s) ?_ hr
  intro want r' hr'
  refine claimIngestLoop_rule ?_ ?_ fuel want (Keeps.refl s) hr'
  · intro t band' heap ht
    refine ht.trans (keeps_of_eq (setHeap_ingest t band' heap) ?_)
    rw [setHeap_inflight]
  · intro t ident live ht _ hlive
    exact ht.trans (keeps_take hlive deadline owner)

/-- An entry in flight keeps its score. -/
theorem keeps_setEntry {s s' : Store} {kind : Kind} {ident : String} {entry : Inflight}
    (hentry : (s.inflight kind).get ident = some entry) (deadline : ℚ) (owner : String)
    (hingest : s'.ingest = s.ingest)
    (hinflight : s'.inflight =
      Function.update s.inflight kind ((s.inflight kind).set ident ⟨deadline, owner, entry.score⟩)) :
    Keeps s s' := by
  cases kind with
  | list k => exact keeps_of_eq hingest (by rw [hinflight]; rfl)
  | ingest =>
      have hfly : ∀ i, (s'.inflight .ingest).get i =
          if i = ident then some ⟨deadline, owner, entry.score⟩ else (s.inflight .ingest).get i := by
        intro i
        rw [hinflight, Function.update_self, get_set]
      refine ⟨?_, ?_, ?_⟩
      · intro hapart i hi
        rw [hingest] at hi
        have hfree := hapart i hi
        rw [hfly]
        split_ifs with hident
        · rw [hident, hentry] at hfree
          cases hfree
        · exact hfree
      · rw [hingest]
        exact fun _ _ hv => hv
      · intro i new hnew
        rw [hfly] at hnew
        split_ifs at hnew with hident
        · obtain rfl := Option.some.inj hnew
          exact Or.inr ⟨entry, hident ▸ hentry, rfl⟩
        · exact Or.inr ⟨new, hnew, rfl⟩

theorem keeps_ack (s : Store) (kind : Kind) (ident owner : String) : Keeps s (ack s kind ident owner).2 := by
  unfold ack
  split
  · exact Keeps.refl s
  · cases kind with
    | list k => exact keeps_of_eq rfl rfl
    | ingest =>
        have hfly : ∀ i, ((dropInflight s .ingest ident).inflight .ingest).get i =
            if i = ident then none else (s.inflight .ingest).get i := by
          intro i
          rw [dropInflight_inflight, get_pop]
        refine ⟨?_, fun i v hv => hv, ?_⟩
        · intro hapart i hi
          have hfree := hapart i hi
          show ((dropInflight s .ingest ident).inflight .ingest).get i = none
          rw [hfly, hfree, ite_self]
        · intro i entry hentry
          have hentry' : ((dropInflight s .ingest ident).inflight .ingest).get i = some entry := hentry
          rw [hfly] at hentry'
          split_ifs at hentry'
          exact Or.inr ⟨entry, hentry', rfl⟩

theorem keeps_claimListLoop (k : ListKind) (owner : String) (deadline : ℚ) (n : ℕ) (s : Store) :
    Keeps s (claimListLoop k owner deadline n s).2 :=
  claimListLoop_rule (fun _ _ _ ht => ht.trans (keeps_of_eq rfl rfl))
    (fun _ _ ht => ht.trans (keeps_of_eq rfl rfl)) n (Keeps.refl s)

theorem setFields_ingest (s : Store) (kind : Kind) (ident : String) (fields : Fields) :
    (setFields s kind ident fields).ingest = s.ingest := by
  unfold setFields
  dsimp only
  split_ifs
  · rfl
  · rfl

theorem setFields_inflight (s : Store) (kind : Kind) (ident : String) (fields : Fields) :
    (setFields s kind ident fields).inflight = s.inflight := by
  unfold setFields
  dsimp only
  split_ifs
  · rfl
  · rfl

theorem keeps_setFields (s : Store) (kind : Kind) (ident : String) (fields : Fields) :
    Keeps s (setFields s kind ident fields) :=
  keeps_of_eq (setFields_ingest s kind ident fields) (by rw [setFields_inflight])

/-- The operations that give scores. -/
def Op.givesScores : Op → Bool
  | .zaddIngest .. => true
  | .load => true
  | op => op.isRecovery

/-- **The other operations give no score.** -/
theorem keeps_step {s s' : Store} {op : Op} (hop : op.givesScores = false) (hstep : step s op = some s') :
    Keeps s s' := by
  -- what is left touches no row, marks it in flight, or sets fields beside the score
  cases op with
  | claimIngest band owner deadline maxN fuel =>
      obtain ⟨r, hr, rfl⟩ := Option.map_eq_some_iff.mp hstep
      exact keeps_claimIngest hr
  | claimList k owner deadline =>
      obtain rfl := Option.some.inj hstep
      unfold claimList
      split_ifs
      · exact Keeps.refl s
      · exact keeps_claimListLoop k owner deadline _ s
  | enqueueList k ident dedupe cap =>
      obtain rfl := Option.some.inj hstep
      unfold enqueueList
      split_ifs
      · exact Keeps.refl s
      · exact Keeps.refl s
      · exact keeps_of_eq rfl rfl
  | ack kind ident owner =>
      obtain rfl := Option.some.inj hstep
      exact keeps_ack s kind ident owner
  | renewJobLease kind ident owner deadline =>
      obtain rfl := Option.some.inj hstep
      unfold renewJobLease
      split
      · exact Keeps.refl s
      · next entry hentry =>
          exact keeps_setEntry (isSome_of_ownedEntry hentry) deadline entry.owner rfl rfl
  | extendInflightDeadline kind ident deadline =>
      obtain rfl := Option.some.inj hstep
      unfold extendInflightDeadline
      split
      · exact Keeps.refl s
      · next entry hentry => exact keeps_setEntry hentry deadline entry.owner rfl rfl
  | writeJobFingerprint kind ident fingerprint =>
      obtain rfl := Option.some.inj hstep
      unfold writeJobFingerprint
      split_ifs
      · exact Keeps.refl s
      · exact keeps_setFields s kind ident _
  | bumpJobAttempt kind ident =>
      obtain rfl := Option.some.inj hstep
      unfold bumpJobAttempt
      dsimp only
      split
      · exact Keeps.refl s
      · exact keeps_setFields s kind ident _
  | reorderList k orderedIdents =>
      obtain rfl := Option.some.inj hstep
      unfold reorderList
      split_ifs
      · exact keeps_of_eq rfl rfl
      · exact Keeps.refl s
  | persistFlush written =>
      obtain rfl := Option.some.inj hstep
      exact keeps_of_eq rfl rfl
  | _ => cases hop

/-- **What `zadd_ingest` does to the ingest jobs**: a job that is not in flight may get the score. -/
theorem zaddIngest_cases (s : Store) (ident : String) (score : ℚ) (fingerprint : Option String) (cap : ℕ) :
    ((zaddIngest s ident score fingerprint cap).2.inflight = s.inflight) ∧
      ((zaddIngest s ident score fingerprint cap).2.ingest = s.ingest ∨
        ((s.inflight .ingest).get ident = none ∧
          (zaddIngest s ident score fingerprint cap).2.ingest = s.ingest.set ident score)) := by
  refine zaddIngest_rule (P := fun t => t.inflight = s.inflight ∧ (t.ingest = s.ingest ∨
    ((s.inflight .ingest).get ident = none ∧ t.ingest = s.ingest.set ident score)))
    ⟨rfl, Or.inl rfl⟩ ident score fingerprint cap ?_ ?_
  · exact fun hfree => ⟨ingestSet_inflight s ident score, Or.inr ⟨hfree, ingestSet_ingest s ident score⟩⟩
  · intro fields h
    rw [setFields_inflight, setFields_ingest]
    exact h

theorem Apart.zaddIngest {s : Store} (h : Apart s) (ident : String) (score : ℚ) (fingerprint : Option String)
    (cap : ℕ) : Apart (zaddIngest s ident score fingerprint cap).2 := by
  obtain ⟨hinflight, hsame | ⟨hfree, hset⟩⟩ := zaddIngest_cases s ident score fingerprint cap
  · unfold Apart
    rw [hinflight, hsame]
    exact h
  · intro i hi
    rw [hset, get_set] at hi
    rw [hinflight]
    split_ifs at hi with hident
    · rw [hident]
      exact hfree
    · exact h i hi

/-! ## Runs -/

/-- The store, beside the score that each job was first queued with. -/
structure Tracked where
  store : Store
  origin : String → Option ℚ

/-- The store before `load`, beside the document on disk. -/
def Tracked.init (disk : Snapshot) : Tracked := ⟨Store.init disk, fun _ => none⟩

/-- The scores that jobs were first queued with, after an operation that led to this store: `zadd_ingest`
and `load` queue jobs. -/
def originAfter (origin : String → Option ℚ) (s' : Store) : Op → String → Option ℚ
  | .zaddIngest ident _ _ _ => Function.update origin ident ((s'.ingest.get ident).or (origin ident))
  | .load => s'.ingest.get
  | _ => origin

/-- One operation. -/
def Tracked.step (t : Tracked) (op : Op) : Option Tracked :=
  (JobStore.step t.store op).map fun s' => ⟨s', originAfter t.origin s' op⟩

/-- **The job is queued once**, in the band of its claim, and if it is a catch-up job, for the calendar day
that it was first queued with. -/
def BackInPlace (t : Tracked) (s' : Store) (i : String) (entry : Inflight) : Prop :=
  ∃ v o, s'.ingest.entries.filter (fun e => e.1 = i) = [(i, v)] ∧
    entry.score.map decodeIngestBand = some (decodeIngestBand v) ∧ t.origin i = some o ∧
      (decodeIngestBand o = .catchup → decodeCatchupCalendarDay v = decodeCatchupCalendarDay o)

/-- An operation that brings jobs back does so for each job that leaves the jobs in flight. -/
def RecoversInPlace (t : Tracked) (op : Op) (t' : Tracked) : Prop :=
  op.isRecovery = true → ∀ i entry, (t.store.inflight .ingest).get i = some entry →
    (t'.store.inflight .ingest).get i = none → BackInPlace t t'.store i entry

/-- **When an operation moves no job.**  A claim is given back with a score of its band and day (without
a score: that of the start of the catch-up band).  Each claim that is reaped has a hot score with more
than a stride to the catch-up band, or a score beyond the last date.  Each claim of a dead owner that is
stolen has a catch-up score without a day. -/
def RecoveryOk (s : Store) : Op → Prop
  | .requeue .ingest ident owner score =>
      ∀ entry ∈ ownedEntry s .ingest ident owner, ∀ c ∈ entry.score,
        SamePlace c (score.getD catchupScoreBase)
  | .reapExpiredInflight .ingest now limit =>
      ∀ item ∈ ((s.inflight .ingest).entries.filter fun item =>
          item.2.deadline ≤ now - inflightReapGraceFloor).take (max 1 limit).toNat,
        ∀ c ∈ item.2.score, c + leaseConflictScorePenalty < catchupScoreBase ∨
          catchupScoreBase + (maxOrdinal + 1) * scoreStride ≤ c
  | .stealDeadOwnerLeases here =>
      ∀ ident ownerToken, ((.ingest, ident), ownerToken) ∈ s.leases.entries →
        ownerIsDead ownerToken here = true → ∀ entry ∈ ownedEntry s .ingest ident ownerToken,
          ∀ c ∈ entry.score, decodeIngestBand c = .catchup ∧ decodeCatchupCalendarDay c = none
  | .stealJobLeaseIfOwnerDead .ingest ident here =>
      ∀ ownerToken ∈ s.leases.get (.ingest, ident), ownerIsDead ownerToken here = true →
        ∀ entry ∈ ownedEntry s .ingest ident ownerToken, ∀ c ∈ entry.score,
          decodeIngestBand c = .catchup ∧ decodeCatchupCalendarDay c = none
  | _ => True

/-- The jobs that come back are queued in their place. -/
def AllInPlace (rs : List Recovery) : Prop :=
  ∀ r ∈ rs, ∀ c ∈ r.entry.score, SamePlace c r.score

theorem allInPlace_givenBack {s : Store} {ident owner : String} {score : ℚ} :
    AllInPlace (givenBack s ident owner score) ↔
      ∀ entry ∈ ownedEntry s .ingest ident owner, ∀ c ∈ entry.score, SamePlace c score := by
  constructor
  · intro h entry hentry
    exact h ⟨ident, entry, score⟩ (mem_givenBack.mpr ⟨entry, hentry, rfl⟩)
  · intro h r hr
    obtain ⟨entry, hentry, rfl⟩ := mem_givenBack.mp hr
    exact h entry hentry

theorem allInPlace_stolenOf {s : Store} {here : Local} {ident ownerToken : String} :
    AllInPlace (stolenOf s here ((.ingest, ident), ownerToken)) ↔
      (ownerIsDead ownerToken here = true → ∀ entry ∈ ownedEntry s .ingest ident ownerToken,
        ∀ c ∈ entry.score, decodeIngestBand c = .catchup ∧ decodeCatchupCalendarDay c = none) := by
  rw [stolenOf]
  simp only [← samePlace_base_iff]
  split_ifs with hdead
  · rw [allInPlace_givenBack, eq_true hdead]
    exact true_imp_iff.symm
  · exact iff_of_true (fun r hr => nomatch hr) fun h => absurd h hdead

theorem allInPlace_flatMap {α : Type} {items : List α} {f : α → List Recovery} :
    AllInPlace (items.flatMap f) ↔ ∀ item ∈ items, AllInPlace (f item) := by
  unfold AllInPlace
  simp only [List.mem_flatMap]
  constructor
  · exact fun h item hitem r hr => h r ⟨item, hitem, hr⟩
  · rintro h r ⟨item, hitem, hr⟩
    exact h item hitem r hr

/-- A reap moves a job by its penalty. -/
theorem allInPlace_reaped {cutoff : ℚ} {want : ℕ} {items : List (String × Inflight)} :
    AllInPlace (reaped cutoff want items) ↔
      ∀ item ∈ (items.filter fun item => item.2.deadline ≤ cutoff).take want, ∀ c ∈ item.2.score,
        c + leaseConflictScorePenalty < catchupScoreBase ∨
          catchupScoreBase + (maxOrdinal + 1) * scoreStride ≤ c := by
  unfold AllInPlace reaped
  simp only [List.mem_map, forall_exists_index, and_imp, forall_apply_eq_imp_iff₂]
  refine forall₂_congr fun item _ => forall₂_congr fun c hc => ?_
  rw [Option.mem_def.mp hc, Option.getD_some]
  exact samePlace_penalty_iff

/-- An orphan is queued with the score of its claim. -/
theorem allInPlace_orphanOf {s : Store} {known : List String} {owner : String} {item : String × Inflight}
    (hitem : (s.inflight .ingest).get item.1 = some item.2) : AllInPlace (orphanOf s known owner item) := by
  intro r hr c hc
  obtain ⟨-, hentry, hscore⟩ := mem_orphanOf hr
  have hsame : item.2 = r.entry := Option.some.inj (hitem.symm.trans hentry)
  rw [hscore, hsame, Option.mem_def.mp hc, Option.getD_some]
  exact SamePlace.refl c

/-- **The condition says which jobs come back in their place.** -/
theorem recoveryOk_iff (s : Store) (op : Op) : RecoveryOk s op ↔ AllInPlace (recoveries s op) := by
  have hnil : AllInPlace [] := fun r hr => nomatch hr
  cases op with
  | requeue kind ident owner score =>
      cases kind with
      | ingest => exact allInPlace_givenBack.symm
      | list k => exact iff_of_true trivial hnil
  | reapExpiredInflight kind now limit =>
      cases kind with
      | ingest => exact allInPlace_reaped.symm
      | list k => exact iff_of_true trivial hnil
  | stealDeadOwnerLeases here =>
      refine Iff.trans ?_ allInPlace_flatMap.symm
      constructor
      · rintro h ⟨⟨kind, ident⟩, ownerToken⟩ hlease
        cases kind with
        | ingest => exact allInPlace_stolenOf.mpr (h ident ownerToken hlease)
        | list k => exact hnil
      · exact fun h ident ownerToken hlease => allInPlace_stolenOf.mp (h _ hlease)
  | stealJobLeaseIfOwnerDead kind ident here =>
      cases kind with
      | ingest =>
          refine Iff.trans ?_ allInPlace_flatMap.symm
          refine forall_congr' fun ownerToken => ?_
          rw [Option.mem_toList, Option.mem_def, allInPlace_stolenOf]
      | list k => exact iff_of_true trivial hnil
  | reconcileThisOwnerOrphanLeases kind known owner =>
      cases kind with
      | ingest =>
          exact iff_of_true trivial
            (allInPlace_flatMap.mpr fun item hitem => allInPlace_orphanOf (get_of_mem hitem))
      | list k => exact iff_of_true trivial hnil
  | _ => exact iff_of_true trivial hnil

/-- **Every job is where it was first queued**: in its band and for its day. -/
structure Placed (t : Tracked) : Prop where
  apart : Apart t.store
  queued : ∀ i v, t.store.ingest.get i = some v → ∃ o, t.origin i = some o ∧ SamePlace o v
  claimed : ∀ i entry, (t.store.inflight .ingest).get i = some entry →
    ∃ c o, entry.score = some c ∧ t.origin i = some o ∧ SamePlace o c

theorem placed_init (disk : Snapshot) : Placed (Tracked.init disk) :=
  ⟨fun _ _ => rfl, fun _ _ hv => (nomatch hv), fun _ _ he => (nomatch he)⟩

theorem Placed.keeps {t : Tracked} {s' : Store} (h : Placed t) (hkeeps : Keeps t.store s') :
    Placed ⟨s', t.origin⟩ := by
  refine ⟨hkeeps.apart h.apart, fun i v hv => h.queued i v (hkeeps.queued i v hv), ?_⟩
  intro i entry hentry
  rcases hkeeps.claimed i entry hentry with ⟨v, hscore, hv⟩ | ⟨old, hold, hscore⟩
  · obtain ⟨o, ho, hplace⟩ := h.queued i v hv
    exact ⟨v, o, hscore, ho, hplace⟩
  · obtain ⟨c, o, hc, ho, hplace⟩ := h.claimed i old hold
    exact ⟨c, o, hscore.trans hc, ho, hplace⟩

/-- A job comes back or is where it was. -/
theorem Recovers.cases {s s' : Store} {rs : List Recovery} (h : Recovers s s' rs) (i : String) :
    (∃ r ∈ rs, r.ident = i) ∨
      (s'.ingest.get i = s.ingest.get i ∧ (s'.inflight .ingest).get i = (s.inflight .ingest).get i) := by
  by_cases hi : ∃ r ∈ rs, r.ident = i
  · exact Or.inl hi
  · exact Or.inr (h.rest i fun r hr heq => hi ⟨r, hr, heq⟩)

theorem Recovers.apart {s s' : Store} {rs : List Recovery} (h : Recovers s s' rs) (hapart : Apart s) :
    Apart s' := by
  intro i hi
  rcases h.cases i with ⟨r, hr, rfl⟩ | ⟨hingest, hinflight⟩
  · exact (h.back r hr).2
  · rw [hinflight]
    exact hapart i (hingest ▸ hi)

/-- **No queued job is in flight**, after every operation. -/
theorem Apart.step {s s' : Store} {op : Op} (h : Apart s) (hstep : JobStore.step s op = some s') : Apart s' := by
  by_cases hrecovery : op.isRecovery = true
  · exact (recovers_step hrecovery hstep).apart h
  · by_cases hscores : op.givesScores = true
    · cases op with
      | zaddIngest ident score fingerprint cap =>
          obtain rfl := Option.some.inj hstep
          exact h.zaddIngest ident score fingerprint cap
      | load =>
          obtain rfl := Option.some.inj hstep
          exact fun _ _ => rfl
      | _ => exact absurd hscores hrecovery
    · exact (keeps_step (Bool.eq_false_iff.mpr hscores) hstep).apart h

/-- Jobs that come back in their place. -/
theorem Placed.recovers {t : Tracked} {s' : Store} {rs : List Recovery} (h : Placed t)
    (hrecovers : Recovers t.store s' rs) (hplace : AllInPlace rs) : Placed ⟨s', t.origin⟩ := by
  refine ⟨hrecovers.apart h.apart, ?_, ?_⟩
  · intro i v hv
    rcases hrecovers.cases i with ⟨r, hr, rfl⟩ | ⟨hingest, -⟩
    · obtain ⟨c, o, hc, ho, hsame⟩ := h.claimed r.ident r.entry (hrecovers.held r hr)
      have hscore : some r.score = some v := (hrecovers.back r hr).1.symm.trans hv
      exact ⟨o, ho, hsame.trans (Option.some.inj hscore ▸ hplace r hr c hc)⟩
    · exact h.queued i v (hingest.symm.trans hv)
  · intro i entry hentry
    rcases hrecovers.cases i with ⟨r, hr, rfl⟩ | ⟨-, hinflight⟩
    · rw [(hrecovers.back r hr).2] at hentry
      cases hentry
    · exact h.claimed i entry (hinflight.symm.trans hentry)

theorem Placed.zaddIngest {t : Tracked} (h : Placed t) (ident : String) (score : ℚ)
    (fingerprint : Option String) (cap : ℕ) :
    let s' := (zaddIngest t.store ident score fingerprint cap).2
    Placed ⟨s', originAfter t.origin s' (.zaddIngest ident score fingerprint cap)⟩ := by
  intro s'
  obtain ⟨hinflight, hingest⟩ := zaddIngest_cases t.store ident score fingerprint cap
  have hapart : Apart s' := h.apart.zaddIngest ident score fingerprint cap
  have hother : ∀ i, i ≠ ident → originAfter t.origin s' (.zaddIngest ident score fingerprint cap) i =
      t.origin i := fun i hi => Function.update_of_ne hi _ _
  have hself : originAfter t.origin s' (.zaddIngest ident score fingerprint cap) ident =
      (s'.ingest.get ident).or (t.origin ident) := Function.update_self _ _ _
  refine ⟨hapart, ?_, ?_⟩
  · intro i v hv
    by_cases hident : i = ident
    · subst hident
      have hv' : s'.ingest.get i = some v := hv
      refine ⟨v, hself.trans ?_, SamePlace.refl v⟩
      rw [hv']
      rfl
    · have hsame : s'.ingest.get i = t.store.ingest.get i := by
        rcases hingest with hsame | ⟨-, hset⟩
        · exact congrArg (fun d => d.get i) hsame
        · rw [show s'.ingest = _ from hset, get_set, if_neg hident]
      obtain ⟨o, ho, hplace⟩ := h.queued i v (hsame.symm.trans hv)
      exact ⟨o, (hother i hident).trans ho, hplace⟩
  · intro i entry hentry
    have hentry' : (t.store.inflight .ingest).get i = some entry := by
      rw [← hinflight]
      exact hentry
    obtain ⟨c, o, hc, ho, hplace⟩ := h.claimed i entry hentry'
    refine ⟨c, o, hc, ?_, hplace⟩
    by_cases hident : i = ident
    · subst hident
      refine hself.trans ?_
      rw [hapart.get_eq_none hentry, Option.none_or]
      exact ho
    · exact (hother i hident).trans ho

theorem Placed.load {t : Tracked} : Placed ⟨load t.store, originAfter t.origin (load t.store) .load⟩ :=
  ⟨fun _ _ => rfl, fun _ v hv => ⟨v, hv, SamePlace.refl v⟩, fun _ _ he => (nomatch he)⟩

/-- **Every operation that moves no job leaves every job where it was first queued.** -/
theorem Placed.step {t t' : Tracked} {op : Op} (h : Placed t) (hok : RecoveryOk t.store op)
    (hstep : t.step op = some t') : Placed t' := by
  obtain ⟨s', hs', rfl⟩ := Option.map_eq_some_iff.mp hstep
  by_cases hrecovery : op.isRecovery = true
  · have horigin : originAfter t.origin s' op = t.origin := by
      cases op with
      | zaddIngest => cases hrecovery
      | load => cases hrecovery
      | _ => rfl
    rw [horigin]
    exact h.recovers (recovers_step hrecovery hs') ((recoveryOk_iff t.store op).mp hok)
  · by_cases hscores : op.givesScores = true
    · cases op with
      | zaddIngest ident score fingerprint cap =>
          obtain rfl := Option.some.inj hs'
          exact h.zaddIngest ident score fingerprint cap
      | load =>
          obtain rfl := Option.some.inj hs'
          exact Placed.load
      | _ => exact absurd hscores hrecovery
    · have horigin : originAfter t.origin s' op = t.origin := by
        cases op with
        | zaddIngest => exact absurd rfl hscores
        | load => exact absurd rfl hscores
        | _ => rfl
      rw [horigin]
      exact h.keeps (keeps_step (Bool.eq_false_iff.mpr hscores) hs')

/-- **A recovery is in place when no job moves.** -/
theorem recoversInPlace_iff {t t' : Tracked} {op : Op} (h : Placed t) (hstep : t.step op = some t') :
    RecoversInPlace t op t' ↔ RecoveryOk t.store op := by
  obtain ⟨s', hs', rfl⟩ := Option.map_eq_some_iff.mp hstep
  rw [recoveryOk_iff]
  by_cases hrecovery : op.isRecovery = true
  · have hrecovers := recovers_step hrecovery hs'
    constructor
    · intro hall r hr c hc
      obtain ⟨hingest, hinflight⟩ := hrecovers.back r hr
      have hheld := hrecovers.held r hr
      obtain ⟨v, o, hqueued, hband, ho, hday⟩ := hall hrecovery r.ident r.entry hheld hinflight
      obtain ⟨c', o', hc', ho', hplace⟩ := h.claimed r.ident r.entry hheld
      obtain rfl : c' = c := Option.some.inj (hc'.symm.trans hc)
      obtain rfl : o = o' := Option.some.inj (ho.symm.trans ho')
      obtain rfl : r.score = v := Option.some.inj (hingest.symm.trans (filter_key_eq_singleton.mp hqueued))
      rw [hc', Option.map_some, Option.some.injEq] at hband
      refine ⟨hband, ?_⟩
      cases hfirst : decodeIngestBand o with
      | catchup => exact hplace.2.symm.trans (hday hfirst).symm
      | hot =>
          have hhot : decodeIngestBand c' = .hot := hplace.1.symm.trans hfirst
          rw [decodeCatchupCalendarDay_of_hot hhot, decodeCatchupCalendarDay_of_hot (hband.symm.trans hhot)]
    · intro hplaces _ i entry hentry hgone
      by_cases hi : ∃ r ∈ recoveries t.store op, r.ident = i
      · obtain ⟨r, hr, rfl⟩ := hi
        obtain rfl : r.entry = entry := Option.some.inj ((hrecovers.held r hr).symm.trans hentry)
        obtain ⟨c, o, hc, ho, hplace⟩ := h.claimed r.ident r.entry hentry
        have hmoved := hplaces r hr c hc
        refine ⟨r.score, o, filter_key_eq_singleton.mpr (hrecovers.back r hr).1, ?_, ho, fun _ => ?_⟩
        · rw [hc, Option.map_some, hmoved.1]
        · exact (hplace.2.trans hmoved.2).symm
      · -- what does not come back is still in flight
        have hstill := (hrecovers.rest i fun r hr heq => hi ⟨r, hr, heq⟩).2
        rw [hentry] at hstill
        exact absurd (hgone.symm.trans hstill) (fun heq => nomatch heq)
  · have hnone : recoveries t.store op = [] := by
      cases op with
      | requeue => exact absurd rfl hrecovery
      | reapExpiredInflight => exact absurd rfl hrecovery
      | stealDeadOwnerLeases => exact absurd rfl hrecovery
      | stealJobLeaseIfOwnerDead => exact absurd rfl hrecovery
      | reconcileThisOwnerOrphanLeases => exact absurd rfl hrecovery
      | _ => rfl
    rw [hnone]
    exact iff_of_true (fun htrue => absurd htrue hrecovery) fun r hr => nomatch hr

theorem recoveryOk_of_none {t : Tracked} {op : Op} (h : t.step op = none) : RecoveryOk t.store op := by
  cases op with
  | claimIngest => trivial
  | _ => exact nomatch h

/-- **Recovered jobs are queued in their place**, in every step of a run, exactly when no step moves
one. -/
theorem recovers_iff (disk : Snapshot) (ops : List Op) :
    (∀ n op t t', ops[n]? = some op →
        Transition.exec Tracked.step (Tracked.init disk) (ops.take n) = some t → t.step op = some t' →
        RecoversInPlace t op t') ↔
      Transition.Respects Tracked.step (fun t op => RecoveryOk t.store op) (Tracked.init disk) ops := by
  refine Transition.exec_steps_iff (I := Placed) (Q := RecoversInPlace) ?_ ?_ ?_ ops _ (placed_init disk)
  · exact fun t op t' h hstep => recoversInPlace_iff h hstep
  · exact fun t op t' h hok hstep => h.step hok hstep
  · exact fun t op h => recoveryOk_of_none h

/-- The process of a claim has died. -/
def stealOfDead : Op := .stealDeadOwnerLeases ⟨"h", "b", fun _ => false⟩

/-- A hot job whose process dies. -/
def killedClaim : List Op :=
  [.zaddIngest "/raw/a" 5 none 1000, .claimIngest .hot "n:h:b:1" 60 1 4, stealOfDead]

/-- The steal queues it in the catch-up band. -/
theorem not_recovers_killedClaim :
    ¬ ∀ n op t t', killedClaim[n]? = some op →
      Transition.exec Tracked.step (Tracked.init Snapshot.empty) (killedClaim.take n) = some t →
      t.step op = some t' → RecoversInPlace t op t' := by
  intro hall
  have hclaimed : (Transition.exec Tracked.step (Tracked.init Snapshot.empty) (killedClaim.take 2)).map
      (fun t => ((t.store.inflight .ingest).get "/raw/a").map Inflight.score) = some (some (some 5)) := by
    decide +kernel
  have hstolen : ((Transition.exec Tracked.step (Tracked.init Snapshot.empty) (killedClaim.take 2)).bind
      fun t => (t.step stealOfDead).map fun t' =>
        (((t'.store.inflight .ingest).get "/raw/a").map Inflight.score, t'.store.ingest.get "/raw/a")) =
      some (none, some catchupScoreBase) := by
    decide +kernel
  obtain ⟨t, ht, hentry⟩ := Option.map_eq_some_iff.mp hclaimed
  obtain ⟨entry, hentry, hscore⟩ := Option.map_eq_some_iff.mp hentry
  rw [ht, Option.bind_some] at hstolen
  obtain ⟨t', ht', hafter⟩ := Option.map_eq_some_iff.mp hstolen
  obtain ⟨hgone, hqueued⟩ := Prod.mk.inj hafter
  obtain ⟨v, o, hv, hband, -⟩ :=
    hall 2 stealOfDead t t' rfl ht ht' rfl "/raw/a" entry hentry (Option.map_eq_none_iff.mp hgone)
  obtain rfl : catchupScoreBase = v :=
    Option.some.inj (hqueued.symm.trans (filter_key_eq_singleton.mp hv))
  rw [hscore] at hband
  revert hband
  decide

end JobStore
