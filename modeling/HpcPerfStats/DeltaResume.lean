/-
# Deltas and arc rates of a resumed file

A file that is resumed computes its deltas and arc rates without the rows in front of the
resume point.  Only the rows of some times are of interest (`keep`); the rows in front have
none of these times.

The delta of a row needs the row of its series before it, and the arc rate of a collapsed row
the time of the collapsed row before it.  When these are still there behind the resume point
(`Baselines`), the rows of interest are the same as those of the whole file
(`computeDeltasAndArc_resume`).
-/
import HpcPerfStats.DeltaChunks

namespace DeltaResume

open KeyedList CounterDeltas DeltaChunks

/-! ## Baselines -/

/-- For every series of interest whose rows in front are older than a row of interest, the
rest has a row of the series that is not older than these and before the row of interest. -/
def Covered (key : StatRow → SeriesKey) (keep : ℚ → Bool) (pre rest : List StatRow) : Prop :=
  ∀ b ∈ rest, keep b.time = true → ∀ a ∈ pre, key a = key b → a.time < b.time →
    ∃ c ∈ rest, key c = key b ∧ a.time ≤ c.time ∧ c.time < b.time

instance (key : StatRow → SeriesKey) (keep : ℚ → Bool) (pre rest : List StatRow) :
    Decidable (Covered key keep pre rest) :=
  inferInstanceAs (Decidable (∀ b ∈ rest, keep b.time = true → ∀ a ∈ pre, key a = key b →
    a.time < b.time → ∃ c ∈ rest, key c = key b ∧ a.time ≤ c.time ∧ c.time < b.time))

/-- The rows of interest have their baselines: for the delta in their series, for the arc
rate in their collapsed series. -/
structure Baselines (keep : ℚ → Bool) (pre rest : List StatRow) : Prop where
  counter : Covered StatRow.key keep pre rest
  arc : Covered arcKey keep pre rest

instance (keep : ℚ → Bool) (pre rest : List StatRow) : Decidable (Baselines keep pre rest) :=
  decidable_of_iff (Covered StatRow.key keep pre rest ∧ Covered arcKey keep pre rest)
    ⟨fun h => ⟨h.1, h.2⟩, fun h => ⟨h.1, h.2⟩⟩

/-! ## Deltas -/

variable {keep : ℚ → Bool} {pre rest : List StatRow}

/-- At a time of interest a key has its rows in the rest alone. -/
theorem part_rank_pre {key : StatRow → SeriesKey} (hpre : ∀ a ∈ pre, keep a.time = false) {t : ℚ}
    (ht : keep t = true) (k : SeriesKey) :
    part (rank key StatRow.time) (toLex (k, t)) (pre ++ rest)
      = part (rank key StatRow.time) (toLex (k, t)) rest := by
  have hnil : part (rank key StatRow.time) (toLex (k, t)) pre = [] := by
    apply part_eq_nil
    intro a ha heq
    have htime : a.time = t := (Prod.mk.inj (toLex_inj.mp heq)).2
    rw [← htime, hpre a ha] at ht
    cases ht
  rw [part_append, hnil, List.nil_append]

/-- **Deltas of one series at one time.** -/
theorem part_rank_deltas (hpre : ∀ a ∈ pre, keep a.time = false)
    (h : Covered StatRow.key keep pre rest) {t : ℚ} (ht : keep t = true) (k : SeriesKey)
    (raw : RawTable) :
    part (rank DeltaRow.key DeltaRow.time) (toLex (k, t)) (applyCounterDeltas raw (pre ++ rest))
      = part (rank DeltaRow.key DeltaRow.time) (toLex (k, t)) (applyCounterDeltas raw rest) := by
  have hout : ∀ rows, part (rank StatRow.key StatRow.time) (toLex (k, t)) rows = [] →
      part (rank DeltaRow.key DeltaRow.time) (toLex (k, t)) (applyCounterDeltas raw rows) = [] := by
    intro rows hnil
    apply part_eq_nil
    intro d hd heq
    obtain ⟨r, hr, prev, rfl⟩ := mem_applyCounterDeltas hd
    have hmem : r ∈ part (rank StatRow.key StatRow.time) (toLex (k, t)) rows :=
      (mem_part _).mpr ⟨hr, heq⟩
    rw [hnil] at hmem
    cases hmem
  by_cases hnil : part (rank StatRow.key StatRow.time) (toLex (k, t)) rest = []
  · rw [hout rest hnil, hout (pre ++ rest) ((part_rank_pre hpre ht k).trans hnil)]
  · -- a row of interest: the table in front of it holds the same on both sides
    obtain ⟨b, hb⟩ := List.exists_mem_of_ne_nil _ hnil
    obtain ⟨hb, hrank⟩ := (mem_part _).mp hb
    obtain ⟨hbk, hbt⟩ := Prod.mk.inj (toLex_inj.mp hrank)
    apply part_rank_walk_congr StatRow.value withDelta (fun _ _ => rfl) (fun _ _ => rfl)
      (sortedOn_sortOn _ _) (sortedOn_sortOn _ _)
    · rw [part_sortOn, part_sortOn, part_rank_pre hpre ht k]
    · apply walkTable_resume
      intro a ha hak hat
      rw [← hbk, ← hbt]
      exact h b hb (by rw [hbt, ht]) a ha (hak.trans hbk.symm) (by rw [hbt]; exact hat)

/-- **Deltas of one second of a collapsed series.** -/
theorem part_cell_deltas_resume (hpre : ∀ a ∈ pre, keep a.time = false)
    (h : Covered StatRow.key keep pre rest) {t : ℚ} (ht : keep t = true) (k : SeriesKey)
    (raw : RawTable) :
    part cell (toLex (k, t)) (applyCounterDeltas raw (pre ++ rest))
      = part cell (toLex (k, t)) (applyCounterDeltas raw rest) := by
  apply eq_of_part (rank DeltaRow.key DeltaRow.time)
  · exact (sortedOn_applyCounterDeltas raw _).part _ _
  · exact (sortedOn_applyCounterDeltas raw _).part _ _
  · intro r
    by_cases hx : toLex (collapsedKey (ofLex r).1, (ofLex r).2) = toLex (k, t)
    · have hcell : ∀ d : DeltaRow, rank DeltaRow.key DeltaRow.time d = r →
          cell d = toLex (k, t) := by
        rintro d rfl
        exact hx
      have hr : r = toLex ((ofLex r).1, t) := by
        rw [← (Prod.mk.inj (toLex_inj.mp hx)).2]
        rfl
      rw [part_part cell _ _ hcell, part_part cell _ _ hcell, hr]
      exact part_rank_deltas hpre h ht _ raw
    · have hno : ∀ m : List DeltaRow,
          part (rank DeltaRow.key DeltaRow.time) r (part cell (toLex (k, t)) m) = [] := by
        intro m
        apply part_eq_nil
        rintro d hd rfl
        exact hx ((mem_part _).mp hd).2
      rw [hno, hno]

/-! ## Arc rates -/

/-- The collapsed rows of one second. -/
theorem part_rank_collapsed (hpre : ∀ a ∈ pre, keep a.time = false)
    (h : Covered StatRow.key keep pre rest) {t : ℚ} (ht : keep t = true) (k : SeriesKey)
    (raw : RawTable) :
    part (rank DeltaRow.key DeltaRow.time) (toLex (k, t)) (collapsedChunk raw (pre ++ rest))
      = part (rank DeltaRow.key DeltaRow.time) (toLex (k, t)) (collapsedChunk raw rest) := by
  rw [collapsedChunk, collapsedChunk, collapseStatsWithDeltas, collapseStatsWithDeltas,
    part_sortOn, part_sortOn, part_groups, part_groups, part_cell_deltas_resume hpre h ht]

/-- Every row has a collapsed row of its series and time. -/
theorem exists_mem_collapsedChunk (raw : RawTable) {rows : List StatRow} {r : StatRow}
    (hr : r ∈ rows) : ∃ d ∈ collapsedChunk raw rows, d.key = arcKey r ∧ d.time = r.time :=
  ⟨_, (collapseGroup_mem raw hr).2, rfl, rfl⟩

/-- The time that a collapsed series was last seen at before a time. -/
def LastSeen (rows : List StatRow) (k : SeriesKey) (t : ℚ) (arc : ArcTable) (s : Option ℚ) : Prop :=
  (s = arc k ∧ ∀ r ∈ rows, arcKey r = k → ¬r.time < t)
    ∨ ∃ m ∈ rows, arcKey m = k ∧ m.time < t ∧ s = some m.time
        ∧ ∀ r ∈ rows, arcKey r = k → r.time < t → r.time ≤ m.time

theorem lastSeen_arc (raw : RawTable) (arc : ArcTable) (rows : List StatRow) (k : SeriesKey) (t : ℚ) :
    LastSeen rows k t arc (walkTable DeltaRow.key seenAt arc
      ((part DeltaRow.key k (collapsedChunk raw rows)).filter fun d => d.time < t) k) := by
  have hmem : ∀ d, d ∈ (part DeltaRow.key k (collapsedChunk raw rows)).filter
      (fun d => d.time < t) ↔ (d ∈ collapsedChunk raw rows ∧ d.key = k) ∧ d.time < t := by
    intro d
    rw [List.mem_filter, mem_part, decide_eq_true_eq]
  -- every row of the series before the time has a collapsed row there
  have hrow : ∀ r ∈ rows, arcKey r = k → r.time < t →
      ∃ d ∈ (part DeltaRow.key k (collapsedChunk raw rows)).filter (fun d => d.time < t),
        d.time = r.time := by
    intro r hr hk ht
    obtain ⟨d, hd, hdk, hdt⟩ := exists_mem_collapsedChunk raw hr
    exact ⟨d, (hmem d).mpr ⟨⟨hd, hdk.trans hk⟩, hdt.trans_lt ht⟩, hdt⟩
  by_cases hnil : (part DeltaRow.key k (collapsedChunk raw rows)).filter (fun d => d.time < t) = []
  · left
    refine ⟨by rw [hnil]; rfl, ?_⟩
    intro r hr hk ht
    obtain ⟨d, hd, -⟩ := hrow r hr hk ht
    rw [hnil] at hd
    cases hd
  · right
    have hsorted : SortedOn DeltaRow.time
        ((part DeltaRow.key k (collapsedChunk raw rows)).filter fun d => d.time < t) :=
      List.Pairwise.sublist List.filter_sublist
        (sortedOn_time_part (sortedOn_collapsedChunk raw rows) k)
    obtain ⟨d, hd, hseen, hmax⟩ := walkTable_last seenAt arc hnil hsorted
      fun d hd => ((hmem d).mp hd).1.2
    obtain ⟨⟨hd, hdk⟩, hdt⟩ := (hmem d).mp hd
    obtain ⟨m, hm, hmk, hmt⟩ := mem_collapsedChunk hd
    refine ⟨m, hm, hmk.trans hdk, hmt.trans_lt hdt, ?_, ?_⟩
    · rw [hseen, seenAt, hmt]
    · intro r hr hk ht
      obtain ⟨e, he, het⟩ := hrow r hr hk ht
      rw [← het, hmt]
      exact hmax e he

/-- What is last seen before a row of interest does not need the rows in front. -/
theorem lastSeen_resume {k : SeriesKey} {t : ℚ} {arc : ArcTable} {s s' : Option ℚ}
    (h : ∀ a ∈ pre, arcKey a = k → a.time < t →
      ∃ c ∈ rest, arcKey c = k ∧ a.time ≤ c.time ∧ c.time < t)
    (hs : LastSeen (pre ++ rest) k t arc s) (hs' : LastSeen rest k t arc s') : s = s' := by
  have hlate : ∀ r ∈ pre ++ rest, arcKey r = k → r.time < t →
      ∃ c ∈ rest, arcKey c = k ∧ r.time ≤ c.time ∧ c.time < t := by
    intro r hr hk ht
    rcases List.mem_append.mp hr with hr | hr
    · exact h r hr hk ht
    · exact ⟨r, hr, hk, le_rfl, ht⟩
  rcases hs with ⟨rfl, hnone⟩ | ⟨m, hm, hmk, hmt, rfl, hmax⟩
  · rcases hs' with ⟨rfl, -⟩ | ⟨m', hm', hmk', hmt', -, -⟩
    · rfl
    · exact absurd hmt' (hnone m' (List.mem_append_right _ hm') hmk')
  · obtain ⟨c, hc, hck, hmc, hct⟩ := hlate m hm hmk hmt
    rcases hs' with ⟨-, hnone⟩ | ⟨m', hm', hmk', hmt', rfl, hmax'⟩
    · exact absurd hct (hnone c hc hck)
    · congr 1
      apply le_antisymm
      · exact hmc.trans (hmax' c hc hck hct)
      · exact hmax m' (List.mem_append_right _ hm') hmk' hmt'

/-- **Stored rows of one second.** -/
theorem part_rank_arc (hpre : ∀ a ∈ pre, keep a.time = false) (h : Baselines keep pre rest)
    {t : ℚ} (ht : keep t = true) (k : SeriesKey) (carry : DeltaCarryState) :
    part (rank ArcRow.key ArcRow.time) (toLex (k, t))
        (applyArc carry.arc (collapsedChunk carry.raw (pre ++ rest)))
      = part (rank ArcRow.key ArcRow.time) (toLex (k, t))
          (applyArc carry.arc (collapsedChunk carry.raw rest)) := by
  have hcollapsed := part_rank_collapsed hpre h.counter ht k carry.raw
  by_cases hnil : part (rank DeltaRow.key DeltaRow.time) (toLex (k, t))
      (collapsedChunk carry.raw rest) = []
  · have hout : ∀ frame : List DeltaRow,
        part (rank DeltaRow.key DeltaRow.time) (toLex (k, t)) frame = [] →
          part (rank ArcRow.key ArcRow.time) (toLex (k, t)) (applyArc carry.arc frame) = [] := by
      intro frame hframe
      apply part_eq_nil
      intro s hs heq
      obtain ⟨d, hd, prev, rfl⟩ := mem_walk DeltaRow.key seenAt withArc _ _ hs
      have hmem : d ∈ part (rank DeltaRow.key DeltaRow.time) (toLex (k, t)) frame :=
        (mem_part _).mpr ⟨hd, heq⟩
      rw [hframe] at hmem
      cases hmem
    rw [hout _ hnil, hout _ (hcollapsed.trans hnil)]
  · -- a row of interest: the series was last seen at the same time on both sides
    obtain ⟨d, hd⟩ := List.exists_mem_of_ne_nil _ hnil
    obtain ⟨hd, hrank⟩ := (mem_part _).mp hd
    obtain ⟨hdk, hdt⟩ := Prod.mk.inj (toLex_inj.mp hrank)
    obtain ⟨b, hb, hbk, hbt⟩ := mem_collapsedChunk hd
    apply part_rank_walk_congr seenAt withArc (fun _ _ => rfl) (fun _ _ => rfl)
      (sortedOn_collapsedChunk _ _) (sortedOn_collapsedChunk _ _) hcollapsed
    apply lastSeen_resume ?_ (lastSeen_arc _ _ _ _ _) (lastSeen_arc _ _ _ _ _)
    intro a ha hak hat
    have hbk' : arcKey b = k := hbk.trans hdk
    have hbt' : b.time = t := hbt.trans hdt
    rw [← hbk', ← hbt']
    exact h.arc b hb (by rw [hbt', ht]) a ha (hak.trans hbk'.symm) (by rw [hbt']; exact hat)

/-- **Resumed files.**  With their baselines behind the resume point, the rows of interest are
stored as the whole file stores them. -/
theorem computeDeltasAndArc_resume (hpre : ∀ a ∈ pre, keep a.time = false)
    (h : Baselines keep pre rest) :
    ((computeDeltasAndArc (pre ++ rest)).filter fun r => keep r.time).Perm
      ((computeDeltasAndArc rest).filter fun r => keep r.time) := by
  apply perm_of_part (rank ArcRow.key ArcRow.time)
  intro x
  have hswap : ∀ rows : List ArcRow, part (rank ArcRow.key ArcRow.time) x
      ((dropna rows).filter fun r => keep r.time)
        = ((part (rank ArcRow.key ArcRow.time) x rows).filter fun r => r.value.isSome).filter
            fun r => keep r.time := by
    intro rows
    simp only [part, dropna, List.filter_filter]
    refine List.filter_congr fun r _ => ?_
    rw [Bool.and_left_comm, Bool.and_comm (decide _)]
  rw [computeDeltasAndArc, computeDeltasAndArc, computeDeltasAndArcChunk,
    computeDeltasAndArcChunk, hswap, hswap]
  by_cases ht : keep (ofLex x).2 = true
  · have hx : x = toLex ((ofLex x).1, (ofLex x).2) := rfl
    rw [hx, part_rank_arc hpre h ht]
  · have hno : ∀ rows : List ArcRow,
        ((part (rank ArcRow.key ArcRow.time) x rows).filter fun r => r.value.isSome).filter
          (fun r => keep r.time) = [] := by
      intro rows
      rw [List.filter_eq_nil_iff]
      intro r hr
      have hrank := ((mem_part _).mp (List.mem_filter.mp hr).1).2
      have htime : r.time = (ofLex x).2 := by
        rw [← hrank]
        rfl
      rw [htime]
      exact ht
    rw [hno, hno]

/-! ## Baselines that are missing -/

/-- Rows of ordinary counters: plain numbers, one device and one unit for each collapsed
series, and no series twice at one time. -/
structure Ordinary (rows : List StatRow) : Prop where
  plain : ∀ r ∈ rows, Plain r
  series : ∀ a ∈ rows, ∀ b ∈ rows, arcKey a = arcKey b → a.key = b.key ∧ a.unit = b.unit
  once : (rows.map (rank StatRow.key StatRow.time)).Nodup
  counters : ∀ r ∈ rows, collapseClass r.typ r.event ≠ .powerGauge

theorem Ordinary.right (h : Ordinary (pre ++ rest)) : Ordinary rest where
  plain r hr := h.plain r (List.mem_append_right _ hr)
  series a ha b hb := h.series a (List.mem_append_right _ ha) b (List.mem_append_right _ hb)
  once := h.once.sublist ((List.sublist_append_right pre rest).map _)
  counters r hr := h.counters r (List.mem_append_right _ hr)

/-- The value that a series was last seen with before a row. -/
def prevValue (rows : List StatRow) (b : StatRow) : Option ℚ :=
  walkTable StatRow.key StatRow.value DeltaCarryState.empty.raw
    ((part StatRow.key b.key (sortOn (rank StatRow.key StatRow.time) rows)).filter
      fun a => a.time < b.time) b.key

/-- The group of an ordinary row is the row itself. -/
theorem part_group_ordinary {rows : List StatRow} (h : Ordinary rows) {b : StatRow} (hb : b ∈ rows) :
    part DeltaRow.collapseKey (groupKey b) (applyCounterDeltas DeltaCarryState.empty.raw rows)
      = [withDelta b (prevValue rows b)] := by
  have hseries : part DeltaRow.collapseKey (groupKey b)
        (applyCounterDeltas DeltaCarryState.empty.raw rows)
      = part (rank DeltaRow.key DeltaRow.time) (toLex (b.key, b.time))
          (applyCounterDeltas DeltaCarryState.empty.raw rows) := by
    refine List.filter_congr fun d hd => decide_eq_decide.mpr ?_
    obtain ⟨r, hr, prev, rfl⟩ := mem_applyCounterDeltas hd
    constructor
    · intro heq
      have hgroup : groupKey r = groupKey b := heq
      have hkey : ∀ x : StatRow, arcKey x = seriesKey (groupKey x).host (groupKey x).typ
          (groupKey x).dev (groupKey x).event := fun _ => rfl
      have harc : arcKey r = arcKey b := by rw [hkey, hkey, hgroup]
      show toLex (r.key, r.time) = toLex (b.key, b.time)
      rw [(h.series r hr b hb harc).1, show r.time = b.time from congrArg CollapseKey.time hgroup]
    · intro heq
      obtain ⟨hkey, htime⟩ := Prod.mk.inj (toLex_inj.mp heq)
      have harc : arcKey r = arcKey b := congrArg collapsedKey hkey
      exact groupKey_eq harc (h.series r hr b hb harc).2 htime
  have hone : part (rank StatRow.key StatRow.time) (toLex (b.key, b.time))
      (sortOn (rank StatRow.key StatRow.time) rows) = [b] := by
    rw [part_sortOn]
    exact part_eq_singleton _ h.once hb
  rw [hseries, applyCounterDeltas, part_rank_walk StatRow.value withDelta (fun _ _ => rfl)
    (fun _ _ => rfl) (sortedOn_sortOn _ rows), hone]
  rfl

/-- A counter that was seen before has a delta, one that was not has none. -/
theorem collapseDelta_isSome {b : StatRow} (hplain : Plain b)
    (hclass : collapseClass b.typ b.event ≠ .powerGauge) (prev : Option ℚ) :
    (collapseDelta (collapseClass b.typ b.event) [counterDelta b prev]).isSome = prev.isSome := by
  obtain ⟨v, hv, -⟩ := hplain
  have hdelta : (counterDelta b prev).isSome = prev.isSome := by
    cases prev with
    | none => simp [counterDelta, hv]
    | some p => simp [counterDelta, hv]
  rw [← hdelta]
  generalize counterDelta b prev = x
  cases hcl : collapseClass b.typ b.event with
  | powerGauge => exact absurd hcl hclass
  | sum => cases x <;> simp [collapseDelta, sumMinCount, finite]
  | nvidiaSum => cases x <;> simp [collapseDelta, sumMinCount, finite]
  | nvidiaOr => cases x <;> simp [collapseDelta, sumMinCount, finite]
  | nvidiaMax => cases x <;> simp [collapseDelta, meanSkipNan, finite]
  | nvidiaMean => cases x <;> simp [collapseDelta, meanSkipNan, finite]

/-- A series has a value before a row exactly when it has a row before it. -/
theorem prevValue_isSome {rows : List StatRow} (hplain : ∀ r ∈ rows, Plain r) (b : StatRow) :
    (prevValue rows b).isSome = true ↔ ∃ a ∈ rows, a.key = b.key ∧ a.time < b.time := by
  have hmem : ∀ a, a ∈ (part StatRow.key b.key (sortOn (rank StatRow.key StatRow.time) rows)).filter
      (fun a => a.time < b.time) ↔ (a ∈ rows ∧ a.key = b.key) ∧ a.time < b.time := by
    intro a
    rw [List.mem_filter, mem_part, mem_sortOn, decide_eq_true_eq]
  rw [prevValue]
  by_cases hnil : (part StatRow.key b.key (sortOn (rank StatRow.key StatRow.time) rows)).filter
      (fun a => a.time < b.time) = []
  · rw [hnil]
    constructor
    · intro h
      cases h
    · rintro ⟨a, ha, hk, ht⟩
      have hin := (hmem a).mpr ⟨⟨ha, hk⟩, ht⟩
      rw [hnil] at hin
      cases hin
  · obtain ⟨m, hm, hseen, -⟩ := walkTable_last StatRow.value DeltaCarryState.empty.raw hnil
      (List.Pairwise.sublist List.filter_sublist
        (sortedOn_time_part (sortedOn_sortOn _ rows) b.key))
      fun a ha => ((hmem a).mp ha).1.2
    obtain ⟨⟨hm, hmk⟩, hmt⟩ := (hmem m).mp hm
    obtain ⟨v, hv, -⟩ := hplain m hm
    rw [hseen, hv]
    exact ⟨fun _ => ⟨m, hm, hmk, hmt⟩, fun _ => rfl⟩

/-- **Missing baselines show.**  For ordinary rows in time order, when the rows of interest are
stored as the whole file stores them, they have their baselines. -/
theorem baselines_of_perm (hordinary : Ordinary (pre ++ rest))
    (hordered : ∀ a ∈ pre, ∀ b ∈ rest, a.time ≤ b.time)
    (hperm : ((computeDeltasAndArc (pre ++ rest)).filter fun r => keep r.time).Perm
      ((computeDeltasAndArc rest).filter fun r => keep r.time)) : Baselines keep pre rest := by
  have hcovered : Covered StatRow.key keep pre rest := by
    intro b hb hkeep a ha hkey htime
    have hb' : b ∈ pre ++ rest := List.mem_append_right _ hb
    obtain ⟨s, hs, hskey, hsdelta⟩ := exists_stored DeltaCarryState.empty
      (hordinary.plain b hb') hb'
    obtain ⟨s', hs', hskey', hsdelta'⟩ := exists_stored DeltaCarryState.empty
      (hordinary.right.plain b hb) hb
    -- the row of the whole file is the row of the rest
    have hstime : s.time = b.time := congrArg CollapseKey.time hskey
    have hmem : s ∈ computeDeltasAndArc rest := by
      refine (List.mem_filter.mp (hperm.mem_iff.mp (List.mem_filter.mpr ⟨hs, ?_⟩))).1
      rw [hstime]
      exact hkeep
    have heq : s = s' :=
      List.inj_on_of_nodup_map (nodup_storedKey _ _) hmem hs' (hskey.trans hskey'.symm)
    -- so the series was seen before it on both sides
    rw [part_group_ordinary hordinary hb', List.map_singleton] at hsdelta
    rw [part_group_ordinary hordinary.right hb, List.map_singleton, ← heq, hsdelta] at hsdelta'
    have hsome := congrArg Option.isSome hsdelta'
    have hplain := hordinary.plain b hb'
    have hclass := hordinary.counters b hb'
    simp only [withDelta, collapseDelta_isSome hplain hclass] at hsome
    rw [(prevValue_isSome hordinary.plain b).mpr ⟨a, List.mem_append_left _ ha, hkey, htime⟩] at hsome
    obtain ⟨c, hc, hck, hct⟩ := (prevValue_isSome hordinary.right.plain b).mp hsome.symm
    exact ⟨c, hc, hck, hordered a ha c hc, hct⟩
  refine ⟨hcovered, ?_⟩
  intro b hb hkeep a ha hkey htime
  obtain ⟨hkey', -⟩ := hordinary.series a (List.mem_append_left _ ha) b
    (List.mem_append_right _ hb) hkey
  obtain ⟨c, hc, hck, hac, hct⟩ := hcovered b hb hkeep a ha hkey' htime
  exact ⟨c, hc, congrArg collapsedKey hck, hac, hct⟩

end DeltaResume
