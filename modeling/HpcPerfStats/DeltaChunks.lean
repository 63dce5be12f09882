/-
# Deltas and arc rates in chunks

A file that is ingested in chunks computes its deltas and arc rates chunk by chunk, with the
carried state in between.  A collapsed series is a host, a type, an event and the kept
device (`StatRow.arcKey`).

When no collapsed series has a row in one chunk and, in a later chunk, a row that is not
later in time, the chunks together store the rows of the whole file (`foldChunks_perm`).
When the rows of one second of a collapsed series are cut apart, each chunk stores a row of
its own for that second, where the whole file stores their sum.
-/
import HpcPerfStats.CounterDeltas

namespace DeltaChunks

open KeyedList CounterDeltas PyText

/-! ## Collapsed series -/

/-- The collapsed series that a series belongs to. -/
def collapsedKey (k : SeriesKey) : SeriesKey :=
  let host := (ofLex k).1
  let typ := (ofLex (ofLex k).2).1
  let dev := (ofLex (ofLex (ofLex k).2).2).1
  let event := (ofLex (ofLex (ofLex k).2).2).2
  seriesKey host typ (collapseDev typ dev) event

def arcKey (r : StatRow) : SeriesKey :=
  collapsedKey r.key

/-- Every collapsed series goes forward in time from one chunk to the other. -/
def Forward (c c' : List StatRow) : Prop :=
  ∀ a ∈ c, ∀ b ∈ c', arcKey a = arcKey b → a.time < b.time

instance (c c' : List StatRow) : Decidable (Forward c c') :=
  inferInstanceAs (Decidable (∀ a ∈ c, ∀ b ∈ c', arcKey a = arcKey b → a.time < b.time))

/-- The second of a collapsed series that a row falls into. -/
def cell (r : DeltaRow) : SeriesKey ×ₗ ℚ :=
  toLex (collapsedKey r.key, r.time)

/-- The second of a collapsed row. -/
def cellOfKey (k : CollapseKey) : SeriesKey ×ₗ ℚ :=
  toLex (seriesKey k.host k.typ k.dev k.event, k.time)

/-! ## One chunk after another -/

variable {c c' : List StatRow}

theorem before_of_forward (h : Forward c c') : Before StatRow.key StatRow.time c c' :=
  fun a ha b hb hkey => (h a ha b hb (congrArg collapsedKey hkey)).le

theorem mem_applyCounterDeltas {raw : RawTable} {rows : List StatRow} {d : DeltaRow}
    (h : d ∈ applyCounterDeltas raw rows) : ∃ r ∈ rows, ∃ prev, d = withDelta r prev := by
  obtain ⟨r, hr, prev, hd⟩ := mem_walk StatRow.key StatRow.value withDelta _ _ h
  exact ⟨r, (mem_sortOn _).mp hr, prev, hd⟩

/-- No second is cut apart. -/
theorem cell_ne (h : Forward c c') {raw raw' : RawTable} {d d' : DeltaRow}
    (hd : d ∈ applyCounterDeltas raw c) (hd' : d' ∈ applyCounterDeltas raw' c') :
    cell d ≠ cell d' := by
  obtain ⟨r, hr, prev, rfl⟩ := mem_applyCounterDeltas hd
  obtain ⟨r', hr', prev', rfl⟩ := mem_applyCounterDeltas hd'
  intro heq
  obtain ⟨hkey, htime⟩ := Prod.mk.inj (toLex_inj.mp heq)
  have hlt : r.time < r'.time := h r hr r' hr' hkey
  exact absurd htime hlt.ne

theorem sortedOn_applyCounterDeltas (raw : RawTable) (rows : List StatRow) :
    SortedOn (rank DeltaRow.key DeltaRow.time) (applyCounterDeltas raw rows) :=
  sortedOn_walk StatRow.key StatRow.value withDelta (fun _ _ => rfl)
    (sortedOn_sortOn (rank StatRow.key StatRow.time) rows) raw

/-- Of a second's deltas in the two chunks, one part is empty. -/
theorem part_cell_eq_nil (h : Forward c c') (raw : RawTable) (x : SeriesKey ×ₗ ℚ) :
    part cell x (applyCounterDeltas raw c) = []
      ∨ part cell x (applyCounterDeltas (rawAfter raw c) c') = [] := by
  by_cases hnil : part cell x (applyCounterDeltas raw c) = []
  · exact Or.inl hnil
  · right
    obtain ⟨d, hd⟩ := List.exists_mem_of_ne_nil _ hnil
    rw [mem_part] at hd
    apply part_eq_nil
    intro d' hd' hx
    exact cell_ne h hd.1 hd' (hd.2.trans hx.symm)

/-- The deltas of the chunks are those of the whole, second by second. -/
theorem part_cell_deltas (h : Forward c c') (raw : RawTable) (x : SeriesKey ×ₗ ℚ) :
    part cell x (applyCounterDeltas raw (c ++ c'))
      = part cell x (applyCounterDeltas raw c)
          ++ part cell x (applyCounterDeltas (rawAfter raw c) c') := by
  apply eq_of_part (rank DeltaRow.key DeltaRow.time)
  · exact (sortedOn_applyCounterDeltas raw _).part _ x
  · rcases part_cell_eq_nil h raw x with hnil | hnil
    · rw [hnil, List.nil_append]
      exact (sortedOn_applyCounterDeltas _ _).part _ x
    · rw [hnil, List.append_nil]
      exact (sortedOn_applyCounterDeltas _ _).part _ x
  · intro r
    rw [part_append]
    by_cases hx : toLex (collapsedKey (ofLex r).1, (ofLex r).2) = x
    · -- the rows of one series and time lie in one second
      have hcell : ∀ d : DeltaRow, rank DeltaRow.key DeltaRow.time d = r → cell d = x := by
        rintro d rfl
        exact hx
      have hkey : ∀ d : DeltaRow, rank DeltaRow.key DeltaRow.time d = r → d.key = (ofLex r).1 := by
        rintro d rfl
        rfl
      rw [part_part cell _ _ hcell, part_part cell _ _ hcell, part_part cell _ _ hcell,
        ← part_append, ← part_part DeltaRow.key _ _ hkey,
        ← part_part DeltaRow.key _ (applyCounterDeltas raw c ++ _) hkey]
      congr 1
      exact part_walk_append StatRow.value withDelta (fun _ _ => rfl) (before_of_forward h) raw
        (ofLex r).1
    · have hno : ∀ m : List DeltaRow,
          part (rank DeltaRow.key DeltaRow.time) r (part cell x m) = [] := by
        intro m
        apply part_eq_nil
        rintro d hd rfl
        exact hx ((mem_part _).mp hd).2
      rw [hno, hno, hno]
      rfl

/-! ## The collapsed frame -/

/-- The groups of one second are the groups of the rows of that second. -/
theorem part_groups (frame : List DeltaRow) (x : SeriesKey ×ₗ ℚ) :
    part (rank DeltaRow.key DeltaRow.time) x
        (groupOn DeltaRow.collapseKey collapseGroup frame)
      = groupOn DeltaRow.collapseKey collapseGroup (part cell x frame) := by
  have hout : ∀ k l, rank DeltaRow.key DeltaRow.time (collapseGroup k l) = cellOfKey k :=
    fun _ _ => rfl
  exact part_groupOn DeltaRow.collapseKey hout x frame

/-- A collapsed row stems from a row of its series and time. -/
theorem mem_collapsedChunk {raw : RawTable} {rows : List StatRow} {d : DeltaRow}
    (h : d ∈ collapsedChunk raw rows) : ∃ r ∈ rows, arcKey r = d.key ∧ r.time = d.time := by
  rw [collapsedChunk, collapseStatsWithDeltas, mem_sortOn, groupOn, List.mem_map] at h
  obtain ⟨k, hk, rfl⟩ := h
  obtain ⟨d, hd, rfl⟩ := (mem_groupKeys _).mp hk
  obtain ⟨r, hr, prev, rfl⟩ := mem_applyCounterDeltas hd
  exact ⟨r, hr, rfl, rfl⟩

theorem before_collapsedChunk (h : Forward c c') (raw raw' : RawTable) :
    Before DeltaRow.key DeltaRow.time (collapsedChunk raw c) (collapsedChunk raw' c') := by
  intro d hd d' hd' hkey
  obtain ⟨r, hr, hrkey, hrtime⟩ := mem_collapsedChunk hd
  obtain ⟨r', hr', hrkey', hrtime'⟩ := mem_collapsedChunk hd'
  rw [← hrtime, ← hrtime']
  exact (h r hr r' hr' (hrkey.trans (hkey.trans hrkey'.symm))).le

theorem sortedOn_collapsedChunk (raw : RawTable) (rows : List StatRow) :
    SortedOn (rank DeltaRow.key DeltaRow.time) (collapsedChunk raw rows) :=
  sortedOn_sortOn _ _

/-- **Collapse.**  The collapsed frame of the whole is that of the chunks. -/
theorem collapsedChunk_append (h : Forward c c') (raw : RawTable) :
    collapsedChunk raw (c ++ c') = sortOn (rank DeltaRow.key DeltaRow.time)
      (collapsedChunk raw c ++ collapsedChunk (rawAfter raw c) c') := by
  rw [collapsedChunk, collapseStatsWithDeltas]
  apply sortOn_congr
  intro x
  rw [part_append, collapsedChunk, collapsedChunk, collapseStatsWithDeltas,
    collapseStatsWithDeltas, part_sortOn, part_sortOn, part_groups, part_groups, part_groups,
    part_cell_deltas h]
  rcases part_cell_eq_nil h raw x with hnil | hnil
  · rw [hnil]
    rfl
  · rw [hnil, List.append_nil]
    exact (List.append_nil _).symm

/-! ## Stored rows -/

/-- **Two chunks.**  They store the rows of the whole. -/
theorem computeDeltasAndArcChunk_append (h : Forward c c') (carry : DeltaCarryState) :
    (computeDeltasAndArcChunk carry (c ++ c')).Perm
      (computeDeltasAndArcChunk carry c ++ computeDeltasAndArcChunk (carryAfter carry c) c') := by
  have hperm : (applyArc carry.arc (collapsedChunk carry.raw (c ++ c'))).Perm
      (applyArc carry.arc (collapsedChunk carry.raw c)
        ++ applyArc (carryAfter carry c).arc (collapsedChunk (rawAfter carry.raw c) c')) := by
    apply perm_of_part ArcRow.key
    intro k
    rw [collapsedChunk_append h, applyArc, part_walk_append seenAt withArc (fun _ _ => rfl)
      (before_collapsedChunk h _ _), sortOn_eq_self _ (sortedOn_collapsedChunk _ _),
      sortOn_eq_self _ (sortedOn_collapsedChunk _ _)]
    rfl
  have hdrop := hperm.filter fun r : ArcRow => r.value.isSome
  rw [List.filter_append] at hdrop
  exact hdrop

/-- The carried state behind two chunks is that behind the whole. -/
theorem carryAfter_append (h : Forward c c') (carry : DeltaCarryState) :
    carryAfter carry (c ++ c') = carryAfter (carryAfter carry c) c' := by
  have hraw : rawAfter carry.raw (c ++ c') = rawAfter (rawAfter carry.raw c) c' :=
    walkTable_sortOn_append StatRow.value (before_of_forward h) carry.raw
  have harc : arcAfter carry.arc (collapsedChunk carry.raw (c ++ c'))
      = arcAfter (arcAfter carry.arc (collapsedChunk carry.raw c))
          (collapsedChunk (rawAfter carry.raw c) c') := by
    rw [collapsedChunk_append h, arcAfter, walkTable_sortOn_append seenAt (before_collapsedChunk h _ _),
      sortOn_eq_self _ (sortedOn_collapsedChunk _ _),
      sortOn_eq_self _ (sortedOn_collapsedChunk _ _)]
    rfl
  rw [carryAfter, hraw, harc]
  rfl

/-- Any number of chunks, from any carried state. -/
theorem foldChunks_perm_of_carry (chunks : List (List StatRow)) : ∀ carry : DeltaCarryState,
    chunks.Pairwise Forward →
      (foldChunks carry chunks).Perm (computeDeltasAndArcChunk carry chunks.flatten) := by
  induction chunks with
  | nil => intro carry _; exact List.Perm.refl _
  | cons c cs ih =>
      intro carry h
      obtain ⟨hc, hcs⟩ := List.pairwise_cons.mp h
      have hforward : Forward c cs.flatten := by
        intro a ha b hb
        obtain ⟨c', hc', hb⟩ := List.mem_flatten.mp hb
        exact hc c' hc' a ha b hb
      rw [foldChunks, List.flatten_cons]
      exact ((ih (carryAfter carry c) hcs).append_left _).trans
        (computeDeltasAndArcChunk_append hforward carry).symm

/-! ## Seconds that are cut apart -/

/-- The group that a stored row stands for. -/
def storedKey (r : ArcRow) : CollapseKey :=
  ⟨r.host, r.typ, r.dev, r.event, r.unit, r.time⟩

def frameKey (r : DeltaRow) : CollapseKey :=
  ⟨r.host, r.typ, r.dev, r.event, r.unit, r.time⟩

/-- The group that a row is collapsed into. -/
def groupKey (r : StatRow) : CollapseKey :=
  ⟨r.host, r.typ, collapseDev r.typ r.dev, r.event, r.unit, r.time⟩

/-- A group is stored at most once. -/
theorem nodup_storedKey (carry : DeltaCarryState) (rows : List StatRow) :
    ((computeDeltasAndArcChunk carry rows).map storedKey).Nodup := by
  have hgroups : ((collapsedChunk carry.raw rows).map frameKey).Nodup := by
    have hperm := (perm_sortOn (rank DeltaRow.key DeltaRow.time)
      (groupOn DeltaRow.collapseKey collapseGroup (applyCounterDeltas carry.raw rows))).map frameKey
    rw [map_groupOn DeltaRow.collapseKey (fun _ _ => rfl)] at hperm
    exact hperm.nodup_iff.mpr (nodup_groupKeys _ _)
  have harc : ((applyArc carry.arc (collapsedChunk carry.raw rows)).map storedKey).Nodup := by
    rw [applyArc, map_walk DeltaRow.key seenAt withArc (h := frameKey) (fun _ _ => rfl)]
    exact hgroups
  exact harc.sublist (List.filter_sublist.map storedKey)

/-- A number that is no blank. -/
def Plain (r : StatRow) : Prop :=
  ∃ v, r.value = some v ∧ v < dcgmFp64Blank

/-- A group with a plain number has a value. -/
theorem collapseValue_isSome (cl : CollapseClass) {xs : List (Option ℚ)}
    (h : ∃ v, some v ∈ xs ∧ v < dcgmFp64Blank) : (collapseValue cl xs).isSome = true := by
  obtain ⟨v, hv, hblank⟩ := h
  have hfinite : finite xs ≠ [] :=
    List.ne_nil_of_mem (List.mem_filterMap.mpr ⟨some v, hv, rfl⟩)
  have hnan : finite (nanOutDcgmNumericBlanks xs) ≠ [] := by
    refine List.ne_nil_of_mem (List.mem_filterMap.mpr ⟨some v, ?_, rfl⟩)
    refine List.mem_map.mpr ⟨some v, hv, ?_⟩
    show (if dcgmFp64Blank ≤ v then none else some v) = some v
    rw [if_neg (not_le.mpr hblank)]
  cases cl with
  | sum => simp [collapseValue, sumMinCount, hfinite]
  | nvidiaSum => simp [collapseValue, sumMinCount, hnan]
  | nvidiaMean => simp [collapseValue, meanSkipNan, hnan]
  | nvidiaOr => rfl
  | nvidiaMax =>
      rw [collapseValue, maxSkipNan]
      cases hm : (finite (nanOutDcgmNumericBlanks xs)).max? with
      | none => exact absurd (List.max?_eq_none_iff.mp hm) hnan
      | some m => rfl
  | powerGauge =>
      have hsort : sortOn id (finite (nanOutDcgmNumericBlanks xs)) ≠ [] := by
        intro hnil
        exact hnan ((perm_sortOn id (finite (nanOutDcgmNumericBlanks xs))).symm.trans
          (by rw [hnil])).eq_nil
      simp [collapseValue, clusterMeanSumSorted, hsort]

/-- Every group of rows is collapsed into one row. -/
theorem collapseGroup_mem (raw : RawTable) {rows : List StatRow} {r : StatRow} (hr : r ∈ rows) :
    (∃ d ∈ part DeltaRow.collapseKey (groupKey r) (applyCounterDeltas raw rows), d.value = r.value)
      ∧ collapseGroup (groupKey r) (part DeltaRow.collapseKey (groupKey r)
          (applyCounterDeltas raw rows)) ∈ collapsedChunk raw rows := by
  have hmap : (applyCounterDeltas raw rows).map (fun d => (d.collapseKey, d.value))
      = (sortOn (rank StatRow.key StatRow.time) rows).map fun r => (groupKey r, r.value) :=
    map_walk StatRow.key StatRow.value withDelta (fun _ _ => rfl) _ _
  have hmem : (groupKey r, r.value)
      ∈ (applyCounterDeltas raw rows).map fun d => (d.collapseKey, d.value) := by
    rw [hmap]
    exact List.mem_map_of_mem ((mem_sortOn _).mpr hr)
  obtain ⟨d, hd, heq⟩ := List.mem_map.mp hmem
  obtain ⟨hkey, hvalue⟩ := Prod.mk.inj heq
  constructor
  · exact ⟨d, (mem_part _).mpr ⟨hd, hkey⟩, hvalue⟩
  · rw [collapsedChunk, collapseStatsWithDeltas, mem_sortOn, groupOn]
    exact List.mem_map_of_mem ((mem_groupKeys _).mpr ⟨d, hd, hkey⟩)

/-- The second of a plain row is stored, with the deltas of its group. -/
theorem exists_stored (carry : DeltaCarryState) {rows : List StatRow} {r : StatRow}
    (hplain : Plain r) (hr : r ∈ rows) :
    ∃ s ∈ computeDeltasAndArcChunk carry rows, storedKey s = groupKey r
      ∧ s.delta = collapseDelta (collapseClass r.typ r.event)
          ((part DeltaRow.collapseKey (groupKey r) (applyCounterDeltas carry.raw rows)).map
            DeltaRow.delta) := by
  obtain ⟨⟨d, hd, hdv⟩, hgroup⟩ := collapseGroup_mem carry.raw hr
  have hvalue : (collapseGroup (groupKey r) (part DeltaRow.collapseKey (groupKey r)
      (applyCounterDeltas carry.raw rows))).value.isSome = true := by
    apply collapseValue_isSome
    obtain ⟨v, hv, hblank⟩ := hplain
    refine ⟨v, ?_, hblank⟩
    rw [← hv, ← hdv]
    exact List.mem_map_of_mem hd
  -- the arc rate leaves the key, the value and the delta of a collapsed row
  have hmap : (applyArc carry.arc (collapsedChunk carry.raw rows)).map
        (fun s => (storedKey s, s.value, s.delta))
      = (collapsedChunk carry.raw rows).map fun d => (frameKey d, d.value, d.delta) :=
    map_walk DeltaRow.key seenAt withArc (fun _ _ => rfl) _ _
  have hmem := List.mem_map_of_mem (f := fun d => (frameKey d, d.value, d.delta)) hgroup
  rw [← hmap] at hmem
  obtain ⟨s, hs, heq⟩ := List.mem_map.mp hmem
  obtain ⟨hskey, hrest⟩ := Prod.mk.inj heq
  obtain ⟨hsvalue, hsdelta⟩ := Prod.mk.inj hrest
  refine ⟨s, List.mem_filter.mpr ⟨hs, ?_⟩, hskey, hsdelta⟩
  rw [hsvalue]
  exact hvalue

theorem exists_foldChunks (chunks : List (List StatRow)) : ∀ carry : DeltaCarryState,
    ∀ c ∈ chunks, ∀ r ∈ c, Plain r →
      ∃ s ∈ foldChunks carry chunks, storedKey s = groupKey r := by
  induction chunks with
  | nil => intro carry c hc; cases hc
  | cons c₀ cs ih =>
      intro carry c hc r hr hplain
      rw [foldChunks]
      rcases List.mem_cons.mp hc with rfl | hc
      · obtain ⟨s, hs, hkey, -⟩ := exists_stored carry hplain hr
        exact ⟨s, List.mem_append_left _ hs, hkey⟩
      · obtain ⟨s, hs, hkey⟩ := ih (carryAfter carry c₀) c hc r hr hplain
        exact ⟨s, List.mem_append_right _ hs, hkey⟩

theorem mem_computeDeltasAndArcChunk {carry : DeltaCarryState} {rows : List StatRow} {s : ArcRow}
    (h : s ∈ computeDeltasAndArcChunk carry rows) :
    ∃ r ∈ rows, s.host = r.host ∧ s.time = r.time := by
  obtain ⟨d, hd, prev, rfl⟩ := mem_walk DeltaRow.key seenAt withArc _ _ (List.mem_filter.mp h).1
  obtain ⟨r, hr, hkey, htime⟩ := mem_collapsedChunk hd
  refine ⟨r, hr, ?_, htime.symm⟩
  exact (congrArg (fun k : SeriesKey => (ofLex k).1) hkey).symm

/-- A stored row has the host and the time of a row. -/
theorem mem_foldChunks {s : ArcRow} (chunks : List (List StatRow)) : ∀ {carry : DeltaCarryState},
    s ∈ foldChunks carry chunks → ∃ r ∈ chunks.flatten, s.host = r.host ∧ s.time = r.time := by
  induction chunks with
  | nil => intro carry h; cases h
  | cons c cs ih =>
      intro carry h
      rw [foldChunks] at h
      rw [List.flatten_cons]
      rcases List.mem_append.mp h with h | h
      · obtain ⟨r, hr, heq⟩ := mem_computeDeltasAndArcChunk h
        exact ⟨r, List.mem_append_left _ hr, heq⟩
      · obtain ⟨r, hr, heq⟩ := ih h
        exact ⟨r, List.mem_append_right _ hr, heq⟩

/-- Rows in time order from chunk to chunk. -/
def TimeOrdered (chunks : List (List StatRow)) : Prop :=
  chunks.Pairwise fun c c' => ∀ a ∈ c, ∀ b ∈ c', a.time ≤ b.time

/-- Every collapsed series has one unit. -/
def OneUnit (rows : List StatRow) : Prop :=
  ∀ a ∈ rows, ∀ b ∈ rows, arcKey a = arcKey b → a.unit = b.unit

theorem groupKey_eq {a b : StatRow} (hkey : arcKey a = arcKey b) (hunit : a.unit = b.unit)
    (htime : a.time = b.time) : groupKey a = groupKey b := by
  have hfields : ∀ r : StatRow, arcKey r
      = toLex (r.host, toLex (r.typ, toLex (collapseDev r.typ r.dev, r.event))) := fun _ => rfl
  rw [hfields, hfields] at hkey
  simp only [toLex_inj, Prod.mk.injEq] at hkey
  obtain ⟨h₁, h₂, h₃, h₄⟩ := hkey
  rw [groupKey, groupKey, h₃, h₁, h₂, h₄, hunit, htime]

/-- When no group is stored twice, every collapsed series goes forward. -/
theorem forward_of_nodup (chunks : List (List StatRow)) : ∀ carry : DeltaCarryState,
    (∀ c ∈ chunks, ∀ r ∈ c, Plain r) → OneUnit chunks.flatten → TimeOrdered chunks →
      ((foldChunks carry chunks).map storedKey).Nodup → chunks.Pairwise Forward := by
  induction chunks with
  | nil => intro carry _ _ _ _; exact List.Pairwise.nil
  | cons c cs ih =>
      intro carry hplain hunit hordered hnodup
      obtain ⟨hle, hrest⟩ := List.pairwise_cons.mp hordered
      rw [foldChunks, List.map_append, List.nodup_append] at hnodup
      obtain ⟨-, hnodup', hdisjoint⟩ := hnodup
      have hplain' : ∀ c' ∈ cs, ∀ r ∈ c', Plain r :=
        fun c' hc' => hplain c' (List.mem_cons_of_mem _ hc')
      have hunit' : OneUnit cs.flatten := by
        intro a ha b hb
        rw [List.flatten_cons] at hunit
        exact hunit a (List.mem_append_right _ ha) b (List.mem_append_right _ hb)
      refine List.pairwise_cons.mpr ⟨?_, ih _ hplain' hunit' hrest hnodup'⟩
      intro c' hc' a ha b hb hkey
      refine lt_of_le_of_ne (hle c' hc' a ha b hb) fun htime => ?_
      have hflat : a ∈ (c :: cs).flatten ∧ b ∈ (c :: cs).flatten := by
        constructor
        · exact List.mem_flatten.mpr ⟨c, List.mem_cons_self, ha⟩
        · exact List.mem_flatten.mpr ⟨c', List.mem_cons_of_mem _ hc', hb⟩
      have hgroup := groupKey_eq hkey (hunit a hflat.1 b hflat.2 hkey) htime
      obtain ⟨s, hs, hskey, -⟩ := exists_stored carry (hplain c List.mem_cons_self a ha) ha
      obtain ⟨s', hs', hskey'⟩ := exists_foldChunks cs (carryAfter carry c) c' hc' b hb
        (hplain' c' hc' b hb)
      refine hdisjoint (storedKey s) (List.mem_map_of_mem hs) (storedKey s')
        (List.mem_map_of_mem hs') ?_
      rw [hskey, hskey', hgroup]

/-- **Chunks.**  For every sequence of rows and every way of cutting it into chunks: when
every collapsed series goes forward in time from chunk to chunk, the chunks store the rows
that the whole sequence stores.  For rows in time order that are plain numbers, with one unit
for each collapsed series, this is also necessary. -/
theorem foldChunks_perm (chunks : List (List StatRow)) :
    (chunks.Pairwise Forward →
        (foldChunks DeltaCarryState.empty chunks).Perm (computeDeltasAndArc chunks.flatten))
      ∧ (TimeOrdered chunks → (∀ c ∈ chunks, ∀ r ∈ c, Plain r) → OneUnit chunks.flatten →
          (foldChunks DeltaCarryState.empty chunks).Perm (computeDeltasAndArc chunks.flatten) →
            chunks.Pairwise Forward) := by
  constructor
  · intro h
    exact foldChunks_perm_of_carry chunks DeltaCarryState.empty h
  · intro hordered hplain hunit hperm
    apply forward_of_nodup chunks DeltaCarryState.empty hplain hunit hordered
    exact (hperm.map storedKey).nodup_iff.mpr (nodup_storedKey _ _)

/-- Two samples of a GPU, a second apart. -/
def secondsApart : List (List StatRow) :=
  [[⟨1710000001, "hosta", "nvidia_gpu", "0", "gpu_util", "#", some 10, 64, 1⟩],
   [⟨1710000002, "hosta", "nvidia_gpu", "0", "gpu_util", "#", some 30, 64, 1⟩]]

theorem foldChunks_perm_secondsApart :
    (foldChunks DeltaCarryState.empty secondsApart).Perm
      (computeDeltasAndArc secondsApart.flatten) :=
  (foldChunks_perm secondsApart).1 (by decide +kernel)

/-- Two samples of a GPU in one second, cut between them. -/
def oneSecond : List (List StatRow) :=
  [[⟨1710000001, "hosta", "nvidia_gpu", "0", "gpu_util", "#", some 10, 64, 1⟩],
   [⟨1710000001, "hosta", "nvidia_gpu", "0", "gpu_util", "#", some 30, 64, 1⟩]]

/-- **A second that is cut apart.**  The whole stores one row of value 40, the chunks two
rows of values 10 and 30. -/
theorem foldChunks_not_perm_oneSecond :
    ¬(foldChunks DeltaCarryState.empty oneSecond).Perm (computeDeltasAndArc oneSecond.flatten)
      ∧ (computeDeltasAndArc oneSecond.flatten).map ArcRow.value = [some 40]
      ∧ (foldChunks DeltaCarryState.empty oneSecond).map ArcRow.value = [some 10, some 30] := by
  have hwhole : (computeDeltasAndArc oneSecond.flatten).map ArcRow.value = [some 40] := by
    decide +kernel
  have hchunks : (foldChunks DeltaCarryState.empty oneSecond).map ArcRow.value
      = [some 10, some 30] := by
    decide +kernel
  refine ⟨fun hperm => ?_, hwhole, hchunks⟩
  have hlen := (hperm.map ArcRow.value).length_eq
  rw [hwhole, hchunks] at hlen
  exact absurd hlen (by decide)

end DeltaChunks
