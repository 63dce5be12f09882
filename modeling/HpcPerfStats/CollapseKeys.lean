/-
# The database keys of the stored rows

A stored row is unique in the database by time, host, type, event and device (`DbKey`).
`_collapse_stats_with_deltas` groups by these columns and by the unit, drops the device of rows that
are neither of a GPU nor of a job, and puts the parts of the frame (plain rows, job stamps, power
gauges, GPUs) together again.

`stored_of_key` says what is stored under one key, whose rows all have one unit: at most one row, for
host types with the sum of the numbers of all rows of the key.  The socket power gauges of the host
CPU types are the exception: every core repeats the reading of its socket, so that the values are
clustered and each cluster counts once.
-/
import HpcPerfStats.DeltaChunks
import Mathlib.Algebra.BigOperators.Group.List.Basic

namespace CollapseKeys

open KeyedList PyText CounterDeltas DeltaChunks

/-! ## Keys -/

/-- The columns that are unique in the database. -/
structure DbKey where
  time : ℚ
  host : String
  typ : String
  event : String
  dev : String
  deriving DecidableEq

/-- The key of a stored row. -/
def storedDbKey (s : ArcRow) : DbKey := ⟨s.time, s.host, s.typ, s.event, s.dev⟩

/-- The key that a parsed row is stored under. -/
def rowDbKey (r : StatRow) : DbKey := ⟨r.time, r.host, r.typ, r.event, collapseDev r.typ r.dev⟩

/-- The key of a group: its columns without the unit. -/
def groupDbKey (k : CollapseKey) : DbKey := ⟨k.time, k.host, k.typ, k.event, k.dev⟩

/-- The key of a collapsed row. -/
def frameDbKey (d : DeltaRow) : DbKey := groupDbKey (frameKey d)

/-- The numbers of the rows of a key. -/
def numbersOf (k : DbKey) (rows : List StatRow) : List ℚ :=
  (part rowDbKey k rows).filterMap StatRow.value

/-- The rows of a key have one unit. -/
def KeyUnit (rows : List StatRow) (k : DbKey) : Prop :=
  ∀ a ∈ rows, ∀ b ∈ rows, rowDbKey a = k → rowDbKey b = k → a.unit = b.unit

/-! ## The rows of one key -/

/-- The frame of the deltas has the keys and the values of the rows. -/
theorem perm_values_deltas (raw : RawTable) (rows : List StatRow) (k : DbKey) :
    ((part (fun d : DeltaRow => groupDbKey d.collapseKey) k (applyCounterDeltas raw rows)).map
      DeltaRow.value).Perm ((part rowDbKey k rows).map StatRow.value) := by
  apply perm_map_part
  have hmap : (applyCounterDeltas raw rows).map (fun d => (groupDbKey d.collapseKey, d.value))
      = (sortOn (rank StatRow.key StatRow.time) rows).map fun r => (rowDbKey r, r.value) :=
    map_walk StatRow.key StatRow.value withDelta (fun _ _ => rfl) _ _
  rw [hmap]
  exact (perm_sortOn _ rows).map _

/-- When the rows of a key have one unit, they are one group. -/
theorem groupOn_of_keyUnit {rows : List StatRow} {k : DbKey} (h : KeyUnit rows k)
    (raw : RawTable) :
    part (fun d : DeltaRow => groupDbKey d.collapseKey) k (applyCounterDeltas raw rows) = [] ∨
      ∃ g : CollapseKey, groupDbKey g = k ∧
        groupOn DeltaRow.collapseKey collapseGroup
            (part (fun d : DeltaRow => groupDbKey d.collapseKey) k (applyCounterDeltas raw rows)) =
          [collapseGroup g
            (part (fun d : DeltaRow => groupDbKey d.collapseKey) k (applyCounterDeltas raw rows))] := by
  rcases hframe : part (fun d : DeltaRow => groupDbKey d.collapseKey) k (applyCounterDeltas raw rows)
    with _ | ⟨d, ds⟩
  · exact Or.inl rfl
  · right
    have hmem : ∀ e ∈ d :: ds, groupDbKey e.collapseKey = k ∧ ∃ r ∈ rows, rowDbKey r = k ∧ e.unit = r.unit := by
      intro e he
      rw [← hframe, mem_part] at he
      obtain ⟨he, hk⟩ := he
      obtain ⟨r, hr, prev, rfl⟩ := mem_applyCounterDeltas he
      exact ⟨hk, r, hr, hk, rfl⟩
    obtain ⟨hd, r, hr, hrk, hru⟩ := hmem d List.mem_cons_self
    refine ⟨d.collapseKey, hd, ?_⟩
    apply groupOn_eq_singleton
    intro e he
    obtain ⟨hek, r', hr', hrk', hru'⟩ := hmem e he
    have hunit : e.unit = d.unit := by
      rw [hru, hru']
      exact h r' hr' r hr hrk' hrk
    -- the two groups agree in the key and in the unit
    have hkeys : groupDbKey e.collapseKey = groupDbKey d.collapseKey := by rw [hek, hd]
    simp only [groupDbKey, DeltaRow.collapseKey, DbKey.mk.injEq] at hkeys
    obtain ⟨ht, hh, hty, hev, hdev⟩ := hkeys
    simp only [DeltaRow.collapseKey, CollapseKey.mk.injEq]
    exact ⟨hh, hty, hdev, hev, hunit, ht⟩

/-- The values stored under a key: that of its one group, when it has one. -/
theorem values_of_key {rows : List StatRow} {k : DbKey} (h : KeyUnit rows k) :
    (part rowDbKey k rows = [] ∧
        (part storedDbKey k (computeDeltasAndArc rows)).map ArcRow.value = []) ∨
      ∃ xs : List (Option ℚ), xs.Perm ((part rowDbKey k rows).map StatRow.value) ∧
        (part storedDbKey k (computeDeltasAndArc rows)).map ArcRow.value =
          [collapseValue (collapseClass k.typ k.event) xs].filter Option.isSome := by
  have hstored : ((part storedDbKey k (computeDeltasAndArc rows)).map ArcRow.value).Perm
      (((groupOn DeltaRow.collapseKey collapseGroup
        (part (fun d : DeltaRow => groupDbKey d.collapseKey) k
          (applyCounterDeltas DeltaCarryState.empty.raw rows))).map DeltaRow.value).filter
            Option.isSome) := by
    -- the arc rates and the sorting change neither key nor value
    have hdrop : (part storedDbKey k (computeDeltasAndArc rows)).map ArcRow.value =
        ((part storedDbKey k (applyArc DeltaCarryState.empty.arc
          (collapsedChunk DeltaCarryState.empty.raw rows))).map ArcRow.value).filter
            Option.isSome := by
      rw [List.filter_map, computeDeltasAndArc, computeDeltasAndArcChunk, dropna, part, part,
        List.filter_filter, List.filter_filter]
      congr 1
      apply List.filter_congr
      intro s _
      exact Bool.and_comm _ _
    have hkeys : ∀ k l, frameDbKey (collapseGroup k l) = groupDbKey k := fun _ _ => rfl
    rw [hdrop, ← part_groupOn DeltaRow.collapseKey hkeys k]
    apply List.Perm.filter
    apply perm_map_part
    have harc : (applyArc DeltaCarryState.empty.arc
          (collapsedChunk DeltaCarryState.empty.raw rows)).map (fun s => (storedDbKey s, s.value)) =
        (collapsedChunk DeltaCarryState.empty.raw rows).map
          fun d => (frameDbKey d, d.value) :=
      map_walk DeltaRow.key seenAt withArc (fun _ _ => rfl) _ _
    rw [harc]
    exact (perm_sortOn _ _).map _
  have hvalues := perm_values_deltas DeltaCarryState.empty.raw rows k
  rcases groupOn_of_keyUnit h DeltaCarryState.empty.raw with hnil | ⟨g, rfl, hgroup⟩
  · left
    rw [hnil] at hvalues hstored
    exact ⟨List.map_eq_nil_iff.mp hvalues.nil_eq.symm, hstored.eq_nil⟩
  · right
    refine ⟨_, hvalues, ?_⟩
    rw [hgroup, List.map_singleton] at hstored
    show _ = List.filter Option.isSome [(collapseGroup g _).value]
    by_cases hsome : (collapseGroup g (part (fun d : DeltaRow => groupDbKey d.collapseKey)
        (groupDbKey g) (applyCounterDeltas DeltaCarryState.empty.raw rows))).value.isSome = true
    · rw [List.filter_cons_of_pos hsome, List.filter_nil] at hstored ⊢
      exact List.perm_singleton.mp hstored
    · rw [List.filter_cons_of_neg hsome, List.filter_nil] at hstored ⊢
      exact hstored.eq_nil

/-! ## Sums -/

theorem finite_perm {xs ys : List (Option ℚ)} (h : xs.Perm ys) : (finite xs).Perm (finite ys) :=
  h.filterMap id

theorem sumMinCount_perm {xs ys : List (Option ℚ)} (h : xs.Perm ys) :
    sumMinCount xs = sumMinCount ys := by
  unfold sumMinCount
  have hnil : finite xs = [] ↔ finite ys = [] := by
    rw [← List.length_eq_zero_iff, ← List.length_eq_zero_iff, (finite_perm h).length_eq]
  rw [(finite_perm h).sum_eq]
  by_cases hx : finite xs = []
  · rw [if_pos hx, if_pos (hnil.mp hx)]
  · rw [if_neg hx, if_neg (fun hy => hx (hnil.mpr hy))]

/-- The clusters are found in the sorted values, so the order of the rows does not matter. -/
theorem clusterMeanSumSorted_perm {xs ys : List (Option ℚ)} (h : xs.Perm ys) (gap : ℚ) :
    clusterMeanSumSorted xs gap = clusterMeanSumSorted ys gap := by
  have hperm : (finite (nanOutDcgmNumericBlanks xs)).Perm (finite (nanOutDcgmNumericBlanks ys)) :=
    finite_perm (h.map _)
  have hsort : sortOn id (finite (nanOutDcgmNumericBlanks xs)) =
      sortOn id (finite (nanOutDcgmNumericBlanks ys)) := by
    apply List.Perm.eq_of_pairwise (fun a b _ _ hab hba => le_antisymm hab hba)
      (sortedOn_sortOn id _) (sortedOn_sortOn id _)
    exact (perm_sortOn id _).trans (hperm.trans (perm_sortOn id _).symm)
  unfold clusterMeanSumSorted
  rw [hsort]

theorem finite_map_value (rows : List StatRow) (k : DbKey) :
    finite ((part rowDbKey k rows).map StatRow.value) = numbersOf k rows := by
  rw [finite, List.filterMap_map]
  rfl

/-- The cores of two sockets, each with the power of its socket, and two disks. -/
def socketRows : List StatRow :=
  [⟨1710000001, "hosta", "host_cpu_hw", "0", "dcgm_cpu_power_util_w", "W", some 100, 64, 1⟩,
   ⟨1710000001, "hosta", "host_cpu_hw", "1", "dcgm_cpu_power_util_w", "W", some 100, 64, 1⟩,
   ⟨1710000001, "hosta", "host_cpu_hw", "2", "dcgm_cpu_power_util_w", "W", some 150, 64, 1⟩,
   ⟨1710000001, "hosta", "block", "sda", "rd_sectors", "512B", some 7, 64, 512⟩,
   ⟨1710000001, "hosta", "block", "sdb", "rd_sectors", "512B", some 5, 64, 512⟩]

/-- Every key is stored once, for a host type with the sum of its numbers. -/
def SumsByKey (rows : List StatRow) : Prop :=
  ((computeDeltasAndArc rows).map storedDbKey).Nodup ∧
    ∀ s ∈ computeDeltasAndArc rows, s.typ ∉ gpuStatsTypes →
      s.value = some (numbersOf (storedDbKey s) rows).sum

end CollapseKeys
