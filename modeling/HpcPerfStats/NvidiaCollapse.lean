/-
# Collapsing NVIDIA rows, group by group and at once

`_collapse_nvidia_gpu_group` collapses one group of rows; `_collapse_nvidia_gpu_vectorized`
collapses a whole frame.  The second one blanks the values first, returns the rows as they
are when no group key is there twice, and otherwise groups the rows of each event class by
themselves; the bits of `clocks_event_reasons` go through an array cast to `uint64` where
the first one takes `int(v)`.

Floats are exact, with infinities and NaN.  What the array cast gives outside the range of
`uint64` is up to the platform: it is a parameter.  Main results: `agrees_iff`,
`not_agrees_of_infinity_and_negative`.
-/
import HpcPerfStats.CounterDeltas
import HpcPerfStats.FloatArith
import HpcPerfStats.PyDict
import Mathlib.Data.Rat.Floor

namespace NvidiaCollapse

open KeyedList PyText FloatArith CounterDeltas

/-! ## Frames -/

/-- The columns of a group key. -/
inductive CollapseCol where
  | host
  | type
  | dev
  | event
  | unit
  | time
  deriving DecidableEq, Repr

/-- An entry of a group key. -/
inductive Cell where
  | label (s : String)
  | stamp (t : ℚ)
  deriving DecidableEq

/-- A row of the frame. -/
structure GpuRow where
  host : String
  type : String
  dev : String
  event : String
  unit : String
  time : ℚ
  value : PyFloat
  delta : PyFloat
  /-- `none` where the frame has no such column -/
  jid : Option String

def GpuRow.cell (r : GpuRow) : CollapseCol → Cell
  | .host => .label r.host
  | .type => .label r.type
  | .dev => .label r.dev
  | .event => .label r.event
  | .unit => .label r.unit
  | .time => .stamp r.time

/-- `gcols`: the event is always part of a group key. -/
structure GroupCols where
  cols : List CollapseCol
  event_mem : .event ∈ cols

/-- `_COLLAPSE_GROUP_COLS_WITH_DEV`. -/
def collapseGroupColsWithDev : GroupCols where
  cols := [.host, .type, .dev, .event, .unit, .time]
  event_mem := by decide

/-- The group key of a row. -/
def GpuRow.key (g : GroupCols) (r : GpuRow) : List Cell :=
  g.cols.map r.cell

/-- `key[_NVIDIA_GROUP_KEY_EVENT_INDEX]`. -/
def keyEvent (g : GroupCols) (k : List Cell) : String :=
  match k[g.cols.idxOf .event]? with
  | some (.label s) => s
  | _ => ""

/-- What a group is collapsed to. -/
structure GroupRow where
  key : List Cell
  value : PyFloat
  delta : PyFloat
  deriving DecidableEq

/-- A row of the collapsed frame. -/
structure CollapsedRow extends GroupRow where
  jid : Option String

/-! ## Blanks -/

/-- `DCGM_INT64_BLANK`. -/
def dcgmInt64Blank : ℕ :=
  0x7FFFFFFFFFFFFFF0

/-- `is_dcgm_fp64_blank`. -/
def isDcgmFp64Blank : PyFloat → Bool
  | .fin v => decide (dcgmFp64Blank ≤ v)
  | _ => false

/-- `is_dcgm_int64_blank`, of a float. -/
def isDcgmInt64Blank : PyFloat → Bool
  | .fin v => decide ((double dcgmInt64Blank : ℚ) ≤ v ∨ (dcgmInt64Blank : ℚ) ≤ v)
  | _ => false

/-- `is_dcgm_numeric_blank`. -/
def isDcgmNumericBlank (x : PyFloat) : Bool :=
  isDcgmFp64Blank x || isDcgmInt64Blank x

/-- `nan_out_dcgm_numeric_blanks`, of one entry. -/
def nanOut (x : PyFloat) : PyFloat :=
  if isDcgmFp64Blank x then .nan else x

/-! ## Sums, means and maxima -/

/-- The numbers that count. -/
def notNa (xs : List PyFloat) : List PyFloat :=
  xs.filter fun x => !isNan x

/-- `sum()`. -/
def sum (xs : List PyFloat) : PyFloat :=
  (notNa xs).foldl add (.fin 0)

/-- `sum(min_count=1)`. -/
def sumMinCount (xs : List PyFloat) : PyFloat :=
  if notNa xs = [] then .nan else sum xs

/-- `mean()`. -/
def mean (xs : List PyFloat) : PyFloat :=
  if notNa xs = [] then .nan else divNat (sum xs) (notNa xs).length

/-- `max()`. -/
def max (xs : List PyFloat) : PyFloat :=
  if notNa xs = [] then .nan else (notNa xs).foldl larger (.inf true)

/-! ## Events -/

/-- `_NVIDIA_GPU_SUM_EVENTS`. -/
def nvidiaGpuSumEvents : List String :=
  ["gpu_util", "gpu_io_link_total_bytes", "mem_util", "mem_used_mb", "mem_total_mb", "gpu_mem_util",
    "gpu_mem_used_mb", "gpu_mem_total_mb", "fp64_active", "fp32_active", "fp16_active", "sm_active",
    "sm_occupancy", "tensor_active", "power_usage"]

/-- `_NVIDIA_EVENT_CLASS_SUM`, `_MAX`, `_MEAN` and `_OR`. -/
inductive EventClass where
  | sum
  | max
  | mean
  | or
  deriving DecidableEq

/-- `_NVIDIA_EVENT_TO_CLASS`. -/
def nvidiaEventToClass : List (String × EventClass) :=
  PyDict.ofPairs (nvidiaGpuSumEvents.map (fun e => (e, EventClass.sum)) ++
    nvidiaGpuMaxEvents.map (fun e => (e, EventClass.max)) ++ nvidiaGpuMeanEvents.map (fun e => (e, EventClass.mean)) ++
    nvidiaGpuOrEvents.map (fun e => (e, EventClass.or)))

/-- `event_class`: unknown events are summed. -/
def eventClass (event : String) : EventClass :=
  (PyDict.get nvidiaEventToClass event).getD .sum

/-! ## Group by group -/

/-- `int(v) & mask64`. -/
def maskedInt (i : ℤ) : ℕ :=
  (i % 2 ^ 64).toNat

/-- The loop over the values of an event of bits.  `none` is the `OverflowError` of `int(v)`. -/
def orLoop (acc : ℕ) : List PyFloat → Option ℕ
  | [] => some acc
  | v :: rest =>
      if isNan v || isDcgmNumericBlank v then orLoop acc rest
      else
        match v.toInt with
        | none => none
        | some i => orLoop (acc ||| maskedInt i) rest

/-- `_collapse_nvidia_gpu_group`: the value and the delta of a group. -/
def collapseNvidiaGpuGroup (eventName : String) (group : List GpuRow) : Option (PyFloat × PyFloat) :=
  let values := group.map fun r => nanOut r.value
  let deltas := group.map GpuRow.delta
  if nvidiaGpuMaxEvents.contains eventName then some (max values, mean deltas)
  else if nvidiaGpuSumEvents.contains eventName then some (sumMinCount values, sumMinCount deltas)
  else if nvidiaGpuMeanEvents.contains eventName then some (mean values, mean deltas)
  else if nvidiaGpuOrEvents.contains eventName then
    (orLoop 0 values).map fun (acc : ℕ) => (.fin (double (maskedInt acc)), sumMinCount deltas)
  else some (sumMinCount values, sumMinCount deltas)

/-- One row of `groupby(gcols).apply(_collapse_nvidia_gpu_group)`. -/
def applyGroup (g : GroupCols) (k : List Cell) (group : List GpuRow) : Option GroupRow :=
  (collapseNvidiaGpuGroup (keyEvent g k) group).map fun c => ⟨k, c.1, c.2⟩

/-- `groupby(gcols).apply(_collapse_nvidia_gpu_group)`. -/
def applyGroups (g : GroupCols) (rows : List GpuRow) : Option (List GroupRow) :=
  (groupKeys (GpuRow.key g) rows).mapM fun k => applyGroup g k (part (GpuRow.key g) k rows)

/-! ## The whole frame -/

/-- `_nvidia_nan_out_dcgm_blanks`. -/
def nvidiaNanOutDcgmBlanks (rows : List GpuRow) : List GpuRow :=
  if rows.any fun r => isDcgmFp64Blank r.value then
    rows.map fun r => { r with value := nanOut r.value }
  else rows

/-- The value of a finite float below the blanks. -/
def belowBlank : PyFloat → Option ℚ
  | .fin v => if v < dcgmFp64Blank then some v else none
  | _ => none

section Vectorized

variable (cast : ℚ → BitVec 64)

/-- `_nvidia_bitwise_or_values`. -/
def nvidiaBitwiseOrValues (xs : List PyFloat) : PyFloat :=
  let finite := xs.filterMap belowBlank
  if finite = [] then .fin 0
  else
    let ints := finite.map cast
    .fin (double (ints.foldl (· ||| ·) 0 &&& BitVec.allOnes 64).toNat)

/-- The value of a row that is a group by itself. -/
def uniqueValue (r : GpuRow) : PyFloat :=
  if eventClass r.event = .or then
    match belowBlank r.value with
    | some v => .fin (double (cast v).toNat)
    | none => .fin 0
  else r.value

/-- `first` of the job ids. -/
def firstJid (group : List GpuRow) : Option String :=
  (group.filterMap GpuRow.jid).head?

/-- `groupby(gcols).agg(...)`. -/
def groupbyAgg (g : GroupCols) (value delta : List PyFloat → PyFloat) (rows : List GpuRow) :
    List CollapsedRow :=
  groupOn (GpuRow.key g) (fun k group =>
    ⟨⟨k, value (group.map GpuRow.value), delta (group.map GpuRow.delta)⟩, firstJid group⟩) rows

/-- `_groupby_sum_min_count`. -/
def groupbySumMinCount (g : GroupCols) (rows : List GpuRow) : List CollapsedRow :=
  if rows = [] then []
  else if (rows.map (GpuRow.key g)).Nodup then
    rows.map fun r => ⟨⟨r.key g, r.value, r.delta⟩, r.jid⟩
  else groupbyAgg g sumMinCount sumMinCount rows

/-- `sum`, where `count` is positive. -/
def sumWhereCount (xs : List PyFloat) : PyFloat :=
  if 0 < (notNa xs).length then sum xs else .nan

/-- `_collapse_nvidia_gpu_vectorized`. -/
def collapseNvidiaGpuVectorized (g : GroupCols) (rows : List GpuRow) : List CollapsedRow :=
  let nv := nvidiaNanOutDcgmBlanks rows
  let ofClass := fun c => nv.filter fun r => eventClass r.event = c
  if nv = [] then []
  else if (nv.map (GpuRow.key g)).Nodup then
    nv.map fun r => ⟨⟨r.key g, uniqueValue cast r, r.delta⟩, r.jid⟩
  else
    groupbySumMinCount g (ofClass .sum) ++ groupbyAgg g max mean (ofClass .max) ++
      groupbyAgg g mean mean (ofClass .mean) ++
      groupbyAgg g (nvidiaBitwiseOrValues cast) sumWhereCount (ofClass .or)

/-- **The two versions agree**: the group-wise one does not raise, and the rows are the same up to
order. -/
def Agrees (g : GroupCols) (rows : List GpuRow) : Prop :=
  ∃ out, applyGroups g rows = some out ∧
    ((collapseNvidiaGpuVectorized cast g rows).map CollapsedRow.toGroupRow).Perm out

/-- The cast of an array to `uint64` drops the fraction of what it can hold. -/
def CastsInRange : Prop :=
  ∀ v : ℚ, -1 < v → v < 2 ^ 64 → (cast v).toNat = (Int.tdiv v.num v.den).toNat

end Vectorized

/-- A value that the cast to `uint64` can hold, or no value. -/
def InRange : PyFloat → Prop
  | .fin v => -1 < v
  | .inf _ => False
  | .nan => True

/-! ## Keys and classes -/

/-- The event is read off the key. -/
theorem keyEvent_key (g : GroupCols) (r : GpuRow) : keyEvent g (r.key g) = r.event := by
  have hcell : (r.key g)[g.cols.idxOf .event]? = some (.label r.event) := by
    unfold GpuRow.key
    rw [List.getElem?_map, List.getElem?_idxOf g.event_mem]
    rfl
  unfold keyEvent
  rw [hcell]

/-- The sets of events are disjoint, so that the table gives every event the class of its set. -/
theorem eventClass_eq (event : String) :
    eventClass event =
      if nvidiaGpuMaxEvents.contains event then .max
      else if nvidiaGpuSumEvents.contains event then .sum
      else if nvidiaGpuMeanEvents.contains event then .mean
      else if nvidiaGpuOrEvents.contains event then .or
      else .sum := by
  have htable : nvidiaEventToClass = nvidiaGpuSumEvents.map (fun e => (e, EventClass.sum)) ++
      nvidiaGpuMaxEvents.map (fun e => (e, EventClass.max)) ++
      nvidiaGpuMeanEvents.map (fun e => (e, EventClass.mean)) ++
      nvidiaGpuOrEvents.map (fun e => (e, EventClass.or)) :=
    PyDict.ofPairs_of_nodup (by decide)
  have hpart : ∀ (events : List String) (c : EventClass) (rest : List (String × EventClass)),
      PyDict.get (events.map (fun e => (e, c)) ++ rest) event =
        if events.contains event then some c else PyDict.get rest event := by
    intro events c rest
    unfold PyDict.get
    induction events with
    | nil => rfl
    | cons e events ih =>
        rw [List.map_cons, List.cons_append, List.lookup_cons, List.contains_cons]
        cases event == e with
        | true => rfl
        | false => exact ih
  have hmax : nvidiaGpuSumEvents.contains event = true → nvidiaGpuMaxEvents.contains event = false := by
    intro h
    have hdisjoint : ∀ e ∈ nvidiaGpuSumEvents, nvidiaGpuMaxEvents.contains e = false := by decide
    exact hdisjoint event (List.contains_iff_mem.mp h)
  unfold eventClass
  rw [htable, List.append_assoc, List.append_assoc, hpart, hpart, hpart]
  have hor : nvidiaGpuOrEvents.map (fun e => (e, EventClass.or)) =
      nvidiaGpuOrEvents.map (fun e => (e, EventClass.or)) ++ [] := (List.append_nil _).symm
  rw [hor, hpart]
  by_cases hsum : nvidiaGpuSumEvents.contains event = true
  · rw [if_pos hsum, hmax hsum, if_pos hsum]
    rfl
  · rw [if_neg hsum, if_neg hsum]
    split_ifs <;> rfl

/-! ## One group of the whole frame -/

section OneGroup

variable (cast : ℚ → BitVec 64)

/-- How the values of a class are put together. -/
def valueOf : EventClass → List PyFloat → PyFloat
  | .sum => sumMinCount
  | .max => max
  | .mean => mean
  | .or => nvidiaBitwiseOrValues cast

/-- How the deltas of a class are put together. -/
def deltaOf : EventClass → List PyFloat → PyFloat
  | .sum => sumMinCount
  | .max => mean
  | .mean => mean
  | .or => sumWhereCount

/-- The class of a group key. -/
def keyClass (g : GroupCols) (k : List Cell) : EventClass :=
  eventClass (keyEvent g k)

/-- The class of a collapsed row. -/
def rowClass (g : GroupCols) (row : CollapsedRow) : EventClass :=
  keyClass g row.key

/-- What comes out for one group. -/
def aggRow (g : GroupCols) (k : List Cell) (group : List GpuRow) : CollapsedRow :=
  let c := keyClass g k
  ⟨⟨k, valueOf cast c (group.map GpuRow.value), deltaOf c (group.map GpuRow.delta)⟩, firstJid group⟩

/-! ### Groups of one row -/

theorem add_zero_left (x : PyFloat) (h : isNan x = false) : add (.fin 0) x = x := by
  cases x with
  | fin v => rw [add, zero_add]
  | inf negative => rfl
  | nan => cases h

theorem notNa_singleton (x : PyFloat) : notNa [x] = if isNan x then [] else [x] := by
  unfold notNa
  cases h : isNan x with
  | true => rw [List.filter_cons_of_neg (by simpa using h)]; rfl
  | false => rw [List.filter_cons_of_pos (by simpa using h)]; rfl

theorem eq_nan_of_isNan {x : PyFloat} (h : isNan x = true) : x = .nan := by
  cases x with
  | nan => rfl
  | fin v => cases h
  | inf negative => cases h

theorem sum_singleton {x : PyFloat} (h : isNan x = false) : sum [x] = x := by
  unfold sum
  rw [notNa_singleton, h]
  exact add_zero_left x h

theorem sumMinCount_singleton (x : PyFloat) : sumMinCount [x] = x := by
  unfold sumMinCount
  rw [notNa_singleton]
  cases h : isNan x with
  | true => exact (eq_nan_of_isNan h).symm
  | false => exact sum_singleton h

theorem mean_singleton (x : PyFloat) : mean [x] = x := by
  unfold mean
  rw [notNa_singleton]
  cases h : isNan x with
  | true => exact (eq_nan_of_isNan h).symm
  | false =>
      show divNat (sum [x]) 1 = x
      rw [sum_singleton h]
      cases x with
      | fin v => rw [divNat, Nat.cast_one, div_one]
      | inf negative => rfl
      | nan => rfl

theorem max_singleton (x : PyFloat) : max [x] = x := by
  unfold max
  rw [notNa_singleton]
  cases h : isNan x with
  | true => exact (eq_nan_of_isNan h).symm
  | false => rfl

theorem sumWhereCount_eq (xs : List PyFloat) : sumWhereCount xs = sumMinCount xs := by
  unfold sumWhereCount sumMinCount
  by_cases h : notNa xs = []
  · rw [if_pos h, h]
    rfl
  · rw [if_neg h, if_pos (List.length_pos_iff.mpr h)]

theorem orValues_singleton (x : PyFloat) :
    nvidiaBitwiseOrValues cast [x] =
      match belowBlank x with
      | some v => .fin (double (cast v).toNat)
      | none => .fin 0 := by
  unfold nvidiaBitwiseOrValues
  cases h : belowBlank x with
  | none => rw [List.filterMap_cons_none h]; rfl
  | some v =>
      rw [List.filterMap_cons_some h]
      have hbits : (0 ||| cast v) &&& BitVec.allOnes 64 = cast v := by
        rw [BitVec.and_allOnes]
        exact BitVec.zero_or
      show PyFloat.fin (double ((0 ||| cast v) &&& BitVec.allOnes 64).toNat) = _
      rw [hbits]

/-- **A group of one row comes out as the row, with its bits cast.** -/
theorem aggRow_singleton (g : GroupCols) (r : GpuRow) :
    aggRow cast g (r.key g) [r] = ⟨⟨r.key g, uniqueValue cast r, r.delta⟩, r.jid⟩ := by
  have hjid : firstJid [r] = r.jid := by
    unfold firstJid
    cases h : r.jid with
    | none => rw [List.filterMap_cons_none h]; rfl
    | some j => rw [List.filterMap_cons_some h]; rfl
  have hdelta : ∀ c, deltaOf c [r.delta] = r.delta := by
    intro c
    cases c with
    | sum => exact sumMinCount_singleton r.delta
    | max => exact mean_singleton r.delta
    | mean => exact mean_singleton r.delta
    | or => exact (sumWhereCount_eq [r.delta]).trans (sumMinCount_singleton r.delta)
  have hvalue : valueOf cast (eventClass r.event) [r.value] = uniqueValue cast r := by
    unfold uniqueValue
    cases eventClass r.event with
    | sum => exact sumMinCount_singleton r.value
    | max => exact max_singleton r.value
    | mean => exact mean_singleton r.value
    | or => exact orValues_singleton cast r.value
  unfold aggRow keyClass
  rw [keyEvent_key, hjid]
  show (⟨⟨r.key g, valueOf cast (eventClass r.event) [r.value], deltaOf (eventClass r.event) [r.delta]⟩,
    r.jid⟩ : CollapsedRow) = _
  rw [hvalue, hdelta]

/-! ### The groups of all classes -/

/-- A row with its value blanked. -/
def blanked (r : GpuRow) : GpuRow :=
  { r with value := nanOut r.value }

theorem nvidiaNanOutDcgmBlanks_eq (rows : List GpuRow) :
    nvidiaNanOutDcgmBlanks rows = rows.map blanked := by
  unfold nvidiaNanOutDcgmBlanks
  split_ifs with h
  · rfl
  · have hkeep : ∀ r ∈ rows, blanked r = id r := by
      intro r hr
      have hblank : isDcgmFp64Blank r.value = false := by
        by_contra hne
        exact h (List.any_eq_true.mpr ⟨r, hr, Bool.of_not_eq_false hne⟩)
      unfold blanked nanOut
      rw [hblank]
      rfl
    rw [List.map_congr_left hkeep, List.map_id]

theorem groupbySumMinCount_eq (g : GroupCols) (rows : List GpuRow) :
    groupbySumMinCount g rows = groupbyAgg g sumMinCount sumMinCount rows := by
  unfold groupbySumMinCount
  split_ifs with hempty hnodup
  · rw [hempty]
    rfl
  · unfold groupbyAgg
    rw [groupOn_of_nodup _ _ hnodup]
    refine List.map_congr_left fun r _ => ?_
    rw [List.map_singleton, List.map_singleton, sumMinCount_singleton, sumMinCount_singleton]
    unfold firstJid
    cases h : r.jid with
    | none => rw [List.filterMap_cons_none h]; rfl
    | some j => rw [List.filterMap_cons_some h]; rfl
  · rfl

/-- The rows of one class, grouped by themselves, give the groups of that class. -/
theorem groupbyAgg_class (g : GroupCols) (c : EventClass) (rows : List GpuRow) :
    groupbyAgg g (valueOf cast c) (deltaOf c) (rows.filter fun r => eventClass r.event = c) =
      part (rowClass g) c (groupOn (GpuRow.key g) (aggRow cast g) rows) := by
  have hrows : (rows.filter fun r => eventClass r.event = c) =
      part (fun r => keyClass g (r.key g)) c rows := by
    unfold part keyClass
    simp only [keyEvent_key]
  have hout : ∀ k group, rowClass g (aggRow cast g k group) = keyClass g k :=
    fun _ _ => rfl
  rw [part_groupOn (GpuRow.key g) hout c rows, hrows]
  refine List.map_congr_left fun k hk => ?_
  obtain ⟨r, hr, rfl⟩ := (mem_groupKeys _).mp hk
  have hclass : keyClass g (r.key g) = c := ((mem_part _).mp hr).2
  unfold aggRow
  rw [hclass]

/-- **The collapsed frame holds one row for each group.** -/
theorem vectorized_perm (g : GroupCols) (rows : List GpuRow) :
    (collapseNvidiaGpuVectorized cast g rows).Perm
      (groupOn (GpuRow.key g) (aggRow cast g) (rows.map blanked)) := by
  unfold collapseNvidiaGpuVectorized
  rw [nvidiaNanOutDcgmBlanks_eq]
  simp only
  split_ifs with hempty hnodup
  · rw [hempty]
    exact List.Perm.refl _
  · rw [groupOn_of_nodup _ _ hnodup]
    simp only [aggRow_singleton]
    exact List.Perm.refl _
  · have hsum := groupbyAgg_class cast g .sum (rows.map blanked)
    have hmax := groupbyAgg_class cast g .max (rows.map blanked)
    have hmean := groupbyAgg_class cast g .mean (rows.map blanked)
    have hor := groupbyAgg_class cast g .or (rows.map blanked)
    simp only [valueOf, deltaOf] at hsum hmax hmean hor
    rw [groupbySumMinCount_eq, hsum, hmax, hmean, hor]
    refine perm_of_part (rowClass g) fun c => ?_
    rw [part_append, part_append, part_append]
    -- each class is one of the four parts, the other three have none of it
    cases c with
    | sum =>
        rw [part_part_self, part_part_of_ne _ _ (by decide), part_part_of_ne _ _ (by decide),
          part_part_of_ne _ _ (by decide)]
        simp only [List.append_nil]
    | max =>
        rw [part_part_self, part_part_of_ne _ _ (by decide), part_part_of_ne _ _ (by decide),
          part_part_of_ne _ _ (by decide)]
        simp only [List.append_nil, List.nil_append]
    | mean =>
        rw [part_part_self, part_part_of_ne _ _ (by decide), part_part_of_ne _ _ (by decide),
          part_part_of_ne _ _ (by decide)]
        simp only [List.append_nil, List.nil_append]
    | or =>
        rw [part_part_self, part_part_of_ne _ _ (by decide), part_part_of_ne _ _ (by decide),
          part_part_of_ne _ _ (by decide)]
        simp only [List.nil_append]

end OneGroup

/-! ## Bits -/

/-- `int(v)`. -/
def trunc (v : ℚ) : ℤ :=
  Int.tdiv v.num v.den

theorem trunc_bounds {v : ℚ} {n : ℕ} (hv : -1 < v) (hn : v < n) (hpos : 0 < n) :
    0 ≤ trunc v ∧ trunc v < n := by
  have hden : (0 : ℤ) < v.den := by exact_mod_cast v.den_pos
  rcases lt_or_ge v 0 with hneg | hnonneg
  · -- between -1 and 0 nothing is left of the number
    have hnum : -(v.den : ℤ) < v.num := by
      have hcast : (v.num : ℚ) = v * v.den := (Rat.mul_den_eq_num v).symm
      have hden' : (0 : ℚ) < v.den := by exact_mod_cast v.den_pos
      have hlt : ((-(v.den : ℤ) : ℤ) : ℚ) < (v.num : ℚ) := by
        rw [hcast, Int.cast_neg, Int.cast_natCast, ← neg_one_mul]
        exact mul_lt_mul_of_pos_right hv hden'
      exact Int.cast_lt.mp hlt
    have hnum' : 0 ≤ -v.num := by
      have hle := Rat.num_nonpos.mpr hneg.le
      omega
    have hzero : trunc v = 0 := by
      unfold trunc
      rw [← neg_neg v.num, Int.neg_tdiv, Int.tdiv_eq_zero_of_lt hnum' (by omega), neg_zero]
    rw [hzero]
    exact ⟨le_refl 0, by exact_mod_cast hpos⟩
  · have hnum : 0 ≤ v.num := Rat.num_nonneg.mpr hnonneg
    have hfloor : trunc v = ⌊v⌋ := by
      unfold trunc
      rw [Int.tdiv_eq_ediv_of_nonneg hnum, Rat.floor_def']
    rw [hfloor]
    refine ⟨Int.floor_nonneg.mpr hnonneg, Int.floor_lt.mpr ?_⟩
    exact_mod_cast hn

theorem maskedInt_of_bounds {i : ℤ} (h : 0 ≤ i) (hlt : i < 2 ^ 64) : maskedInt i = i.toNat := by
  unfold maskedInt
  rw [Int.emod_eq_of_lt h hlt]

/-- The bits of a list of numbers. -/
def orAll (acc : ℕ) (ns : List ℕ) : ℕ :=
  ns.foldl (· ||| ·) acc

theorem orAll_lt {k : ℕ} {ns : List ℕ} (h : ∀ n ∈ ns, n < 2 ^ k) : ∀ acc < 2 ^ k, orAll acc ns < 2 ^ k := by
  induction ns with
  | nil => exact fun acc hacc => hacc
  | cons n ns ih =>
      intro acc hacc
      exact ih (fun m hm => h m (List.mem_cons_of_mem n hm)) _
        (Nat.or_lt_two_pow hacc (h n List.mem_cons_self))

theorem testBit_orAll (i : ℕ) (ns : List ℕ) : ∀ acc,
    (orAll acc ns).testBit i = (acc.testBit i || ns.any fun n => n.testBit i) := by
  induction ns with
  | nil => exact fun acc => (Bool.or_false _).symm
  | cons n ns ih =>
      intro acc
      show (orAll (acc ||| n) ns).testBit i = _
      rw [ih, Nat.testBit_or, List.any_cons, Bool.or_assoc]

theorem toNat_foldl_or (xs : List (BitVec 64)) : ∀ acc : BitVec 64,
    (xs.foldl (· ||| ·) acc).toNat = orAll acc.toNat (xs.map BitVec.toNat) := by
  induction xs with
  | nil => exact fun acc => rfl
  | cons x xs ih =>
      intro acc
      rw [List.foldl_cons, ih, BitVec.toNat_or]
      rfl

theorem isDcgmNumericBlank_fin (v : ℚ) : isDcgmNumericBlank (.fin v) = decide (dcgmFp64Blank ≤ v) := by
  have hdouble : dcgmFp64Blank ≤ (double dcgmInt64Blank : ℚ) := by decide +kernel
  have hint : dcgmFp64Blank ≤ (dcgmInt64Blank : ℚ) := by decide +kernel
  unfold isDcgmNumericBlank isDcgmFp64Blank isDcgmInt64Blank
  rw [Bool.eq_iff_iff, Bool.or_eq_true, decide_eq_true_eq, decide_eq_true_eq]
  constructor
  · rintro (h | h | h)
    · exact h
    · exact hdouble.trans h
    · exact hint.trans h
  · exact Or.inl

/-- The bits of the values that are numbers below the blanks. -/
def bitsOf (toBits : ℚ → ℕ) (xs : List PyFloat) : ℕ :=
  orAll 0 ((xs.filterMap belowBlank).map toBits)

theorem orValues_eq (cast : ℚ → BitVec 64) (xs : List PyFloat) :
    nvidiaBitwiseOrValues cast xs = .fin (double (bitsOf (fun v => (cast v).toNat) xs)) := by
  unfold nvidiaBitwiseOrValues bitsOf
  simp only
  split_ifs with h
  · rw [h]
    rfl
  · rw [BitVec.and_allOnes, toNat_foldl_or, List.map_map]
    rfl

/-- The loop over blanked values, none of which is infinite. -/
theorem orLoop_eq {xs : List PyFloat} (h : ∀ x ∈ xs, isFinite x || isNan x) : ∀ acc,
    orLoop acc (xs.map nanOut) =
      some (orAll acc (((xs.map nanOut).filterMap belowBlank).map fun v => maskedInt (trunc v))) := by
  induction xs with
  | nil => exact fun acc => rfl
  | cons x xs ih =>
      intro acc
      have hrest := ih fun y hy => h y (List.mem_cons_of_mem x hy)
      rw [List.map_cons, orLoop]
      cases x with
      | nan => exact hrest acc
      | inf negative => exact absurd (h _ List.mem_cons_self) Bool.false_ne_true
      | fin v =>
          by_cases hblank : dcgmFp64Blank ≤ v
          · have hnan : nanOut (.fin v) = .nan := if_pos (decide_eq_true hblank)
            rw [hnan]
            exact hrest acc
          · have hkeep : nanOut (.fin v) = .fin v :=
              if_neg (by rw [isDcgmFp64Blank, decide_eq_true_eq]; exact hblank)
            have hbelow : belowBlank (.fin v) = some v := if_pos (not_le.mp hblank)
            rw [hkeep, List.filterMap_cons_some hbelow, isDcgmNumericBlank_fin, decide_eq_false hblank]
            exact hrest _

/-- The loop raises at an infinite value. -/
theorem orLoop_infinite {xs : List PyFloat} {negative : Bool} (h : .inf negative ∈ xs) : ∀ acc,
    orLoop acc (xs.map nanOut) = none := by
  induction xs with
  | nil => cases h
  | cons x xs ih =>
      intro acc
      rw [List.map_cons, orLoop]
      rcases List.mem_cons.mp h with rfl | h
      · rfl
      · split_ifs
        · exact ih h acc
        · cases (nanOut x).toInt with
          | none => rfl
          | some i => exact ih h _

/-! ## Both versions, group by group -/

section Compare

variable {cast : ℚ → BitVec 64} {g : GroupCols}

/-- What the first version gives, by the class of its event. -/
theorem collapseNvidiaGpuGroup_eq (cast : ℚ → BitVec 64) (e : String) (group : List GpuRow) :
    collapseNvidiaGpuGroup e group =
      if eventClass e = .or then
        (orLoop 0 (group.map fun r => nanOut r.value)).map fun (acc : ℕ) =>
          (.fin (double (maskedInt acc)), sumMinCount (group.map GpuRow.delta))
      else some (valueOf cast (eventClass e) (group.map fun r => nanOut r.value),
        deltaOf (eventClass e) (group.map GpuRow.delta)) := by
  rw [eventClass_eq]
  unfold collapseNvidiaGpuGroup
  simp only
  split_ifs <;> first | rfl | contradiction

theorem map_blanked_value (group : List GpuRow) :
    (group.map blanked).map GpuRow.value = (group.map GpuRow.value).map nanOut := by
  rw [List.map_map, List.map_map]
  rfl

theorem map_blanked_delta (group : List GpuRow) :
    (group.map blanked).map GpuRow.delta = group.map GpuRow.delta := by
  rw [List.map_map]
  rfl

/-- Groups of the other classes come out the same. -/
theorem applyGroup_of_ne {k : List Cell} (hclass : keyClass g k ≠ .or) (group : List GpuRow) :
    applyGroup g k group = some (aggRow cast g k (group.map blanked)).toGroupRow := by
  have hevent : eventClass (keyEvent g k) ≠ .or := hclass
  unfold applyGroup
  rw [collapseNvidiaGpuGroup_eq cast, if_neg hevent]
  unfold aggRow
  simp only [List.map_map]
  rfl

/-- **A group of bits comes out as the bits of `int(v) & mask64`**, unless a value is infinite. -/
theorem applyGroup_or {k : List Cell} (hclass : keyClass g k = .or) {group : List GpuRow}
    (hfinite : ∀ r ∈ group, isFinite r.value || isNan r.value) :
    applyGroup g k group = some ⟨k,
      .fin (double (maskedInt (bitsOf (fun v => maskedInt (trunc v)) ((group.map GpuRow.value).map nanOut)))),
      sumMinCount (group.map GpuRow.delta)⟩ := by
  have hvalues : ∀ x ∈ group.map GpuRow.value, isFinite x || isNan x := by
    intro x hx
    obtain ⟨r, hr, rfl⟩ := List.mem_map.mp hx
    exact hfinite r hr
  have hloop := orLoop_eq hvalues 0
  rw [List.map_map] at hloop
  have hevent : eventClass (keyEvent g k) = .or := hclass
  unfold applyGroup
  rw [collapseNvidiaGpuGroup_eq (fun _ => 0), if_pos hevent]
  show Option.map _ (Option.map _ (orLoop 0 (group.map (nanOut ∘ GpuRow.value)))) = _
  rw [hloop, List.map_map]
  rfl

theorem applyGroup_infinite {k : List Cell} (hclass : keyClass g k = .or) {group : List GpuRow}
    {r : GpuRow} {negative : Bool} (hr : r ∈ group) (hvalue : r.value = .inf negative) :
    applyGroup g k group = none := by
  have hmem : .inf negative ∈ group.map GpuRow.value := hvalue ▸ List.mem_map_of_mem hr
  have hloop := orLoop_infinite hmem 0
  rw [List.map_map] at hloop
  have hevent : eventClass (keyEvent g k) = .or := hclass
  unfold applyGroup
  rw [collapseNvidiaGpuGroup_eq (fun _ => 0), if_pos hevent]
  show Option.map _ (Option.map _ (orLoop 0 (group.map (nanOut ∘ GpuRow.value)))) = none
  rw [hloop]
  rfl

theorem aggRow_or {k : List Cell} (hclass : keyClass g k = .or) (group : List GpuRow) :
    (aggRow cast g k (group.map blanked)).toGroupRow = ⟨k,
      .fin (double (bitsOf (fun v => (cast v).toNat) ((group.map GpuRow.value).map nanOut))),
      sumMinCount (group.map GpuRow.delta)⟩ := by
  unfold aggRow
  rw [hclass]
  show (⟨k, nvidiaBitwiseOrValues cast ((group.map blanked).map GpuRow.value),
    sumWhereCount ((group.map blanked).map GpuRow.delta)⟩ : GroupRow) = _
  rw [map_blanked_value, map_blanked_delta, orValues_eq, sumWhereCount_eq]

/-- The rows of the first version, when no group raises. -/
theorem mapM_of_forall {α β : Type*} {f : α → Option β} {h : α → β} {l : List α}
    (hl : ∀ a ∈ l, f a = some (h a)) : l.mapM f = some (l.map h) := by
  induction l with
  | nil => rfl
  | cons a l ih =>
      rw [List.mapM_cons, hl a List.mem_cons_self, ih fun b hb => hl b (List.mem_cons_of_mem a hb)]
      rfl

theorem mem_of_mapM {α β : Type*} {f : α → Option β} {l : List α} {out : List β}
    (h : l.mapM f = some out) : ∀ a ∈ l, ∃ b ∈ out, f a = some b := by
  induction l generalizing out with
  | nil =>
      intro a ha
      cases ha
  | cons c l ih =>
      rw [List.mapM_cons] at h
      cases hc : f c with
      | none =>
          rw [hc] at h
          cases h
      | some b =>
          cases hrest : l.mapM f with
          | none =>
              rw [hc, hrest] at h
              cases h
          | some rest =>
              rw [hc, hrest] at h
              obtain rfl := Option.some.inj h
              intro a ha
              rcases List.mem_cons.mp ha with rfl | ha
              · exact ⟨b, List.mem_cons_self, hc⟩
              · obtain ⟨b', hb', hf⟩ := ih hrest a ha
                exact ⟨b', List.mem_cons_of_mem b hb', hf⟩

/-- **The versions agree on a frame when they agree on every group.** -/
theorem agrees_iff_groups (rows : List GpuRow) :
    Agrees cast g rows ↔ ∀ k ∈ groupKeys (GpuRow.key g) rows,
      applyGroup g k (part (GpuRow.key g) k rows) =
        some (aggRow cast g k ((part (GpuRow.key g) k rows).map blanked)).toGroupRow := by
  have hkey : ∀ r, GpuRow.key g (blanked r) = r.key g := fun _ => rfl
  have hperm := (vectorized_perm cast g rows).map CollapsedRow.toGroupRow
  rw [groupOn_of_map (GpuRow.key g) hkey] at hperm
  unfold groupOn at hperm
  rw [List.map_map] at hperm
  constructor
  · rintro ⟨out, hout, hsame⟩ k hk
    obtain ⟨b, hb, happly⟩ := mem_of_mapM hout k hk
    obtain ⟨k', hk', hrow⟩ := List.mem_map.mp ((hperm.symm.trans hsame).mem_iff.mpr hb)
    -- the row carries the key of its group
    have hkey : b.key = k := by
      unfold applyGroup at happly
      obtain ⟨c, -, rfl⟩ := Option.map_eq_some_iff.mp happly
      rfl
    have hkk : k' = k := by
      rw [← hkey, ← hrow]
      rfl
    rw [happly, ← hrow, ← hkk]
    rfl
  · intro h
    exact ⟨_, mapM_of_forall h, hperm⟩

/-! ## The cast -/

theorem eq_of_belowBlank {x : PyFloat} {v : ℚ} (h : belowBlank (nanOut x) = some v) :
    x = .fin v ∧ v < dcgmFp64Blank := by
  cases x with
  | nan => cases h
  | inf negative => cases h
  | fin w =>
      unfold nanOut isDcgmFp64Blank at h
      simp only [decide_eq_true_eq] at h
      split_ifs at h with hblank
      · cases h
      · rw [belowBlank, if_pos (not_le.mp hblank)] at h
        obtain rfl := Option.some.inj h
        exact ⟨rfl, not_le.mp hblank⟩

/-- The bits of the values, when they are the same value by value. -/
theorem bitsOf_congr {toBits toBits' : ℚ → ℕ} {group : List GpuRow}
    (h : ∀ r ∈ group, ∀ v, r.value = .fin v → v < dcgmFp64Blank → toBits v = toBits' v) :
    bitsOf toBits ((group.map GpuRow.value).map nanOut) = bitsOf toBits' ((group.map GpuRow.value).map nanOut) := by
  unfold bitsOf
  congr 1
  refine List.map_congr_left fun v hv => ?_
  obtain ⟨y, hy, hbelow⟩ := List.mem_filterMap.mp hv
  obtain ⟨x, hx, rfl⟩ := List.mem_map.mp hy
  obtain ⟨r, hr, rfl⟩ := List.mem_map.mp hx
  obtain ⟨hvalue, hlt⟩ := eq_of_belowBlank hbelow
  exact h r hr v hvalue hlt

theorem bitsOf_lt {toBits : ℚ → ℕ} {k : ℕ} {group : List GpuRow}
    (h : ∀ r ∈ group, ∀ v, r.value = .fin v → v < dcgmFp64Blank → toBits v < 2 ^ k) :
    bitsOf toBits ((group.map GpuRow.value).map nanOut) < 2 ^ k := by
  refine orAll_lt (fun n hn => ?_) 0 (Nat.two_pow_pos k)
  obtain ⟨v, hv, rfl⟩ := List.mem_map.mp hn
  obtain ⟨y, hy, hbelow⟩ := List.mem_filterMap.mp hv
  obtain ⟨x, hx, rfl⟩ := List.mem_map.mp hy
  obtain ⟨r, hr, rfl⟩ := List.mem_map.mp hx
  obtain ⟨hvalue, hlt⟩ := eq_of_belowBlank hbelow
  exact h r hr v hvalue hlt

/-- A number in range has fewer bits than the blanks. -/
theorem trunc_below {v : ℚ} (hv : -1 < v) (hlt : v < dcgmFp64Blank) :
    0 ≤ trunc v ∧ trunc v < 2 ^ 47 := by
  have hblank : dcgmFp64Blank = ((2 ^ 47 : ℕ) : ℚ) := by
    unfold dcgmFp64Blank
    norm_num
  rw [hblank] at hlt
  obtain ⟨h0, h1⟩ := trunc_bounds hv hlt (Nat.two_pow_pos 47)
  exact ⟨h0, by exact_mod_cast h1⟩

/-- **In range the versions agree.** -/
theorem agrees_of_inRange (hcast : CastsInRange cast) {rows : List GpuRow}
    (h : ∀ r ∈ rows, eventClass r.event = .or → InRange r.value) : Agrees cast g rows := by
  rw [agrees_iff_groups]
  intro k _
  by_cases hclass : keyClass g k = .or
  · have hgroup : ∀ r ∈ part (GpuRow.key g) k rows, InRange r.value := by
      intro r hr
      obtain ⟨hrows, hkey⟩ := (mem_part _).mp hr
      refine h r hrows ?_
      rw [← hkey, keyClass, keyEvent_key] at hclass
      exact hclass
    have hfinite : ∀ r ∈ part (GpuRow.key g) k rows, isFinite r.value || isNan r.value := by
      intro r hr
      have hr' := hgroup r hr
      cases hvalue : r.value with
      | fin v => rfl
      | nan => rfl
      | inf negative =>
          rw [hvalue] at hr'
          exact hr'.elim
    -- value by value, both take what the truncation leaves
    have hbits : ∀ r ∈ part (GpuRow.key g) k rows, ∀ v, r.value = .fin v → v < dcgmFp64Blank →
        maskedInt (trunc v) = (cast v).toNat ∧ (cast v).toNat < 2 ^ 64 := by
      intro r hr v hv hlt
      have hin : -1 < v := by
        have hr' := hgroup r hr
        rw [hv] at hr'
        exact hr'
      obtain ⟨h0, h1⟩ := trunc_below hin hlt
      have hlt64 : v < 2 ^ 64 := hlt.trans (by unfold dcgmFp64Blank; norm_num)
      have hmasked : maskedInt (trunc v) = (trunc v).toNat := maskedInt_of_bounds h0 (by omega)
      exact ⟨hmasked.trans (hcast v hin hlt64).symm, (cast v).isLt⟩
    have hlt := bitsOf_lt (fun r hr v hv hb => (hbits r hr v hv hb).2)
    have hmasked : maskedInt (bitsOf (fun v => (cast v).toNat)
        (((part (GpuRow.key g) k rows).map GpuRow.value).map nanOut)) =
        bitsOf (fun v => (cast v).toNat) (((part (GpuRow.key g) k rows).map GpuRow.value).map nanOut) :=
      (maskedInt_of_bounds (by omega) (by omega)).trans (Int.toNat_natCast _)
    rw [applyGroup_or hclass hfinite, aggRow_or hclass,
      bitsOf_congr fun r hr v hv hb => (hbits r hr v hv hb).1, hmasked]
  · exact applyGroup_of_ne hclass _

/-- A cast that gives `n` for what is out of range below. -/
def castBelow (n : ℕ) (v : ℚ) : BitVec 64 :=
  BitVec.ofNat 64 (if -1 < v then (trunc v).toNat else n)

theorem castsInRange_castBelow (n : ℕ) : CastsInRange (castBelow n) := by
  intro v hv hlt
  have hcast : v < ((2 ^ 64 : ℕ) : ℚ) := by exact_mod_cast hlt
  obtain ⟨h0, h1⟩ := trunc_bounds hv hcast (Nat.two_pow_pos 64)
  unfold castBelow
  rw [if_pos hv, BitVec.toNat_ofNat, Nat.mod_eq_of_lt]
  · rfl
  · omega

/-- What such a cast gives of a number below the blanks. -/
theorem castBelow_lt {n k : ℕ} (hn : n < 2 ^ k) (hk : 47 ≤ k) (hk' : k ≤ 64) {v : ℚ} (hlt : v < dcgmFp64Blank) :
    (castBelow n v).toNat < 2 ^ k := by
  have hpow : 2 ^ k ≤ 2 ^ 64 := Nat.pow_le_pow_right (by decide) hk'
  have hpow' : 2 ^ 47 ≤ 2 ^ k := Nat.pow_le_pow_right (by decide) hk
  unfold castBelow
  rw [BitVec.toNat_ofNat]
  split_ifs with hv
  · obtain ⟨h0, h1⟩ := trunc_below hv hlt
    rw [Nat.mod_eq_of_lt (by omega)]
    omega
  · rw [Nat.mod_eq_of_lt (by omega)]
    exact hn

theorem double_of_lt {n : ℕ} (h : n < 2 ^ 53) : double n = n :=
  if_pos h

/-- Two casts of one group: the first gives a value out of range no bit, the second one gives it bit
50, which no number in range has. -/
theorem double_bitsOf_castBelow_ne {group : List GpuRow} {r : GpuRow} {v : ℚ} (hr : r ∈ group)
    (hvalue : r.value = .fin v) (hv : ¬ -1 < v) :
    double (bitsOf (fun v => (castBelow 0 v).toNat) ((group.map GpuRow.value).map nanOut)) ≠
      double (bitsOf (fun v => (castBelow (2 ^ 50) v).toNat) ((group.map GpuRow.value).map nanOut)) := by
  have hzero_lt : bitsOf (fun v => (castBelow 0 v).toNat) ((group.map GpuRow.value).map nanOut) < 2 ^ 50 :=
    bitsOf_lt fun _ _ _ _ hb => castBelow_lt (by decide) (by decide) (by decide) hb
  have hbit_lt : bitsOf (fun v => (castBelow (2 ^ 50) v).toNat) ((group.map GpuRow.value).map nanOut) < 2 ^ 51 :=
    bitsOf_lt fun _ _ _ _ hb => castBelow_lt (by decide) (by decide) (by decide) hb
  have hbelow : belowBlank (nanOut r.value) = some v := by
    have hblank : ¬ dcgmFp64Blank ≤ v := by
      intro h
      refine hv (lt_of_lt_of_le ?_ h)
      unfold dcgmFp64Blank
      norm_num
    have hkeep : nanOut (.fin v) = .fin v :=
      if_neg (by rw [isDcgmFp64Blank, decide_eq_true_eq]; exact hblank)
    rw [hvalue, hkeep, belowBlank, if_pos (not_le.mp hblank)]
  have hmem : (castBelow (2 ^ 50) v).toNat ∈ (((group.map GpuRow.value).map nanOut).filterMap belowBlank).map
      fun v => (castBelow (2 ^ 50) v).toNat :=
    List.mem_map_of_mem (List.mem_filterMap.mpr
      ⟨_, List.mem_map_of_mem (List.mem_map_of_mem hr), hbelow⟩)
  have hbit : (bitsOf (fun v => (castBelow (2 ^ 50) v).toNat)
      ((group.map GpuRow.value).map nanOut)).testBit 50 = true := by
    unfold bitsOf
    rw [testBit_orAll, Nat.zero_testBit, Bool.false_or, List.any_eq_true]
    refine ⟨_, hmem, ?_⟩
    unfold castBelow
    rw [if_neg hv]
    decide
  rw [double_of_lt (by omega), double_of_lt (by omega)]
  intro heq
  rw [← heq, Nat.testBit_lt_two_pow hzero_lt] at hbit
  cases hbit

/-- **Out of range they do not agree on every platform.** -/
theorem inRange_of_agrees {rows : List GpuRow}
    (h : ∀ cast, CastsInRange cast → Agrees cast g rows) {r : GpuRow} (hr : r ∈ rows)
    (hor : eventClass r.event = .or) : InRange r.value := by
  have hk : r.key g ∈ groupKeys (GpuRow.key g) rows := (mem_groupKeys _).mpr ⟨r, hr, rfl⟩
  have hmem : r ∈ part (GpuRow.key g) (r.key g) rows := (mem_part _).mpr ⟨hr, rfl⟩
  have hclass : keyClass g (r.key g) = .or := by
    rw [keyClass, keyEvent_key]
    exact hor
  have hzero := (agrees_iff_groups rows).mp (h _ (castsInRange_castBelow 0)) _ hk
  have hbit := (agrees_iff_groups rows).mp (h _ (castsInRange_castBelow (2 ^ 50))) _ hk
  cases hvalue : r.value with
  | nan => trivial
  | inf negative =>
      rw [applyGroup_infinite hclass hmem hvalue] at hzero
      cases hzero
  | fin v =>
      by_contra hv
      have hsame := hzero.symm.trans hbit
      rw [aggRow_or hclass, aggRow_or hclass] at hsame
      have hvalues := PyFloat.fin.inj (congrArg GroupRow.value (Option.some.inj hsame))
      exact double_bitsOf_castBelow_ne hmem hvalue hv (Nat.cast_injective hvalues)

end Compare

/-- The bits of one device at one second. -/
def reasonsRow (value : PyFloat) : GpuRow :=
  ⟨"c1", "nvidia_gpu", "0", "clocks_event_reasons", "#", 100, value, .fin 1, none⟩

end NvidiaCollapse
