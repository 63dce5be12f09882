/-
# Counter deltas, collapse and arc rates

`compute_deltas_and_arc_chunk` turns the hardware rows of a chunk into the rows that are
stored, in three steps:

* `_apply_counter_deltas`: within a series (host, type, device, event) the difference to the
  row before, with counter wrap and multiplier
* `_collapse_stats_with_deltas`: the rows of one second are collapsed, over all devices, or
  for each device for GPU types and job stamps
* `_apply_arc_and_finalize`: the delta over the time since the collapsed row before

What a series was last seen with is carried from chunk to chunk (`DeltaCarryState`).  The
source takes it for the first row of a series in a chunk and the row before it otherwise,
and stores the last row of every series behind; a walk with a running table does the same.

Numbers are exact, and a NaN is `none`.  The job id of a row is left out: it takes no part in
the computation.
-/
import HpcPerfStats.KeyedList
import HpcPerfStats.PyText
import Mathlib.Algebra.Order.Ring.Rat
import Mathlib.Data.String.Basic

namespace CounterDeltas

open KeyedList PyText

/-! ## Rows -/

/-- A series: host, type, device and event. -/
abbrev SeriesKey : Type :=
  String ×ₗ String ×ₗ String ×ₗ String

def seriesKey (host typ dev event : String) : SeriesKey :=
  toLex (host, toLex (typ, toLex (dev, event)))

/-- A hardware row. -/
structure StatRow where
  time : ℚ
  host : String
  typ : String
  dev : String
  event : String
  unit : String
  value : Option ℚ
  wid : ℤ
  mult : ℚ
  deriving DecidableEq

/-- A row with its delta. -/
structure DeltaRow where
  time : ℚ
  host : String
  typ : String
  dev : String
  event : String
  unit : String
  value : Option ℚ
  delta : Option ℚ
  deriving DecidableEq

/-- A row as it is stored. -/
structure ArcRow where
  time : ℚ
  host : String
  typ : String
  dev : String
  event : String
  unit : String
  value : Option ℚ
  delta : Option ℚ
  arc : Option ℚ
  deriving DecidableEq

def StatRow.key (r : StatRow) : SeriesKey :=
  seriesKey r.host r.typ r.dev r.event

def DeltaRow.key (r : DeltaRow) : SeriesKey :=
  seriesKey r.host r.typ r.dev r.event

def ArcRow.key (r : ArcRow) : SeriesKey :=
  seriesKey r.host r.typ r.dev r.event

/-! ## Deltas -/

/-- The delta of a row to the value before: a negative difference is a wrapped counter. -/
def counterDelta (r : StatRow) (prev : Option ℚ) : Option ℚ :=
  match r.value, prev with
  | some v, some p => some ((if v - p < 0 then 2 ^ r.wid + (v - p) else v - p) * r.mult)
  | _, _ => none

def withDelta (r : StatRow) (prev : Option ℚ) : DeltaRow :=
  ⟨r.time, r.host, r.typ, r.dev, r.event, r.unit, r.value, counterDelta r prev⟩

/-- The values that the series were last seen with; `none`: not seen, or NaN. -/
abbrev RawTable : Type :=
  SeriesKey → Option ℚ

/-- `_apply_counter_deltas`: the rows by series and time, with their deltas. -/
def applyCounterDeltas (raw : RawTable) (rows : List StatRow) : List DeltaRow :=
  walk StatRow.key StatRow.value withDelta raw (sortOn (rank StatRow.key StatRow.time) rows)

/-- `carry.raw` behind a chunk. -/
def rawAfter (raw : RawTable) (rows : List StatRow) : RawTable :=
  walkTable StatRow.key StatRow.value raw (sortOn (rank StatRow.key StatRow.time) rows)

/-! ## Collapse -/

/-- `_GPU_STATS_TYPES`. -/
def gpuStatsTypes : List String :=
  ["nvidia_gpu", "amd_gpu", "intel_gpu"]

/-- `_HOST_CPU_HW_TYPES`. -/
def hostCpuHwTypes : List String :=
  ["host_cpu_hw", "cpu_counter_metrics"]

/-- `_DCGM_CPU_POWER_SOCKET_GAUGE_EVENTS`. -/
def dcgmCpuPowerSocketGaugeEvents : List String :=
  ["dcgm_cpu_power_util_w", "dcgm_cpu_power_limit_w", "DCGM_CPU_POWER_UTIL_W",
    "DCGM_CPU_POWER_LIMIT_W"]

/-- `_NVIDIA_GPU_MAX_EVENTS`. -/
def nvidiaGpuMaxEvents : List String :=
  ["module_power_usage", "sysio_power_usage", "gpu_count"]

/-- `_NVIDIA_GPU_MEAN_EVENTS`. -/
def nvidiaGpuMeanEvents : List String :=
  ["temperature"]

/-- `_NVIDIA_GPU_OR_EVENTS`. -/
def nvidiaGpuOrEvents : List String :=
  ["clocks_event_reasons"]

/-- `DCGM_FP64_BLANK`. -/
def dcgmFp64Blank : ℚ :=
  140737488355328

/-- `nan_out_dcgm_numeric_blanks`. -/
def nanOutDcgmNumericBlanks (xs : List (Option ℚ)) : List (Option ℚ) :=
  xs.map fun x => x.bind fun v => if dcgmFp64Blank ≤ v then none else some v

/-- The numbers among the values. -/
def finite (xs : List (Option ℚ)) : List ℚ :=
  xs.filterMap id

/-- `sum(min_count=1)`. -/
def sumMinCount (xs : List (Option ℚ)) : Option ℚ :=
  if finite xs = [] then none else some (finite xs).sum

/-- `mean`, skipping NaN. -/
def meanSkipNan (xs : List (Option ℚ)) : Option ℚ :=
  if finite xs = [] then none else some ((finite xs).sum / ((finite xs).length : ℚ))

/-- `max`, skipping NaN. -/
def maxSkipNan (xs : List (Option ℚ)) : Option ℚ :=
  (finite xs).max?

/-- The cast of a float to `uint64`. -/
def toUint64 (v : ℚ) : ℕ :=
  ((Int.tdiv v.num v.den) % 2 ^ 64).toNat

/-- `_nvidia_bitwise_or_values`. -/
def nvidiaBitwiseOrValues (xs : List (Option ℚ)) : ℚ :=
  let acc : ℕ := (((finite xs).filter (· < dcgmFp64Blank)).map toUint64).foldl (· ||| ·) 0
  acc

/-- The clusters of sorted values: a gap above the threshold starts a new one. -/
def clusters (gap : ℚ) : List ℚ → List (List ℚ)
  | [] => []
  | [v] => [[v]]
  | v :: w :: rest =>
      match clusters gap (w :: rest) with
      | [] => [[v]]
      | c :: cs => if gap < w - v then [v] :: c :: cs else (v :: c) :: cs

/-- `_cluster_mean_sum_sorted`: the sum of the means of the clusters. -/
def clusterMeanSumSorted (xs : List (Option ℚ)) (gapThreshold : ℚ) : Option ℚ :=
  let v := sortOn id (finite (nanOutDcgmNumericBlanks xs))
  if v = [] then none
  else some ((clusters gapThreshold v).map fun c => c.sum / (c.length : ℚ)).sum

/-- `_dcg_delta_gap_threshold`. -/
def dcgDeltaGapThreshold (dvals : List (Option ℚ)) : ℚ :=
  match ((finite dvals).map abs).max? with
  | none => 1 / 1000000
  | some dabs => if 0 < dabs then max (1 / 1000000000) (dabs / 20) else 1 / 1000000

/-- How the rows of a group are put together. -/
inductive CollapseClass where
  | sum
  | powerGauge
  | nvidiaSum
  | nvidiaMax
  | nvidiaMean
  | nvidiaOr
  deriving DecidableEq

/-- The class of a type and an event. -/
def collapseClass (typ event : String) : CollapseClass :=
  if typ = "nvidia_gpu" then
    if nvidiaGpuMaxEvents.contains event then .nvidiaMax
    else if nvidiaGpuMeanEvents.contains event then .nvidiaMean
    else if nvidiaGpuOrEvents.contains event then .nvidiaOr
    else .nvidiaSum
  else if hostCpuHwTypes.contains typ && dcgmCpuPowerSocketGaugeEvents.contains event then
    .powerGauge
  else .sum

/-- The value of a group. -/
def collapseValue (c : CollapseClass) (xs : List (Option ℚ)) : Option ℚ :=
  match c with
  | .sum => sumMinCount xs
  | .powerGauge => clusterMeanSumSorted xs 1
  | .nvidiaSum => sumMinCount (nanOutDcgmNumericBlanks xs)
  | .nvidiaMax => maxSkipNan (nanOutDcgmNumericBlanks xs)
  | .nvidiaMean => meanSkipNan (nanOutDcgmNumericBlanks xs)
  | .nvidiaOr => some (nvidiaBitwiseOrValues (nanOutDcgmNumericBlanks xs))

/-- The delta of a group. -/
def collapseDelta (c : CollapseClass) (ds : List (Option ℚ)) : Option ℚ :=
  match c with
  | .sum => sumMinCount ds
  | .powerGauge => clusterMeanSumSorted ds (dcgDeltaGapThreshold ds)
  | .nvidiaSum => sumMinCount ds
  | .nvidiaMax => meanSkipNan ds
  | .nvidiaMean => meanSkipNan ds
  | .nvidiaOr => sumMinCount ds

/-- The device that a collapsed row keeps: that of GPU types and job stamps. -/
def collapseDev (typ dev : String) : String :=
  if gpuStatsTypes.contains typ || startsWith "j:" dev then dev else ""

/-- What the rows of a group have in common: `_COLLAPSE_GROUP_COLS`, with the kept device. -/
structure CollapseKey where
  host : String
  typ : String
  dev : String
  event : String
  unit : String
  time : ℚ
  deriving DecidableEq

def DeltaRow.collapseKey (r : DeltaRow) : CollapseKey :=
  ⟨r.host, r.typ, collapseDev r.typ r.dev, r.event, r.unit, r.time⟩

/-- One collapsed row. -/
def collapseGroup (k : CollapseKey) (rows : List DeltaRow) : DeltaRow :=
  ⟨k.time, k.host, k.typ, k.dev, k.event, k.unit,
    collapseValue (collapseClass k.typ k.event) (rows.map DeltaRow.value),
    collapseDelta (collapseClass k.typ k.event) (rows.map DeltaRow.delta)⟩

/-- `_collapse_stats_with_deltas`: one row for each group, by series and time.  The source
collapses the job-stamped, power-gauge and GPU rows apart; these never share a group, and
only rows of one series can stand in the order of their groups. -/
def collapseStatsWithDeltas (frame : List DeltaRow) : List DeltaRow :=
  sortOn (rank DeltaRow.key DeltaRow.time) (groupOn DeltaRow.collapseKey collapseGroup frame)

/-! ## Arc rates -/

/-- The rate of a collapsed row since the time before. -/
def arcRate (r : DeltaRow) (prevTime : Option ℚ) : Option ℚ :=
  match prevTime, r.delta with
  | some t, some d => if 0 < r.time - t then some (d / (r.time - t)) else none
  | _, _ => none

def withArc (r : DeltaRow) (prevTime : Option ℚ) : ArcRow :=
  ⟨r.time, r.host, r.typ, r.dev, r.event, r.unit, r.value, r.delta, arcRate r prevTime⟩

/-- The times that the collapsed series were last seen at. -/
abbrev ArcTable : Type :=
  SeriesKey → Option ℚ

def seenAt (r : DeltaRow) : Option ℚ :=
  some r.time

/-- The collapsed rows with their rates. -/
def applyArc (arc : ArcTable) (frame : List DeltaRow) : List ArcRow :=
  walk DeltaRow.key seenAt withArc arc frame

/-- `carry.arc` behind a chunk. -/
def arcAfter (arc : ArcTable) (frame : List DeltaRow) : ArcTable :=
  walkTable DeltaRow.key seenAt arc frame

/-- The rows without a value are dropped. -/
def dropna (rows : List ArcRow) : List ArcRow :=
  rows.filter fun r => r.value.isSome

/-! ## Whole files and chunks -/

/-- `DeltaCarryState`. -/
structure DeltaCarryState where
  raw : RawTable
  arc : ArcTable

def DeltaCarryState.empty : DeltaCarryState :=
  ⟨fun _ => none, fun _ => none⟩

/-- The collapsed frame of a chunk. -/
def collapsedChunk (raw : RawTable) (rows : List StatRow) : List DeltaRow :=
  collapseStatsWithDeltas (applyCounterDeltas raw rows)

/-- `compute_deltas_and_arc_chunk`: the stored rows of a chunk. -/
def computeDeltasAndArcChunk (carry : DeltaCarryState) (rows : List StatRow) : List ArcRow :=
  dropna (applyArc carry.arc (collapsedChunk carry.raw rows))

/-- The carried state behind a chunk. -/
def carryAfter (carry : DeltaCarryState) (rows : List StatRow) : DeltaCarryState :=
  ⟨rawAfter carry.raw rows, arcAfter carry.arc (collapsedChunk carry.raw rows)⟩

/-- `compute_deltas_and_arc`. -/
def computeDeltasAndArc (rows : List StatRow) : List ArcRow :=
  computeDeltasAndArcChunk DeltaCarryState.empty rows

/-- The stored rows of one chunk after the other. -/
def foldChunks : DeltaCarryState → List (List StatRow) → List ArcRow
  | _, [] => []
  | carry, c :: cs => computeDeltasAndArcChunk carry c ++ foldChunks (carryAfter carry c) cs

end CounterDeltas
