/-
# Schemas of stats files

A `!` line of a stats file declares the ordered events of one hardware type.  Each event
token carries options: `W=` a counter width, `U=` a multiplier and a unit, `R=S` the slow
tier.  `_compile_schema_token` compiles a token; `_fast_schema_keys` keeps the tokens of a
fast sample.

Historical archives declare raw control and counter registers (`CTL`, `CTR`, `FIXED_CTR`).
`schema_needs_legacy_hardware_decode` recognises them and `decode_counter_line` replaces a
counter by the event that its control register selects.

An exception of the source is an `Except` value.
-/
import HpcPerfStats.PyDict
import HpcPerfStats.PyText

namespace StatsSchema

open PyText

/-- The exceptions the parser can raise. -/
inductive PyError where
  | valueError
  | keyError
  | indexError
  | overflowError
  deriving DecidableEq, Repr

/-- `ValueError` from a failed conversion. -/
def orValueError {α : Type*} : Option α → Except PyError α
  | some a => .ok a
  | none => .error .valueError

/-! ## Compiling tokens -/

/-- One column of a compiled schema. -/
structure SchemaColumn where
  event : String
  wid : ℤ
  mult : ℚ
  unit : String
  deriving DecidableEq

/-- `schema_key_basename`. -/
def schemaKeyBasename (token : String) : String :=
  beforeSep ',' token

/-- `_schema_token_is_slow_tier`: one of the options is `R=S`. -/
def schemaTokenIsSlowTier (token : String) : Bool :=
  (splitSep ',' token).tail.contains "R=S"

/-- `_fast_schema_keys`. -/
def fastSchemaKeys (fullEvents : List String) : List String :=
  fullEvents.filter fun e => !schemaTokenIsSlowTier e

/-- One option of a token.  A `U=` option keeps the multiplier when it has no digit, and
replaces the unit by its letters, also by none. -/
def applyOption (col : SchemaColumn) (ele : String) : Except PyError SchemaColumn := do
  let wid ←
    if contains "W=" ele then orValueError (pyInt (lstripChars ['W', '='] ele)) else .ok col.wid
  if contains "U=" ele then
    let rest := lstripChars ['U', '='] ele
    let mult :=
      match pyFloat (filterChars Char.isDigit rest) with
      | some (.fin q) => q
      | _ => col.mult
    .ok { col with wid, mult, unit := filterChars Char.isAlpha rest }
  else .ok { col with wid }

/-- `_compile_schema_token`. -/
def compileSchemaToken (token : String) : Except PyError SchemaColumn :=
  (splitSep ',' token).tail.foldlM applyOption
    ⟨(splitSep ',' token).headD "", 64, 1, "#"⟩

/-- `_compile_schema_tokens`. -/
def compileSchemaTokens (tokens : List String) : Except PyError (List SchemaColumn) :=
  tokens.mapM compileSchemaToken

example : compileSchemaToken "CAS_READS,W=48,U=64B" = .ok ⟨"CAS_READS", 48, 64, "B"⟩ := by
  decide

/-! ## Legacy counters -/

/-- `REMOVED_LEGACY_SYMBOLS`. -/
def removedLegacySymbols : List String :=
  ["host_ib_ext", "host_ib_sw", "host_mic", "intel_knl", "intel_knl_edc", "intel_knl_mc",
    "intel_x86_pmc_knl", "intel_x86_uncore_edc_knl", "intel_x86_uncore_mc_knl", "amd_x86_pmc",
    "amd_x86_uncore_df", "CTL0", "CTL1", "CTL2", "CTL3", "CTL4", "CTL5", "CTL6", "CTL7", "CTR0",
    "CTR1", "CTR2", "CTR3", "CTR4", "CTR5", "CTR6", "CTR7", "FIXED_CTR", "FIXED_CTR0",
    "FIXED_CTR1", "FIXED_CTR2"]

/-- An event map: by the value of a control register, and by the name of a fixed counter. -/
structure Eventmap where
  byControl : List (ℤ × String)
  byFixed : List (String × String)

def amd64PmcEventmap : Eventmap where
  byControl :=
    [(0x43FF03, "FLOPS,W=48"), (0x4300C2, "BRANCH_INST_RETIRED,W=48"),
      (0x4300C3, "BRANCH_INST_RETIRED_MISS,W=48"), (0x4308AF, "DISPATCH_STALL_CYCLES1,W=48"),
      (0x43FFAE, "DISPATCH_STALL_CYCLES0,W=48")]
  byFixed := []

def amd64DfEventmap : Eventmap where
  byControl :=
    [(0x403807, "MBW_CHANNEL_0,W=48,U=64B"), (0x403847, "MBW_CHANNEL_1,W=48,U=64B"),
      (0x403887, "MBW_CHANNEL_2,W=48,U=64B"), (0x4038C7, "MBW_CHANNEL_3,W=48,U=64B"),
      (0x433907, "MBW_CHANNEL_4,W=48,U=64B"), (0x433947, "MBW_CHANNEL_5,W=48,U=64B"),
      (0x433987, "MBW_CHANNEL_6,W=48,U=64B"), (0x4339C7, "MBW_CHANNEL_7,W=48,U=64B")]
  byFixed := []

def intel8Pmc3Eventmap : Eventmap where
  byControl :=
    [(0x4301C7, "FP_ARITH_INST_RETIRED_SCALAR_DOUBLE,W=48,U=1"),
      (0x4302C7, "FP_ARITH_INST_RETIRED_SCALAR_SINGLE,W=48,U=1"),
      (0x4304C7, "FP_ARITH_INST_RETIRED_128B_PACKED_DOUBLE,W=48,U=2"),
      (0x4308C7, "FP_ARITH_INST_RETIRED_128B_PACKED_SINGLE,W=48,U=4"),
      (0x4310C7, "FP_ARITH_INST_RETIRED_256B_PACKED_DOUBLE,W=48,U=4"),
      (0x4320C7, "FP_ARITH_INST_RETIRED_256B_PACKED_SINGLE,W=48,U=8"),
      (0x4340C7, "FP_ARITH_INST_RETIRED_512B_PACKED_DOUBLE,W=48,U=8"),
      (0x4380C7, "FP_ARITH_INST_RETIRED_512B_PACKED_SINGLE,W=48,U=16"),
      (0x438010, "SSE_DOUBLE_SCALAR,W=48,U=1"), (0x431010, "SSE_DOUBLE_PACKED,W=48,U=2"),
      (0x430211, "SIMD_DOUBLE_256,W=48,U=4"), (0x439010, "SSE_DOUBLE_ALL,W=48,U=1")]
  byFixed :=
    [("FIXED_CTR0", "INST_RETIRED,W=48"), ("FIXED_CTR1", "APERF,W=48"),
      ("FIXED_CTR2", "MPERF,W=48")]

def intelSkxImcEventmap : Eventmap where
  byControl :=
    [(0x400304, "CAS_READS,W=48"), (0x400C04, "CAS_WRITES,W=48"), (0x400B01, "ACT_COUNT,W=48"),
      (0x400102, "PRE_COUNT_MISS,W=48")]
  byFixed := []

/-- The map of the SNB, IVB, HSW and BDW memory controllers. -/
def intelSnbImcEventmap : Eventmap where
  byControl := [(0x400304, "CAS_READS,W=48"), (0x400B04, "CAS_WRITES,W=48")]
  byFixed := []

def intelKnlMcDclkEventmap : Eventmap where
  byControl := [(0x300301, "CAS_READS,W=48"), (0x300309, "CAS_WRITES,W=48")]
  byFixed := []

/-- `EVENTMAPS_BY_TYPE`; its keys are also `LEGACY_HARDWARE_DECODE_TYPES`. -/
def eventmapsByType : List (String × Eventmap) :=
  [("amd64_pmc", amd64PmcEventmap), ("amd64_df", amd64DfEventmap),
    ("intel_8pmc3", intel8Pmc3Eventmap), ("intel_4pmc3", intel8Pmc3Eventmap),
    ("intel_snb_imc", intelSnbImcEventmap), ("intel_ivb_imc", intelSnbImcEventmap),
    ("intel_hsw_imc", intelSnbImcEventmap), ("intel_bdw_imc", intelSnbImcEventmap),
    ("intel_knl_mc_dclk", intelKnlMcDclkEventmap), ("intel_knl_mc", intelKnlMcDclkEventmap),
    ("intel_skx_imc", intelSkxImcEventmap)]

def legacyHardwareDecodeTypes : List String :=
  eventmapsByType.map Prod.fst

/-- `schema_needs_legacy_hardware_decode`. -/
def schemaNeedsLegacyHardwareDecode (typ : String) (schemaEvents : List String) : Bool :=
  schemaEvents.any (fun token =>
      let base := schemaKeyBasename token
      removedLegacySymbols.contains base || contains "CTL" base || contains "CTR" base
        || contains "FIXED_CTR" base)
    || legacyHardwareDecodeTypes.contains typ

/-- `legacy_output_type`. -/
def legacyOutputType (typ : String) : String :=
  if typ = "intel_knl_mc" then "intel_knl_mc_dclk" else typ

/-- What `map_hardware_counter_vals` has collected: the event that each control register
selects, the positions of the control registers and the event names. -/
structure CounterNames where
  selected : List (String × String)
  controls : List ℕ
  names : List String

/-- One schema event of `map_hardware_counter_vals`. -/
def nameCounter (eventmap : Eventmap) (vals : List String) (acc : CounterNames)
    (idx : ℕ) (event : String) : Except PyError CounterNames :=
  let eve := schemaKeyBasename event
  if contains "CTL" eve then
    let name :=
      ((vals[idx]?).bind pyInt).bind fun v => eventmap.byControl.lookup v
    .ok { acc with
      selected := PyDict.set acc.selected (lstripChars ['C', 'T', 'L'] eve) (name.getD "OTHER")
      controls := acc.controls ++ [idx] }
  else if contains "FIXED_CTR" eve then
    match eventmap.byFixed.lookup eve with
    | some name => .ok { acc with names := acc.names ++ [name] }
    | none => .error .keyError
  else if contains "CTR" eve then
    match acc.selected.lookup (lstripChars ['C', 'T', 'R'] eve) with
    | some name => .ok { acc with names := acc.names ++ [name] }
    | none => .error .keyError
  else .ok { acc with names := acc.names ++ [eve] }

/-- The values without those of the control registers; a missing one is an `IndexError`. -/
def dropControls (controls : List ℕ) (vals : List String) : Except PyError (List String) :=
  if controls.all (· < vals.length) then
    .ok ((vals.zipIdx.filter fun v => !controls.contains v.2).map Prod.fst)
  else .error .indexError

/-- `map_hardware_counter_vals`. -/
def mapHardwareCounterVals (schemaEvents vals : List String) (eventmap : Eventmap) :
    Except PyError (List (String × String)) := do
  let named ← schemaEvents.zipIdx.foldlM
    (fun acc e => nameCounter eventmap vals acc e.2 e.1) ⟨[], [], []⟩
  let kept ← dropControls named.controls vals
  .ok (PyDict.ofPairs (named.names.zip kept))

/-- `decode_counter_line`; `none`: the line is skipped. -/
def decodeCounterLine (typ : String) (schemaEvents vals : List String) :
    Except PyError (Option (List (String × String))) :=
  match eventmapsByType.lookup typ with
  | none => .ok none
  | some eventmap => (mapHardwareCounterVals schemaEvents vals eventmap).map some

end StatsSchema
