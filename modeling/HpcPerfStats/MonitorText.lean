/-
# The text of the monitor

What the monitor writes: `stats_wr_hdr` the `$` banner and a `!` schema line for each enabled type,
`stats_buffer_collect` a sample, which is a blank line, a header line, the `%` lines of the mark and a
row for each device of each enabled type.

A row is `type device values`, separated by blanks and without quoting.  With two tiers of collection
a row is marked `@full` or `@fast`; a fast row has no values for the keys of the slow tier, which the
schema line marks `R=S`.

A row is formatted into a line buffer and, when it does not fit there, piece by piece: the text is the
same.  The keys, the units and the type names are those of static tables; what the tables guarantee is
part of `SchemaEntry` and `StatsType`.  The job id and the node name are single words.  Device names are
what a collector has found.
-/
import HpcPerfStats.RingBuffer
import HpcPerfStats.TokenText

namespace MonitorText

open PyText TokenText

/-! ## Schemas -/

/-- `se_type`. -/
inductive EntryKind where
  | plain
  | control
  | event
  deriving DecidableEq

/-- `stats_format_append_type_flag`. -/
def kindOptions : EntryKind → List String
  | .plain => []
  | .control => ["C"]
  | .event => ["E"]

/-- The options behind a key: the kind, the unit, the width of a counter and the slow tier. -/
def entryOptions (kind : EntryKind) (unit : Option String) (width : ℕ) (slow : Bool) : List String :=
  kindOptions kind ++ unit.toList.map ("U=" ++ ·) ++ (if width ≠ 0 then ["W=" ++ toString width] else [])
    ++ if slow = true then ["R=S"] else []

/-- `stats_format_schema_entry_suffix`, as long as it fits its buffer. -/
def formatSchemaEntrySuffix (kind : EntryKind) (unit : Option String) (width : ℕ) (slow : Bool) :
    String :=
  ledBy ',' (entryOptions kind unit width slow)

/-- `struct schema_entry`. -/
structure SchemaEntry where
  key : String
  kind : EntryKind
  unit : Option String
  width : ℕ
  slow : Bool
  isToken : IsToken key
  key_plain : ',' ∉ key.toList
  unit_plain : (((unit.getD "").toList.all fun c => !isSpace c && c != ',' && c != '=')) = true
  fits : (formatSchemaEntrySuffix kind unit width slow).length < 96

def SchemaEntry.options (e : SchemaEntry) : List String :=
  entryOptions e.kind e.unit e.width e.slow

/-- `stats_format_emit_one_schema_entry`, without the blank in front. -/
def SchemaEntry.token (e : SchemaEntry) : String :=
  e.key ++ formatSchemaEntrySuffix e.kind e.unit e.width e.slow

/-- `struct stats_type`. -/
structure StatsType where
  name : String
  schema : List SchemaEntry
  isToken : IsToken name
  isAlpha : (name.toList.head?.any Char.isAlpha) = true
  schema_ne_nil : schema ≠ []

def StatsType.tokens (t : StatsType) : List String := t.schema.map SchemaEntry.token

/-- `stats_format_emit_schema_line`. -/
def schemaLine (t : StatsType) : String := "!" ++ t.name ++ spaced t.tokens

/-- What `stats_format_emit_property_banner` prints. -/
structure Banner where
  prog : String
  vers : String
  nodename : String
  sysname : String
  machine : String
  release : String
  version : String
  uptime : ℕ
  slug : String
  one_line : ∀ s ∈ [prog, vers, nodename, sysname, machine, release, version, slug],
    '\n' ∉ s.toList

/-- `stats_format_emit_property_banner`. -/
def propertyLines (b : Banner) : List String :=
  ["$" ++ b.prog ++ " " ++ b.vers, "$hostname " ++ b.nodename,
    "$uname " ++ b.sysname ++ " " ++ b.machine ++ " " ++ b.release ++ " " ++ b.version,
    "$uptime " ++ toString b.uptime] ++ if b.slug = "" then [] else ["$build " ++ b.slug]

/-- `stats_wr_hdr`. -/
def statsWrHdr (types : List StatsType) (b : Banner) : String :=
  unlines (propertyLines b ++ types.map schemaLine)

/-! ## Rows -/

/-- Values that a float holds exactly. -/
abbrev Value : Type := {v : ℕ // v < 2 ^ 53}

/-- `struct stats`: a device with its values by the index of the key. -/
structure Stats where
  dev : String
  val : ℕ → Value

/-- `enum stats_row_tier`. -/
inductive RowTier where
  | legacy
  | full
  | fast
  deriving DecidableEq

/-- `enum collect_phase`. -/
inductive CollectPhase where
  | full
  | fast
  deriving DecidableEq

/-- `stats_buffer_row_tier_decide`. -/
def rowTierDecide (isSchemaPayload tierEnabled : Bool) (phase : CollectPhase) : RowTier :=
  if tierEnabled = false then .legacy
  else if isSchemaPayload = true ∨ phase = .full then .full
  else .fast

/-- `stats_format_row_tier_token`. -/
def rowTierTokens : RowTier → List String
  | .legacy => []
  | .full => ["@full"]
  | .fast => ["@fast"]

/-- `stats_format_row_key_emitted`. -/
def rowKeyEmitted (tier : RowTier) (e : SchemaEntry) : Bool :=
  tier != .fast || !e.slow

/-- The keys and values of a row. -/
def emitted (t : StatsType) (st : Stats) (tier : RowTier) : List (String × ℕ) :=
  (t.schema.zipIdx.filter fun p => rowKeyEmitted tier p.1).map fun p => (p.1.key, (st.val p.2).val)

/-- `stats_format_snprintf_stats_row_tier`. -/
def statsRow (t : StatsType) (st : Stats) (tier : RowTier) : String :=
  t.name ++ " " ++ st.dev ++ spaced (rowTierTokens tier) ++
    spaced ((emitted t st tier).map fun kv => toString kv.2)

/-! ## Samples -/

/-- What `stats_buffer_collect` writes a sample of: the clock as it is printed, in microseconds, the job
id, the node, the mark, the devices of each type that pass the row filter, and the collection tier. -/
structure Sample where
  micros : ℕ
  jobid : String
  nodename : String
  mark : String
  devices : StatsType → List Stats
  tierEnabled : Bool
  phase : CollectPhase
  jobid_isToken : IsToken jobid
  nodename_isToken : IsToken nodename

/-- The six digits behind the point of `%f`. -/
def sixDigits (k : ℕ) : String :=
  String.ofList ([k / 100000, k / 10000, k / 1000, k / 100, k / 10, k].map fun d =>
    Nat.digitChar (d % 10))

/-- `%f` of the clock. -/
def formatTime (micros : ℕ) : String :=
  toString (micros / 1000000) ++ "." ++ sixDigits micros

def headerLine (s : Sample) : String :=
  formatTime s.micros ++ " " ++ s.jobid ++ " " ++ s.nodename

/-- The lines of a mark: what is behind its last newline is a line when it is not empty. -/
def markParts (mark : String) : List String :=
  let parts := splitSep '\n' mark
  if parts.getLast? = some "" then parts.dropLast else parts

/-- `stats_format_emit_mark_multiline`. -/
def markLines (s : Sample) : List String := (markParts s.mark).map ("%" ++ ·)

/-- `stats_buffer_is_schema_payload` for what a buffer holds. -/
def isSchemaPayload (data : String) : Bool := RingBuffer.isSchemaPayload ⟨some data.toList⟩

/-- `stats_buffer_append_enabled_type_rows`. -/
def enabledTypeRows (types : List StatsType) (s : Sample) (tier : RowTier) : List String :=
  types.flatMap fun t => (s.devices t).map fun st => statsRow t st tier

/-- `stats_buffer_collect`, behind what the buffer holds. -/
def statsBufferCollect (types : List StatsType) (data : String) (s : Sample) : String :=
  let data := data ++ unlines (["", headerLine s] ++ markLines s)
  data ++ unlines (enabledTypeRows types s
    (rowTierDecide (isSchemaPayload data) s.tierEnabled s.phase))

/-- A payload: a sample, with the header in front of it or not. -/
structure Payload where
  banner : Option Banner
  sample : Sample

/-- The buffer when the sample is collected. -/
def Payload.hdr (types : List StatsType) (x : Payload) : String :=
  match x.banner with
  | none => ""
  | some b => statsWrHdr types b

def Payload.text (types : List StatsType) (x : Payload) : String :=
  statsBufferCollect types (x.hdr types) x.sample

/-- What the monitor writes in a run. -/
def monitorText (types : List StatsType) : List Payload → String
  | [] => ""
  | x :: xs => x.text types ++ monitorText types xs

/-! ## The text by lines -/

/-- The tier of the rows of a payload. -/
def Payload.tier (types : List StatsType) (x : Payload) : RowTier :=
  rowTierDecide (isSchemaPayload
    (x.hdr types ++ unlines (["", headerLine x.sample] ++ markLines x.sample)))
    x.sample.tierEnabled x.sample.phase

def Payload.hdrLines (types : List StatsType) (x : Payload) : List String :=
  match x.banner with
  | none => []
  | some b => propertyLines b ++ types.map schemaLine

def Payload.sampleLines (types : List StatsType) (x : Payload) : List String :=
  ["", headerLine x.sample] ++ markLines x.sample ++
    enabledTypeRows types x.sample (x.tier types)

def Payload.lines (types : List StatsType) (x : Payload) : List String :=
  x.hdrLines types ++ x.sampleLines types

theorem Payload.text_eq (types : List StatsType) (x : Payload) :
    x.text types = unlines (x.lines types) := by
  have hhdr : x.hdr types = unlines (x.hdrLines types) := by
    unfold Payload.hdr Payload.hdrLines
    cases x.banner with
    | none => rfl
    | some b => rfl
  show x.hdr types ++ unlines (["", headerLine x.sample] ++ markLines x.sample) ++
    unlines (enabledTypeRows types x.sample (x.tier types)) =
      unlines (x.hdrLines types ++ x.sampleLines types)
  rw [unlines_append (x.hdrLines types), Payload.sampleLines,
    unlines_append (["", headerLine x.sample] ++ markLines x.sample), ← hhdr, String.append_assoc]

/-- **The text of a run is made of the lines of its payloads.** -/
theorem monitorText_eq (types : List StatsType) (run : List Payload) :
    monitorText types run = unlines (run.flatMap fun x => x.lines types) := by
  induction run with
  | nil => rfl
  | cons x xs ih =>
      rw [monitorText, List.flatMap_cons, unlines_append, ih, x.text_eq]

end MonitorText
