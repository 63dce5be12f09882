/-
# Streaming a stats file in chunks

`parse_stats_file_streaming` feeds a whole file to one parser.
`parse_stats_file_streaming_incremental` hands the rows over in chunks, cut in front of a
sample header when a limit on rows or bytes is reached.  It has two paths:

* with one parser for the whole file, whose buffers are emptied at a cut (`parserLoop`)
* with windows of lines, for the Codon kernel (`windowLoop`): each window is parsed by the
  kernel, or by a fresh parser when the kernel gives nothing, behind all schema lines read
  so far

The first path always gives the rows of the one-shot parse.  On the second a window is read
from the state that the hoisted schema lines give, which is not the state of the one-shot
parser: `lineAlike` says for one line when the difference does not matter, and
`chunks_flatten` that the rows are the same when every line of every window meets it.

The side tables of the marks are left out; they play no part for the rows.
-/
import Mathlib.Algebra.GroupWithZero.Nat
import HpcPerfStats.Lockstep
import HpcPerfStats.StatsParser

namespace StreamingParse

open PyText StatsSchema MonitorMarks StatsParser Lockstep

/-! ## The two parses -/

/-- The arguments of a streaming parse, and whether the Codon kernel is enabled. -/
structure Config where
  startLineIdx : ℕ
  parseStartIdx : ℕ
  flushRows : Option ℤ
  flushMaxBytes : Option ℤ
  lineBatchSize : ℕ
  excludeTypesList : Option (List String)
  codonIngestParseEnabled : Bool

namespace Config

variable (cfg : Config)

def emissionStart : ℕ :=
  max cfg.startLineIdx cfg.parseStartIdx

/-- `max(1, int(flush_rows or 1))`. -/
def flushRowsN : ℤ :=
  max 1 (cfg.flushRows.getD 1)

/-- `max(1, int(flush_max_bytes or 1))`. -/
def flushBytesN : ℤ :=
  max 1 (cfg.flushMaxBytes.getD 1)

/-- The limit on a window of `rows` rows and `bytes` bytes is reached. -/
def overThreshold (rows : ℕ) (bytes : ℤ) : Bool :=
  if cfg.flushMaxBytes.isSome then cfg.flushBytesN ≤ bytes else cfg.flushRowsN ≤ rows

def excludeTypes : List String :=
  cfg.excludeTypesList.getD defaultExcludeTypes

/-- `codon_primary`. -/
def codonPrimary : Bool :=
  cfg.emissionStart == 0 && cfg.excludeTypesList.isNone && cfg.codonIngestParseEnabled

def freshParser : Parser :=
  Parser.init cfg.emissionStart cfg.excludeTypes

end Config

/-- `parse_stats_file_streaming`: the hardware rows of the whole file. -/
def parseStatsFileStreaming (cfg : Config) (lines : List String) : Except PyError (List Row) :=
  (cfg.freshParser.feedLines lines).map Parser.rows

/-- The lines that are read, each with the file offset behind its batch. -/
def readBatches (cfg : Config) (lines : List String) : List (String × ℕ) :=
  if cfg.lineBatchSize = 0 then []
  else lines.zipIdx.map fun li =>
    (li.1, ((lines.take ((li.2 / cfg.lineBatchSize + 1) * cfg.lineBatchSize)).map
      String.length).sum)

/-- `_line_starts_time_sample`. -/
def lineStartsTimeSample (line : String) (lineIndex startIdx : ℕ) : Bool :=
  match (lstrip line).toList.head? with
  | none => false
  | some c => c.isDigit && decide (startIdx ≤ lineIndex)

/-! ## One parser for the whole file -/

/-- The variables of the path with one parser. -/
structure Stream where
  parser : Parser
  pendingFlush : Bool
  windowStart : ℕ

/-- `take_stats_columns` and `take_proc_stats_columns`. -/
def takeColumns (p : Parser) : Parser :=
  { p with rows := [], procs := [] }

/-- Something is buffered. -/
def hasRows (p : Parser) : Bool :=
  !p.rows.isEmpty || !p.procs.isEmpty

/-- A sample header behind the limit. -/
def Stream.cutsBefore (cfg : Config) (st : Stream) (line : String) (batchEnd : ℕ) : Bool :=
  lineStartsTimeSample line st.parser.lineIndex st.parser.startIdx
    && (st.pendingFlush
      || cfg.overThreshold st.parser.rows.length ((batchEnd : ℤ) - st.windowStart))

/-- The state behind a cut, and the chunk that is handed over. -/
def Stream.cut (st : Stream) (batchEnd : ℕ) : Stream × List (List Row) :=
  if hasRows st.parser then
    (⟨takeColumns st.parser, false, batchEnd⟩, [st.parser.rows])
  else (⟨st.parser, false, st.windowStart⟩, [])

/-- The path with one parser. -/
def parserLoop (cfg : Config) : Stream → List (String × ℕ) → Except PyError (List (List Row))
  | st, [] => .ok (if hasRows st.parser then [st.parser.rows] else [])
  | st, (line, batchEnd) :: rest => do
      let (st, emit) := if st.cutsBefore cfg line batchEnd then st.cut batchEnd else (st, [])
      let parser ← st.parser.feedLine line
      let pending := st.pendingFlush
        || cfg.overThreshold parser.rows.length ((batchEnd : ℤ) - st.windowStart)
      let chunks ← parserLoop cfg ⟨parser, pending, st.windowStart⟩ rest
      .ok (emit ++ chunks)

/-! ## Windows for the kernel -/

/-- A line that is kept apart as a schema line; the raw line is tested. -/
def isSchemaLine (line : String) : Bool :=
  startsWith "!" line

/-- The variables of the window path. -/
structure Window where
  schemaLines : List String
  windowLines : List String
  windowSampleN : ℕ
  pendingFlush : Bool
  windowStart : ℕ

/-- The kernel: the hardware rows of the lines, or nothing. -/
abbrev Kernel : Type :=
  List String → Option (List Row)

/-- `_emit_codon_or_cpython_window`: the chunk of a window, if there is one. -/
def emitWindow (cfg : Config) (codon : Kernel) (st : Window) :
    Except PyError (List (List Row)) :=
  match codon (st.schemaLines ++ st.windowLines) with
  | some rows => .ok [rows]
  | none => do
      let p ← (Parser.init 0 cfg.excludeTypes).feedLines (st.schemaLines ++ st.windowLines)
      .ok (if hasRows p then [p.rows] else [])

/-- A sample header behind the limit, with lines in the window. -/
def Window.cutsBefore (cfg : Config) (st : Window) (line : String) (batchEnd : ℕ) : Bool :=
  lineStartsTimeSample line 0 0
    && (st.pendingFlush
      || cfg.overThreshold st.windowSampleN ((batchEnd : ℤ) - st.windowStart))
    && !st.windowLines.isEmpty

def Window.cut (st : Window) (batchEnd : ℕ) : Window :=
  ⟨st.schemaLines, [], 0, false, batchEnd⟩

/-- A line joins the schema lines or the window. -/
def Window.push (cfg : Config) (st : Window) (line : String) (batchEnd : ℕ) : Window :=
  let samples := st.windowSampleN + if lineStartsTimeSample line 0 0 then 1 else 0
  { schemaLines := if isSchemaLine line then st.schemaLines ++ [line] else st.schemaLines
    windowLines := if isSchemaLine line then st.windowLines else st.windowLines ++ [line]
    windowSampleN := samples
    pendingFlush := st.pendingFlush
      || cfg.overThreshold samples ((batchEnd : ℤ) - st.windowStart)
    windowStart := st.windowStart }

/-- The window path. -/
def windowLoop (cfg : Config) (codon : Kernel) :
    Window → List (String × ℕ) → Except PyError (List (List Row))
  | st, [] => if st.windowLines.isEmpty then .ok [] else emitWindow cfg codon st
  | st, (line, batchEnd) :: rest =>
      if st.cutsBefore cfg line batchEnd then do
        let emit ← emitWindow cfg codon st
        let chunks ← windowLoop cfg codon ((st.cut batchEnd).push cfg line batchEnd) rest
        .ok (emit ++ chunks)
      else windowLoop cfg codon (st.push cfg line batchEnd) rest

/-- `parse_stats_file_streaming_incremental`: the hardware rows of the chunks. -/
def parseStatsFileStreamingIncremental (cfg : Config) (codon : Kernel) (lines : List String) :
    Except PyError (List (List Row)) :=
  if cfg.codonPrimary then windowLoop cfg codon ⟨[], [], 0, false, 0⟩ (readBatches cfg lines)
  else parserLoop cfg ⟨cfg.freshParser, false, 0⟩ (readBatches cfg lines)

/-! ## The path with one parser -/

/-- `p` is in the state of `q`, with `base` in front of its rows; what is buffered of
processes and marks may differ. -/
structure Rebased (base : List Row) (q p : Parser) : Prop where
  startIdx : p.startIdx = q.startIdx
  excludeTypes : p.excludeTypes = q.excludeTypes
  lineIndex : p.lineIndex = q.lineIndex
  schema : p.schema = q.schema
  schemaBare : p.schemaBare = q.schemaBare
  schemaFastBare : p.schemaFastBare = q.schemaFastBare
  tags : p.tags = q.tags
  armShared : p.armShared = q.armShared
  sampleShared : p.sampleShared = q.sampleShared
  rows : p.rows = base ++ q.rows

variable {base : List Row} {q p : Parser}

theorem Rebased.refl (p : Parser) : Rebased [] p p :=
  ⟨rfl, rfl, rfl, rfl, rfl, rfl, rfl, rfl, rfl, (List.nil_append _).symm⟩

theorem Rebased.advance (h : Rebased base q p) : Rebased base q.advance p.advance :=
  { h with lineIndex := congrArg (· + 1) h.lineIndex }

/-- Emptying the buffers moves the rows to the base. -/
theorem Rebased.takeColumns (h : Rebased base q p) :
    Rebased (base ++ q.rows) (takeColumns q) p :=
  { h with rows := h.rows.trans (List.append_nil _).symm }

theorem agree_feedProc {typ dev : String} {vals : List String} {tags : Tags}
    (h : Rebased base q p) :
    Agree (Rebased base) (q.feedProc typ dev vals tags) (p.feedProc typ dev vals tags) := by
  have hkeys : p.procSchemaKeys typ = q.procSchemaKeys typ := by
    rw [Parser.procSchemaKeys, Parser.procSchemaKeys, h.schema]
  have hbare : ∀ fast, (p.procBareKeysFor typ fast).1 = (q.procBareKeysFor typ fast).1
      ∧ Rebased base (q.procBareKeysFor typ fast).2 (p.procBareKeysFor typ fast).2 := by
    intro fast
    simp only [Parser.procBareKeysFor, hkeys, h.schemaBare, h.schemaFastBare, h.schema]
    cases fast with
    | false =>
        simp only [Bool.false_eq_true, if_false]
        cases q.schemaBare.lookup typ with
        | some bare => exact ⟨rfl, h⟩
        | none => exact ⟨rfl, { h with schema := rfl, schemaBare := rfl, schemaFastBare := rfl }⟩
    | true =>
        simp only [if_true]
        cases q.schemaFastBare.lookup typ with
        | some bare => exact ⟨rfl, h⟩
        | none => exact ⟨rfl, { h with schema := rfl, schemaBare := rfl, schemaFastBare := rfl }⟩
  obtain ⟨hfst, hsnd⟩ := hbare ((takeTier vals).1 == some "@fast")
  rw [Parser.feedProc, Parser.feedProc]
  simp only [hfst]
  cases procFields (q.procBareKeysFor typ ((takeTier vals).1 == some "@fast")).1
    (takeTier vals).2 with
  | error e => exact agree_error _ e e
  | ok fields => exact agree_ok { hsnd with }

theorem agree_feedRow {s : String} {tags : Tags} (h : Rebased base q p) :
    Agree (Rebased base) (q.feedRow s tags) (p.feedRow s tags) := by
  rw [Parser.feedRow, Parser.feedRow]
  split
  · rename_i typ dev rest hs
    simp only [h.excludeTypes, h.schema, h.sampleShared]
    split_ifs
    · exact agree_ok h
    · exact agree_feedProc h
    · cases q.schema.lookup typ with
      | none => exact agree_ok h
      | some entry =>
          simp only
          cases hardwareRows entry typ dev (split rest) tags q.sampleShared with
          | error e => exact agree_error _ e e
          | ok rows =>
              have hrows : p.rows ++ rows = base ++ (q.rows ++ rows) := by
                rw [h.rows, List.append_assoc]
              exact agree_ok { h with excludeTypes := rfl, schema := rfl, sampleShared := rfl, rows := hrows }
  · exact agree_error _ _ _

theorem agree_feedHeader {s : String} (h : Rebased base q p) :
    Agree (Rebased base) (q.feedHeader s) (p.feedHeader s) := by
  simp only [Parser.feedHeader, h.armShared]
  split
  · exact agree_ok h
  · rename_i t jid host hid
    cases orValueError (pyFloat t) with
    | error e => exact agree_error _ e e
    | ok time => exact agree_ok { h with tags := rfl, armShared := rfl, sampleShared := rfl }

theorem agree_feedSchema {s : String} (h : Rebased base q p) :
    Agree (Rebased base) (q.feedSchema s) (p.feedSchema s) := by
  rw [Parser.feedSchema, Parser.feedSchema]
  split
  · rename_i label events hs
    simp only [h.schema, h.schemaBare, h.schemaFastBare]
    cases schemaEntry (split events) with
    | error e => exact agree_error _ e e
    | ok entry => exact agree_ok { h with schema := rfl, schemaBare := rfl, schemaFastBare := rfl }
  · exact agree_error _ _ _

theorem rebased_notePercentMark {line : String} (h : Rebased base q p) :
    Rebased base (q.notePercentMark (lstrip line)) (p.notePercentMark (lstrip line)) := by
  rw [notePercentMark_effect, notePercentMark_effect]
  cases markOf (lstrip line) with
  | none => exact h
  | some body =>
      have hshared : (p.sampleState.addMark body).sampleShared
          = (q.sampleState.addMark body).sampleShared := by
        simp only [SampleState.addMark, Parser.sampleState, h.tags, h.sampleShared]
      have harm : (p.sampleState.addMark body).armShared
          = (q.sampleState.addMark body).armShared := by
        simp only [SampleState.addMark, Parser.sampleState, h.armShared]
      exact { h with armShared := harm, sampleShared := hshared }

/-- **One line.**  What a line does does not depend on what is buffered. -/
theorem agree_feedLine (line : String) (h : Rebased base q p) :
    Agree (Rebased base) (q.feedLine line) (p.feedLine line) := by
  cases hc : (lstrip line).toList.head? with
  | none =>
      rw [feedLine_of_blank hc, feedLine_of_blank hc]
      exact agree_ok h.advance
  | some c =>
      by_cases hrow : c.isAlpha = true ∧ q.tags ≠ none
      · obtain ⟨ha, ht⟩ := hrow
        obtain ⟨tags, ht⟩ := Option.ne_none_iff_exists'.mp ht
        rw [feedLine_of_row hc ha ht, feedLine_of_row hc ha (h.tags.trans ht)]
        exact agree_feedRow h.advance
      · have hother : c.isAlpha = false ∨ q.tags = none := by
          by_cases ha : c.isAlpha = true
          · exact Or.inr (by_contra fun ht => hrow ⟨ha, ht⟩)
          · exact Or.inl (by simpa using ha)
        rw [feedLine_of_other hc hother, feedLine_of_other hc (by rw [h.tags]; exact hother),
          h.startIdx, h.lineIndex]
        split_ifs
        · exact agree_feedHeader h.advance
        · exact agree_feedSchema h.advance
        · exact agree_ok (rebased_notePercentMark h.advance)
        · exact agree_ok h.advance

theorem rows_of_not_hasRows {p : Parser} (h : ¬ hasRows p = true) : p.rows = [] := by
  simp only [hasRows, Bool.or_eq_true, Bool.not_eq_true', List.isEmpty_eq_false_iff, not_or,
    not_not] at h
  exact h.1

/-- **The path with one parser** hands over the rows of the one-shot parse. -/
theorem agree_parserLoop (cfg : Config) (lines : List (String × ℕ)) :
    ∀ (st : Stream) (base : List Row) (p : Parser), Rebased base st.parser p →
      Agree (fun chunks p' => base ++ chunks.flatten = p'.rows) (parserLoop cfg st lines)
        (p.feedLines (lines.map Prod.fst)) := by
  induction lines with
  | nil =>
      intro st base p h
      apply agree_ok
      show base ++ (if hasRows st.parser = true then [st.parser.rows] else []).flatten = p.rows
      rw [h.rows]
      split_ifs with hr
      · simp
      · simp [rows_of_not_hasRows hr]
  | cons x rest ih =>
      intro st base p h
      obtain ⟨line, batchEnd⟩ := x
      rw [parserLoop, List.map_cons, Parser.feedLines, List.foldlM_cons]
      -- a cut only moves rows from the buffer to the chunks
      obtain ⟨st', emit, base', hcut, h', hbase⟩ : ∃ st' emit base',
          (if st.cutsBefore cfg line batchEnd then st.cut batchEnd else (st, [])) = (st', emit)
            ∧ Rebased base' st'.parser p ∧ base' = base ++ emit.flatten := by
        split_ifs with hc
        · rw [Stream.cut]
          split_ifs with hr
          · exact ⟨_, _, _, rfl, h.takeColumns, by simp⟩
          · exact ⟨_, _, base, rfl, h, by simp⟩
        · exact ⟨st, [], base, rfl, h, by simp⟩
      rw [hcut]
      apply (agree_feedLine line h').bind
      intro q' p' hline
      rcases (ih ⟨q', st'.pendingFlush || cfg.overThreshold q'.rows.length
        ((batchEnd : ℤ) - st'.windowStart), st'.windowStart⟩ base' p' hline).cases with
        ⟨chunks, last, hloop, hfeed, hrows⟩ | ⟨e, d, hloop, hfeed⟩
      · have hall : base ++ (emit ++ chunks).flatten = last.rows := by
          rw [← hrows, hbase, List.flatten_append, List.append_assoc]
        simp only [hloop]
        rw [Parser.feedLines] at hfeed
        rw [hfeed]
        exact agree_ok hall
      · simp only [hloop]
        rw [Parser.feedLines] at hfeed
        rw [hfeed]
        exact agree_error _ e d

/-! ## When a window is read alike

`q` is the parser of the window before a line and `p` the one-shot parser before it. -/

/-- A data row of the open sample `tags`: the window has the sample open, the entry of its
type and the stamp of its device are the same, or neither side emits a row. -/
def rowAlike (q p : Parser) (tags : Tags) (s : String) : Bool :=
  match splitMax 2 s with
  | [typ, dev, rest] =>
      if p.excludeTypes.contains typ then true
      else if typ = "proc" ∨ typ = "host_proc" then
        q.tags.isNone || q.procReadable typ (split rest)
      else
        match p.schema.lookup typ with
        | some entry =>
            q.tags == some tags && q.schema.lookup typ == some entry
              && sharedRowDev dev (outputType typ entry) tags.jid q.sampleShared
                == sharedRowDev dev (outputType typ entry) tags.jid p.sampleShared
        | none => q.tags.isNone || (q.schema.lookup typ).isNone
  | _ => true

/-- **The condition on one line of a window.** -/
def lineAlike (q p : Parser) (line : String) : Bool :=
  match (lstrip line).toList.head?, p.tags with
  | some c, some tags => !c.isAlpha || rowAlike q p tags (lstrip line)
  | _, _ => true

/-- The parser of a window skips the schema lines, which it has read in front. -/
def feedUnhoisted (q : Parser) (line : String) : Except PyError Parser :=
  if isSchemaLine line then .ok q else q.feedLine line

/-- Every line of the window `w` is read alike, from the state behind the hoisted schema lines
on one side and from the one-shot parser `p` on the other. -/
def WindowAlike (cfg : Config) (schemaLines : List String) (p : Parser) (w : List String) :
    Prop :=
  match (Parser.init 0 cfg.excludeTypes).feedLines schemaLines with
  | .ok q => AlongBoth feedUnhoisted Parser.feedLine (fun q p line => lineAlike q p line = true)
      q p w
  | .error _ => True

/-- The condition for all windows: `p` is the one-shot parser at the start of the current
window and `w` the lines read since. -/
def WindowsAlike (cfg : Config) : Window → Parser → List String → List (String × ℕ) → Prop
  | st, p, w, [] => WindowAlike cfg st.schemaLines p w
  | st, p, w, (line, batchEnd) :: rest =>
      if st.cutsBefore cfg line batchEnd then
        WindowAlike cfg st.schemaLines p w ∧
          match p.feedLines w with
          | .ok p' => WindowsAlike cfg ((st.cut batchEnd).push cfg line batchEnd) p' [line] rest
          | .error _ => True
      else WindowsAlike cfg (st.push cfg line batchEnd) p (w ++ [line]) rest

/-- The rows of the one-shot parser are those in front of the window and those of the
window. -/
structure Follows (base : List Row) (q p : Parser) : Prop where
  startIdx : p.startIdx = 0
  startIdx' : q.startIdx = 0
  excludeTypes : q.excludeTypes = p.excludeTypes
  opened : p.tags = none → q.tags = none
  rows : p.rows = base ++ q.rows

/-- Headers and schema lines are read or rejected in every state. -/
theorem feedHeader_ok {s : String} {p p' : Parser} (q : Parser) (h : p.feedHeader s = .ok p') :
    ∃ q', q.feedHeader s = .ok q' := by
  rw [Parser.feedHeader] at h ⊢
  split at h
  · exact ⟨_, rfl⟩
  · rename_i t jid host hid
    obtain ⟨time, htime, -⟩ := bind_ok h
    rw [htime]
    exact ⟨_, rfl⟩

theorem feedSchema_ok {s : String} {p p' : Parser} (q : Parser) (h : p.feedSchema s = .ok p') :
    ∃ q', q.feedSchema s = .ok q' := by
  rw [Parser.feedSchema] at h ⊢
  split at h
  · obtain ⟨entry, hentry, -⟩ := bind_ok h
    simp only [hentry]
    exact ⟨_, rfl⟩
  · cases h

theorem feedRow_ok {s : String} {q : Parser} {tags : Tags} {rows : List Row}
    (hrows : rowRows q.excludeTypes q.schema tags q.sampleShared s = .ok rows)
    (hproc : ∀ typ dev rest, splitMax 2 s = [typ, dev, rest] →
      q.excludeTypes.contains typ = false → typ = "proc" ∨ typ = "host_proc" →
        q.procReadable typ (split rest) = true) :
    ∃ q', q.feedRow s tags = .ok q' := by
  rw [rowRows] at hrows
  rw [Parser.feedRow]
  split at hrows
  · rename_i typ dev rest hs
    simp only
    by_cases hex : q.excludeTypes.contains typ = true
    · rw [if_pos hex]
      exact ⟨_, rfl⟩
    rw [if_neg hex]
    by_cases hp : typ = "proc" ∨ typ = "host_proc"
    · rw [if_pos hp]
      exact feedProc_ok (hproc typ dev rest hs (by simpa using hex) hp)
    · rw [if_neg hp]
      rw [if_neg (by rintro (hx | hx); exacts [hex hx, hp hx])] at hrows
      cases hentry : q.schema.lookup typ with
      | none => exact ⟨_, rfl⟩
      | some entry =>
          simp only [hentry] at hrows
          simp only [hrows]
          exact ⟨_, rfl⟩
  · cases hrows

/-- A data row under the condition. -/
theorem rowRows_of_alike {s : String} {tags : Tags} {rows : List Row}
    (hc : rowAlike q p tags s = true)
    (hrows : rowRows p.excludeTypes p.schema tags p.sampleShared s = .ok rows) :
    (q.tags = none → rows = [])
      ∧ ∀ t, q.tags = some t → rowRows p.excludeTypes q.schema t q.sampleShared s = .ok rows := by
  rw [rowAlike] at hc
  rw [rowRows] at hrows
  simp only [rowRows]
  split at hrows
  · rename_i typ dev rest hs
    simp only [hs] at hc ⊢
    by_cases hno : p.excludeTypes.contains typ = true ∨ typ = "proc" ∨ typ = "host_proc"
    · rw [if_pos hno] at hrows
      obtain rfl := Except.ok.inj hrows
      exact ⟨fun _ => rfl, fun t _ => if_pos hno⟩
    · rw [if_neg hno] at hrows
      rw [not_or] at hno
      rw [if_neg hno.1, if_neg hno.2] at hc
      simp only [if_neg (not_or.mpr hno)]
      cases hentry : p.schema.lookup typ with
      | none =>
          simp only [hentry] at hrows hc
          obtain rfl := Except.ok.inj hrows
          refine ⟨fun _ => rfl, fun t ht => ?_⟩
          have hq : q.schema.lookup typ = none := by simpa [ht] using hc
          rw [hq]
      | some entry =>
          simp only [hentry, Bool.and_eq_true, beq_iff_eq] at hrows hc
          obtain ⟨⟨htags, hq⟩, hdev⟩ := hc
          refine ⟨fun hnone => ?_, fun t ht => ?_⟩
          · rw [hnone] at htags
            cases htags
          · rw [ht, Option.some.injEq] at htags
            rw [hq, htags, ← hrows]
            simp only [hardwareRows, hdev]
  · cases hrows

/-- Under the condition the window emits the rows of the one-shot parser. -/
theorem lineRows_of_alike {line : String} {rows : List Row} (h : Follows base q p)
    (hc : lineAlike q p line = true)
    (hrows : lineRows p.excludeTypes p.schema p.tags p.sampleShared line = .ok rows) :
    lineRows q.excludeTypes q.schema q.tags q.sampleShared line = .ok rows := by
  rw [h.excludeTypes]
  rw [lineAlike] at hc
  cases hhead : (lstrip line).toList.head? with
  | none =>
      rw [lineRows_of_blank hhead] at hrows ⊢
      exact hrows
  | some c =>
      cases hp : p.tags with
      | none =>
          rw [h.opened hp]
          rw [hp, lineRows_of_untagged] at hrows
          rw [lineRows_of_untagged]
          exact hrows
      | some tags =>
          simp only [hhead, hp, Bool.or_eq_true, Bool.not_eq_true'] at hc
          by_cases ha : c.isAlpha = true
          · have hrow : rowAlike q p tags (lstrip line) = true := by
              rcases hc with hc | hc
              · rw [ha] at hc; cases hc
              · exact hc
            rw [hp, lineRows_of_row hhead ha] at hrows
            obtain ⟨hnone, hsome⟩ := rowRows_of_alike hrow hrows
            cases hq : q.tags with
            | none =>
                rw [hnone hq]
                exact lineRows_of_untagged
            | some t =>
                rw [lineRows_of_row hhead ha]
                exact hsome t hq
          · rw [lineRows_of_not_isAlpha hhead (by simpa using ha)] at hrows ⊢
            exact hrows

/-- What one line does to the open sample. -/
theorem tags_feed (st : SampleState) (line : String) :
    (st.feed true line).tags = if markOf (lstrip line) = none then (headerOf line).or st.tags
      else st.tags := by
  rw [SampleState.feed]
  cases markOf (lstrip line) with
  | some body => rfl
  | none =>
      cases hheader : headerOf line with
      | none => simp
      | some tags => rfl

/-- Both parsers have read a line: the rows follow. -/
theorem follows_of_effect {line : String} {p' q' : Parser} (h : Follows base q p)
    (hc : lineAlike q p line = true) (hp : LineEffect p p' line) (hq : LineEffect q q' line) :
    Follows base q' p' := by
  obtain ⟨rows, hrows, hp'⟩ := hp.rows
  obtain ⟨rows', hrows', hq'⟩ := hq.rows
  rw [lineRows_of_alike h hc hrows] at hrows'
  obtain rfl := Except.ok.inj hrows'
  refine ⟨hp.startIdx.trans h.startIdx, hq.startIdx.trans h.startIdx', ?_, ?_, ?_⟩
  · rw [hp.excludeTypes, hq.excludeTypes, h.excludeTypes]
  · have hpt : p'.tags = (p.sampleState.feed true line).tags := by
      rw [← decide_eq_true (Nat.zero_le p.lineIndex), ← h.startIdx]
      exact congrArg SampleState.tags hp.sample
    have hqt : q'.tags = (q.sampleState.feed true line).tags := by
      rw [← decide_eq_true (Nat.zero_le q.lineIndex), ← h.startIdx']
      exact congrArg SampleState.tags hq.sample
    rw [hpt, hqt, tags_feed, tags_feed]
    split_ifs with hm
    · cases headerOf line with
      | none =>
          rw [Option.none_or, Option.none_or]
          exact h.opened
      | some t => simp
    · exact h.opened
  · rw [hp', hq', h.rows, List.append_assoc]

theorem head?_of_schemaLine {line : String} (hs : isSchemaLine line = true) :
    (lstrip line).toList.head? = some '!' := by
  obtain ⟨r, hr⟩ := List.isPrefixOf_iff_prefix.mp hs
  have hl : line.toList = '!' :: r := hr.symm
  rw [toList_lstrip, hl, List.dropWhile_cons_of_neg (by decide)]
  rfl

/-- A schema line at its place in the file: the one-shot parser emits nothing. -/
theorem effect_of_schemaLine {line : String} {p p' : Parser} (hs : isSchemaLine line = true)
    (hp : LineEffect p p' line) :
    p'.startIdx = p.startIdx ∧ p'.excludeTypes = p.excludeTypes ∧ p'.tags = p.tags
      ∧ p'.rows = p.rows := by
  have hhead := head?_of_schemaLine hs
  obtain ⟨rows, hrows, hp'⟩ := hp.rows
  rw [lineRows_of_not_isAlpha hhead (by decide)] at hrows
  obtain rfl := Except.ok.inj hrows
  have hst := hp.sample
  rw [feed_of_plain _ _ (by simp [hhead]) (headerOf_of_head hhead (by decide))] at hst
  exact ⟨hp.startIdx, hp.excludeTypes, congrArg SampleState.tags hst, by rw [hp', List.append_nil]⟩

/-- A line that the one-shot parser reads is read by the parser of the window. -/
theorem feedLine_ok_of_alike {line : String} {p' : Parser} (h : Follows base q p)
    (hc : lineAlike q p line = true) (hp : p.feedLine line = .ok p') :
    ∃ q', q.feedLine line = .ok q' := by
  obtain ⟨rows, hrows, -⟩ := (feedLine_effect hp).rows
  have hqrows := lineRows_of_alike h hc hrows
  cases hhead : (lstrip line).toList.head? with
  | none => exact ⟨_, feedLine_of_blank hhead⟩
  | some c =>
      by_cases ha : c.isAlpha = true
      · cases hq : q.tags with
        | none =>
            have hd : c.isDigit = false := isAlpha_not_isDigit ha
            rw [feedLine_of_other hhead (Or.inr hq), hd, if_neg (by simp)]
            split_ifs with hbang hpct
            · subst hbang; cases ha
            · exact ⟨_, rfl⟩
            · exact ⟨_, rfl⟩
        | some t =>
            obtain ⟨tags, ht⟩ : ∃ tags, p.tags = some tags := by
              cases hpt : p.tags with
              | none => rw [h.opened hpt] at hq; cases hq
              | some tags => exact ⟨tags, rfl⟩
            rw [feedLine_of_row hhead ha hq]
            rw [hq] at hqrows
            rw [lineRows_of_row hhead ha] at hqrows
            refine feedRow_ok hqrows ?_
            intro typ dev rest hs hex hproc
            simp only [lineAlike, hhead, ht, ha, Bool.not_true, Bool.false_or, rowAlike, hs] at hc
            have hex' : p.excludeTypes.contains typ = false := by
              rw [← h.excludeTypes]
              exact hex
            rw [hex', if_neg Bool.false_ne_true, if_pos hproc, hq] at hc
            rw [procReadable_advance]
            exact hc
      · have ha' : c.isAlpha = false := by simpa using ha
        rw [feedLine_of_other hhead (Or.inl ha'), h.startIdx] at hp
        rw [feedLine_of_other hhead (Or.inl ha'), h.startIdx']
        split_ifs at hp with hd hbang hpct
        · rw [if_pos ⟨Nat.zero_le _, hd.2⟩]
          exact feedHeader_ok _ hp
        · rw [if_neg fun hx => hd ⟨Nat.zero_le _, hx.2⟩, if_pos hbang]
          exact feedSchema_ok _ hp
        · rw [if_neg fun hx => hd ⟨Nat.zero_le _, hx.2⟩, if_neg hbang, if_pos hpct]
          exact ⟨_, rfl⟩
        · rw [if_neg fun hx => hd ⟨Nat.zero_le _, hx.2⟩, if_neg hbang, if_neg hpct]
          exact ⟨_, rfl⟩

/-- **One line of a window.** -/
theorem follows_feedLine (q p p' : Parser) (line : String) (h : Follows base q p)
    (hc : lineAlike q p line = true) (hp : p.feedLine line = .ok p') :
    ∃ q', feedUnhoisted q line = .ok q' ∧ Follows base q' p' := by
  rw [feedUnhoisted]
  split_ifs with hs
  · obtain ⟨h₁, h₂, h₃, h₄⟩ := effect_of_schemaLine hs (feedLine_effect hp)
    exact ⟨q, rfl, h₁.trans h.startIdx, h.startIdx', h.excludeTypes.trans h₂.symm,
      fun hn => h.opened (h₃.symm.trans hn), h₄.trans h.rows⟩
  · obtain ⟨q', hq⟩ := feedLine_ok_of_alike h hc hp
    exact ⟨q', hq, follows_of_effect h hc (feedLine_effect hp) (feedLine_effect hq)⟩

/-! ## Whole windows -/

/-- A schema line that some parser reads. -/
def ReadableSchema (line : String) : Prop :=
  isSchemaLine line = true ∧ ∃ p p' : Parser, p.feedLine line = .ok p'

theorem feedLine_of_schemaLine (p : Parser) {line : String} (hs : isSchemaLine line = true) :
    p.feedLine line = p.advance.feedSchema (lstrip line) := by
  rw [feedLine_of_other (head?_of_schemaLine hs) (Or.inl (by decide)), if_neg (by simp), if_pos rfl]

/-- Hoisted schema lines are read, and nothing is emitted. -/
theorem feedLines_hoisted (lines : List String) : ∀ q : Parser,
    (∀ line ∈ lines, ReadableSchema line) →
      ∃ q', q.feedLines lines = .ok q' ∧ q'.tags = q.tags ∧ q'.rows = q.rows := by
  induction lines with
  | nil =>
      intro q _
      exact ⟨q, rfl, rfl, rfl⟩
  | cons line rest ih =>
      intro q h
      obtain ⟨hs, p, p', hp⟩ := h line List.mem_cons_self
      rw [feedLine_of_schemaLine p hs] at hp
      obtain ⟨u, hu⟩ := feedSchema_ok q.advance hp
      rw [← feedLine_of_schemaLine q hs] at hu
      obtain ⟨-, -, htags, hrows⟩ := effect_of_schemaLine hs (feedLine_effect hu)
      obtain ⟨q', hq', htags', hrows'⟩ := ih u fun l hl => h l (List.mem_cons_of_mem _ hl)
      exact ⟨q', (feedLines_cons line rest).mpr ⟨u, hu, hq'⟩, htags'.trans htags,
        hrows'.trans hrows⟩

theorem foldlM_feedUnhoisted (w : List String) : ∀ q : Parser,
    w.foldlM feedUnhoisted q = q.feedLines (w.filter fun line => !isSchemaLine line) := by
  induction w with
  | nil => intro q; rfl
  | cons line rest ih =>
      intro q
      rw [List.foldlM_cons, feedUnhoisted]
      by_cases hs : isSchemaLine line = true
      · rw [if_pos hs, List.filter_cons_of_neg (by simpa using hs)]
        exact ih q
      · rw [if_neg hs, List.filter_cons_of_pos (by simpa using hs), Parser.feedLines,
          List.foldlM_cons]
        cases q.feedLine line with
        | error e => rfl
        | ok u => exact ih u

/-- What a window has read: its lines without the schema lines, which are all readable. -/
structure Holds (st : Window) (w : List String) : Prop where
  windowLines : st.windowLines = w.filter fun line => !isSchemaLine line
  schemaLines : ∀ line ∈ st.schemaLines, ReadableSchema line

theorem Holds.push {cfg : Config} {st : Window} {w : List String} (h : Holds st w)
    {line : String} {p p' : Parser} (hp : p.feedLine line = .ok p') (batchEnd : ℕ) :
    Holds (st.push cfg line batchEnd) (w ++ [line]) := by
  by_cases hs : isSchemaLine line = true
  · refine ⟨?_, ?_⟩
    · simp [Window.push, hs, h.windowLines]
    · intro l hl
      simp only [Window.push, hs, if_true, List.mem_append, List.mem_singleton] at hl
      rcases hl with hl | rfl
      · exact h.schemaLines l hl
      · exact ⟨hs, p, p', hp⟩
  · refine ⟨?_, ?_⟩
    · simp [Window.push, hs, h.windowLines]
    · intro l hl
      simp only [Window.push, hs] at hl
      exact h.schemaLines l hl

theorem Holds.cut {st : Window} {w : List String} (h : Holds st w) (batchEnd : ℕ) :
    Holds (st.cut batchEnd) [] :=
  ⟨rfl, h.schemaLines⟩

variable {cfg : Config} {st : Window} {w : List String} {p' : Parser}

/-- **One window.**  A fresh parser reads the bundled lines, and its rows are those of the
one-shot parser in the window. -/
theorem window_rows (hidx : p.startIdx = 0) (hex : p.excludeTypes = cfg.excludeTypes)
    (hst : Holds st w) (halike : WindowAlike cfg st.schemaLines p w)
    (hp : p.feedLines w = .ok p') :
    ∃ q, (Parser.init 0 cfg.excludeTypes).feedLines (st.schemaLines ++ st.windowLines) = .ok q
      ∧ p'.rows = p.rows ++ q.rows ∧ (st.windowLines = [] → q.rows = []) := by
  obtain ⟨q₀, hq₀, htags, hrows⟩ :=
    feedLines_hoisted st.schemaLines (Parser.init 0 cfg.excludeTypes) hst.schemaLines
  obtain ⟨hidx₀, hex₀⟩ := feedLines_static st.schemaLines hq₀
  simp only [WindowAlike, hq₀] at halike
  have hstart : Follows p.rows q₀ p := by
    refine ⟨hidx, hidx₀, hex₀.trans hex.symm, fun _ => htags, ?_⟩
    rw [hrows]
    exact (List.append_nil _).symm
  obtain ⟨q, hq, hfollow⟩ := foldlM_follow
    (fun q p p' line => follows_feedLine q p p' line) w q₀ p p' hstart halike hp
  rw [foldlM_feedUnhoisted, ← hst.windowLines] at hq
  refine ⟨q, (feedLines_append _ _).mpr ⟨q₀, hq₀, hq⟩, hfollow.rows, ?_⟩
  intro hnil
  rw [hnil] at hq
  obtain rfl := Except.ok.inj hq
  exact hrows

/-- The kernel agrees with a fresh parser wherever it gives rows. -/
def KernelAgrees (cfg : Config) (codon : Kernel) : Prop :=
  ∀ lines rows, codon lines = some rows →
    ∃ q, (Parser.init 0 cfg.excludeTypes).feedLines lines = .ok q ∧ q.rows = rows

theorem emitWindow_rows {codon : Kernel} (hcodon : KernelAgrees cfg codon)
    (hidx : p.startIdx = 0) (hex : p.excludeTypes = cfg.excludeTypes) (hst : Holds st w)
    (halike : WindowAlike cfg st.schemaLines p w) (hp : p.feedLines w = .ok p') :
    ∃ emit, emitWindow cfg codon st = .ok emit ∧ p'.rows = p.rows ++ emit.flatten := by
  obtain ⟨q, hq, hrows, -⟩ := window_rows hidx hex hst halike hp
  rw [emitWindow]
  cases hc : codon (st.schemaLines ++ st.windowLines) with
  | some rows =>
      obtain ⟨q', hq', hqrows⟩ := hcodon _ rows hc
      rw [hq] at hq'
      obtain rfl := Except.ok.inj hq'
      exact ⟨_, rfl, by rw [hrows, hqrows]; simp⟩
  | none =>
      simp only [hq]
      refine ⟨_, rfl, ?_⟩
      split_ifs with hr
      · simp [hrows]
      · simp [hrows, rows_of_not_hasRows hr]

/-- **The window path** hands over the rows of the one-shot parse, when all windows are read
alike. -/
theorem windowLoop_rows {codon : Kernel} (hcodon : KernelAgrees cfg codon)
    (lines : List (String × ℕ)) : ∀ (st : Window) (w : List String) (p p' last : Parser),
      p.startIdx = 0 → p.excludeTypes = cfg.excludeTypes → Holds st w →
      p.feedLines w = .ok p' → p'.feedLines (lines.map Prod.fst) = .ok last →
      WindowsAlike cfg st p w lines →
        ∃ chunks, windowLoop cfg codon st lines = .ok chunks
          ∧ last.rows = p.rows ++ chunks.flatten := by
  induction lines with
  | nil =>
      intro st w p p' last hidx hex hst hp hlast halike
      obtain rfl := Except.ok.inj hlast
      rw [WindowsAlike] at halike
      rw [windowLoop]
      split_ifs with hnil
      · obtain ⟨q, -, hrows, hq⟩ := window_rows hidx hex hst halike hp
        exact ⟨[], rfl, by rw [hrows, hq (List.isEmpty_iff.mp hnil)]; rfl⟩
      · exact emitWindow_rows hcodon hidx hex hst halike hp
  | cons x rest ih =>
      intro st w p p' last hidx hex hst hp hlast halike
      obtain ⟨line, batchEnd⟩ := x
      rw [List.map_cons] at hlast
      obtain ⟨u, hu, hlast⟩ := (feedLines_cons _ _).mp hlast
      rw [WindowsAlike] at halike
      rw [windowLoop]
      split_ifs at halike ⊢ with hcut
      · obtain ⟨hwin, hnext⟩ := halike
        simp only [hp] at hnext
        obtain ⟨emit, hemit, hrows⟩ := emitWindow_rows hcodon hidx hex hst hwin hp
        obtain ⟨hidx', hex'⟩ := feedLines_static w hp
        have hone : p'.feedLines [line] = .ok u := (feedLines_cons _ _).mpr ⟨u, hu, rfl⟩
        obtain ⟨chunks, hloop, hall⟩ := ih _ [line] p' u last (hidx'.trans hidx) (hex'.trans hex)
          ((hst.cut batchEnd).push hu batchEnd) hone hlast hnext
        rw [hemit]
        simp only [bind, Except.bind, hloop]
        exact ⟨_, rfl, by rw [hall, hrows, List.flatten_append, List.append_assoc]⟩
      · have happ : p.feedLines (w ++ [line]) = .ok u :=
          (feedLines_append _ _).mpr ⟨p', hp, (feedLines_cons _ _).mpr ⟨u, hu, rfl⟩⟩
        exact ih _ _ p u last hidx hex (hst.push hu batchEnd) happ hlast halike

/-! ## Whole files -/

theorem map_fst_readBatches {cfg : Config} (h : 0 < cfg.lineBatchSize) (lines : List String) :
    (readBatches cfg lines).map Prod.fst = lines := by
  rw [readBatches, if_neg h.ne', List.map_map]
  show lines.zipIdx.map Prod.fst = lines
  exact List.zipIdx_map_fst 0 lines

/-- The windows of a file are read alike. -/
def FileAlike (cfg : Config) (lines : List String) : Prop :=
  WindowsAlike cfg ⟨[], [], 0, false, 0⟩ cfg.freshParser [] (readBatches cfg lines)

/-- **Streaming.**  For every file that the one-shot parse reads, every limit and every
positive batch size: the chunks put together are the rows of the one-shot parse, always on
the path with one parser, and on the window path when the windows are read alike. -/
theorem chunks_flatten (cfg : Config) (codon : Kernel) (hcodon : KernelAgrees cfg codon)
    (lines : List String) (rows : List Row)
    (hone : parseStatsFileStreaming cfg lines = .ok rows) (hbatch : 0 < cfg.lineBatchSize)
    (halike : cfg.codonPrimary = true → FileAlike cfg lines) :
    ∃ chunks, parseStatsFileStreamingIncremental cfg codon lines = .ok chunks
      ∧ chunks.flatten = rows := by
  obtain ⟨last, hlast, hrows⟩ : ∃ last, cfg.freshParser.feedLines lines = .ok last
      ∧ last.rows = rows := by
    rw [parseStatsFileStreaming] at hone
    cases hrun : cfg.freshParser.feedLines lines with
    | error e => rw [hrun] at hone; cases hone
    | ok last =>
        rw [hrun] at hone
        exact ⟨last, rfl, Except.ok.inj hone⟩
  have hlines := map_fst_readBatches hbatch lines
  rw [parseStatsFileStreamingIncremental]
  split_ifs with hprimary
  · have hstart : cfg.freshParser.startIdx = 0 := by
      simp only [Config.codonPrimary, Bool.and_eq_true, beq_iff_eq] at hprimary
      exact hprimary.1.1
    obtain ⟨chunks, hloop, hall⟩ := windowLoop_rows hcodon (readBatches cfg lines)
      ⟨[], [], 0, false, 0⟩ [] cfg.freshParser cfg.freshParser last hstart rfl
      ⟨rfl, by simp⟩ rfl (by rw [hlines]; exact hlast) (halike hprimary)
    exact ⟨chunks, hloop, by rw [← hrows, hall]; rfl⟩
  · rcases (agree_parserLoop cfg (readBatches cfg lines) ⟨cfg.freshParser, false, 0⟩ []
      cfg.freshParser (Rebased.refl _)).cases with ⟨chunks, last', hloop, hfeed, hall⟩ | ⟨e, d, -, hfeed⟩
    · rw [hlines, hlast] at hfeed
      obtain rfl := Except.ok.inj hfeed
      exact ⟨chunks, hloop, by rw [← hrows, ← hall]; rfl⟩
    · rw [hlines, hlast] at hfeed
      cases hfeed

instance (cfg : Config) (schemaLines : List String) (p : Parser) (w : List String) :
    Decidable (WindowAlike cfg schemaLines p w) :=
  match h : (Parser.init 0 cfg.excludeTypes).feedLines schemaLines with
  | .ok q => decidable_of_iff (AlongBoth feedUnhoisted Parser.feedLine
      (fun q p line => lineAlike q p line = true) q p w) (by simp only [WindowAlike, h])
  | .error _ => isTrue (by simp only [WindowAlike, h])

instance WindowsAlike.decidable (cfg : Config) : ∀ (st : Window) (p : Parser) (w : List String)
    (lines : List (String × ℕ)), Decidable (WindowsAlike cfg st p w lines)
  | st, p, w, [] => inferInstanceAs (Decidable (WindowAlike cfg st.schemaLines p w))
  | st, p, w, (line, batchEnd) :: rest =>
      if hcut : st.cutsBefore cfg line batchEnd = true then
        match h : p.feedLines w with
        | .ok p' =>
            letI := WindowsAlike.decidable cfg ((st.cut batchEnd).push cfg line batchEnd) p' [line]
              rest
            decidable_of_iff (WindowAlike cfg st.schemaLines p w ∧
                WindowsAlike cfg ((st.cut batchEnd).push cfg line batchEnd) p' [line] rest)
              (by simp only [WindowsAlike, if_pos hcut, h])
        | .error _ =>
            decidable_of_iff (WindowAlike cfg st.schemaLines p w)
              (by simp only [WindowsAlike, if_pos hcut, h, and_true])
      else
        letI := WindowsAlike.decidable cfg (st.push cfg line batchEnd) p (w ++ [line]) rest
        decidable_of_iff (WindowsAlike cfg (st.push cfg line batchEnd) p (w ++ [line]) rest)
          (by rw [WindowsAlike, if_neg hcut])

instance (cfg : Config) (lines : List String) : Decidable (FileAlike cfg lines) :=
  inferInstanceAs (Decidable (WindowsAlike _ _ _ _ _))

/-- The window path, one sample in each window. -/
def perSample : Config :=
  ⟨0, 0, some 1, none, 2, none, true⟩

/-- A kernel that gives the rows of a fresh parser. -/
def mirrorKernel (lines : List String) : Option (List Row) :=
  ((Parser.init 0 defaultExcludeTypes).feedLines lines).toOption.map Parser.rows

/-- A file whose schema stands in front of its samples. -/
def steadyLines : List String :=
  ["!cpu user,E\n", "1710000001 7 hosta\n", "cpu 0 5\n", "1710000002 7 hosta\n", "cpu 0 6\n"]

theorem chunks_flatten_steadyLines :
    ∃ chunks rows, parseStatsFileStreamingIncremental perSample mirrorKernel steadyLines = .ok chunks
      ∧ parseStatsFileStreaming perSample steadyLines = .ok rows ∧ chunks.flatten = rows := by
  have hkernel : KernelAgrees perSample mirrorKernel := by
    intro lines rows h
    rw [mirrorKernel] at h
    cases hrun : (Parser.init 0 defaultExcludeTypes).feedLines lines with
    | error e => rw [hrun] at h; cases h
    | ok q =>
        rw [hrun] at h
        exact ⟨q, hrun, Option.some.inj h⟩
  have hok : (parseStatsFileStreaming perSample steadyLines).isOk = true := by decide +kernel
  cases hone : parseStatsFileStreaming perSample steadyLines with
  | error e => rw [hone] at hok; cases hok
  | ok rows =>
      obtain ⟨chunks, hchunks, hflat⟩ := chunks_flatten perSample mirrorKernel hkernel steadyLines
        rows hone (by decide) (fun _ => by decide +kernel)
      exact ⟨chunks, rows, hchunks, rfl, hflat⟩

/-- A file that declares its schema anew behind the first sample. -/
def redeclaredLines : List String :=
  ["!cpu user,E\n", "1710000001 7 hosta\n", "cpu 0 5\n", "!cpu system,E\n",
    "1710000002 7 hosta\n", "cpu 0 6\n"]

/-- **A schema that is hoisted too far.**  The kernel gives nothing, so every window falls back
to a fresh parser; the second declaration is read in front of the first sample. -/
theorem chunks_flatten_ne_redeclaredLines :
    ∃ chunks rows, parseStatsFileStreamingIncremental perSample (fun _ => none) redeclaredLines
        = .ok chunks
      ∧ parseStatsFileStreaming perSample redeclaredLines = .ok rows ∧ chunks.flatten ≠ rows
      ∧ chunks.flatten.map Row.event = ["system", "system"]
      ∧ rows.map Row.event = ["user", "system"] := by
  have hdiff : (parseStatsFileStreamingIncremental perSample (fun _ => none)
        redeclaredLines).toOption.map (fun chunks => chunks.flatten.map Row.event)
      = some ["system", "system"]
      ∧ (parseStatsFileStreaming perSample redeclaredLines).toOption.map (List.map Row.event)
        = some ["user", "system"] := by
    decide +kernel
  obtain ⟨h₁, h₂⟩ := hdiff
  cases hinc : parseStatsFileStreamingIncremental perSample (fun _ => none) redeclaredLines with
  | error e => rw [hinc] at h₁; cases h₁
  | ok chunks =>
      cases hone : parseStatsFileStreaming perSample redeclaredLines with
      | error e => rw [hone] at h₂; cases h₂
      | ok rows =>
          rw [hinc] at h₁
          rw [hone] at h₂
          have hsystem : chunks.flatten.map Row.event = ["system", "system"] :=
            Option.some.inj h₁
          have huser : rows.map Row.event = ["user", "system"] := Option.some.inj h₂
          refine ⟨chunks, rows, rfl, rfl, ?_, hsystem, huser⟩
          rintro rfl
          rw [hsystem] at huser
          exact absurd huser (by decide)

end StreamingParse
