/-
# The incremental stats parser

`IncrementalStatsParser` reads a stats file line by line.  A line is recognised by its first
character that is not a blank:

* a digit opens a sample: `time jid host`
* `!` declares the schema of a type
* `%` is a mark of the open sample
* a letter is a data row of the open sample: `type device values`

Data rows become hardware rows, one for each event of the schema, or process rows
(`host_proc`), which are merged by `(jid, host, process)`.  On a shared node the device of a
hardware row is replaced by a job stamp `j:<jid>` (`_shared_row_dev`).

`self.insert` is set together with the tags of the open sample and never reset, so it is
`tags.isSome` here.
-/
import HpcPerfStats.MonitorMarks
import HpcPerfStats.StatsSchema

namespace StatsParser

open PyText StatsSchema MonitorMarks

/-! ## Rows and parser state -/

/-- The open sample. -/
structure Tags where
  time : PyFloat
  host : String
  jid : String
  deriving DecidableEq

/-- A hardware row. -/
structure Row where
  time : PyFloat
  host : String
  jid : String
  typ : String
  dev : String
  event : String
  value : PyFloat
  wid : ℤ
  mult : ℚ
  unit : String
  deriving DecidableEq

/-- A process row. -/
structure ProcRow where
  time : PyFloat
  host : String
  jid : String
  proc : String
  device : String
  fields : List (String × Option ℤ)
  deriving DecidableEq

/-- What a `!` line stores for its type. -/
structure SchemaEntry where
  tokens : List String
  fastTokens : List String
  compiled : List SchemaColumn
  fastCompiled : List SchemaColumn
  deriving DecidableEq

/-- The state of an `IncrementalStatsParser`. -/
structure Parser where
  startIdx : ℕ
  excludeTypes : List String
  lineIndex : ℕ
  schema : List (String × SchemaEntry)
  schemaBare : List (String × List String)
  schemaFastBare : List (String × List String)
  rows : List Row
  procs : List ProcRow
  tags : Option Tags
  armShared : Bool
  sampleShared : Bool
  marks : List Mark
  deriving DecidableEq

/-- `IncrementalStatsParser(start_idx, exclude_types_list)`. -/
def Parser.init (startIdx : ℕ) (excludeTypes : List String) : Parser :=
  ⟨startIdx, excludeTypes, 0, [], [], [], [], [], none, false, false, []⟩

/-- `exclude_types`, the default. -/
def defaultExcludeTypes : List String :=
  ["intel_x86_uncore_cha_skx", "host_ps", "host_sysv_shm", "host_tmpfs", "host_vfs", "ib",
    "ib_sw", "intel_skx_cha", "ps", "sysv_shm", "tmpfs", "vfs"]

/-- A job id that is not that of an idle sample. -/
def realJid (jid : String) : Bool :=
  jid != "" && jid != "-" && jid != "0"

/-! ## Hardware rows -/

/-- `_GPU_STATS_TYPES`. -/
def gpuStatsTypes : List String :=
  ["nvidia_gpu", "amd_gpu", "intel_gpu"]

/-- `_HOST_MEM_JOB_TYPE`. -/
def hostMemJobType : String :=
  "host_mem_job"

/-- The job stamp of a row. -/
def jobStamp (jid : String) : String :=
  takeChars 64 ("j:" ++ jid)

/-- `_shared_row_dev`. -/
def sharedRowDev (dev typ jid : String) (shared : Bool) : String :=
  if gpuStatsTypes.contains typ then dev
  else if realJid jid = false then dev
  else if typ = hostMemJobType then
    if startsWith "j:" dev then takeChars 64 dev else jobStamp jid
  else if shared = false then dev
  else jobStamp jid

/-- An optional tier marker in front of the values. -/
def takeTier : List String → Option String × List String
  | "@fast" :: vals => (some "@fast", vals)
  | "@full" :: vals => (some "@full", vals)
  | vals => (none, vals)

/-- `_append_compiled_stats_columns`: nothing when the counts disagree. -/
def compiledRows (tags : Tags) (typ dev : String) (cols : List SchemaColumn)
    (vals : List String) : Except PyError (List Row) :=
  if vals.length ≠ cols.length then .ok []
  else do
    let values ← vals.mapM fun v => orValueError (pyFloat v)
    .ok (cols.zipWith (fun c v =>
      ⟨tags.time, tags.host, tags.jid, typ, dev, c.event, v, c.wid, c.mult, c.unit⟩) values)

/-- `_append_vals_dict_columns` for a decoded legacy line. -/
def legacyRows (tags : Tags) (typ dev : String) (decoded : Option (List (String × String))) :
    Except PyError (List Row) :=
  match decoded with
  | none => .ok []
  | some [] => .ok []
  | some d => do
      let cols ← compileSchemaTokens (d.map Prod.fst)
      compiledRows tags typ dev cols (d.map Prod.snd)

/-- The type a row is stored under. -/
def outputType (typ : String) (entry : SchemaEntry) : String :=
  if schemaNeedsLegacyHardwareDecode typ entry.tokens then legacyOutputType typ else typ

/-- The hardware rows of one data row. -/
def hardwareRows (entry : SchemaEntry) (typ dev : String) (vals : List String) (tags : Tags)
    (shared : Bool) : Except PyError (List Row) :=
  let legacy := schemaNeedsLegacyHardwareDecode typ entry.tokens
  let outTyp := outputType typ entry
  let stamped := sharedRowDev dev outTyp tags.jid shared
  match takeTier vals with
  | (some "@fast", vals) =>
      if legacy then .ok [] else compiledRows tags outTyp stamped entry.fastCompiled vals
  | (_, vals) =>
      if legacy then do
        let decoded ← decodeCounterLine typ entry.tokens vals
        legacyRows tags outTyp stamped decoded
      else compiledRows tags outTyp stamped entry.compiled vals

/-! ## Process rows -/

/-- `HOST_PROC_KEYS`. -/
def hostProcKeys : List String :=
  ["uid", "vm_peak", "vm_size", "vm_lck", "vm_hwm", "vm_rss", "vm_data", "vm_stk", "vm_exe",
    "vm_lib", "vm_pte", "vm_swap", "threads"]

/-- `HOST_PROC_PEAK_KEYS`. -/
def hostProcPeakKeys : List String :=
  ["vm_peak", "vm_hwm", "vm_stk", "vm_exe", "vm_lib"]

/-- The value of a process field: an integer, else the integer part of a float, else null;
an infinity is an `OverflowError`. -/
def procValue (raw : String) : Except PyError (Option ℤ) :=
  match pyInt raw with
  | some n => .ok (some n)
  | none =>
      match pyFloat raw with
      | some (.inf _) => .error .overflowError
      | some x => .ok x.toInt
      | none => .ok none

/-- The known fields of a process row, in the order of the schema. -/
def procFields (bareKeys vals : List String) : Except PyError (List (String × Option ℤ)) :=
  (bareKeys.zip vals).foldlM (fun fields kv =>
    if hostProcKeys.contains kv.1 then do
      let v ← procValue kv.2
      .ok (PyDict.set fields kv.1 v)
    else .ok fields) []

/-- `_nullable_int_max`. -/
def nullableIntMax : Option ℤ → Option ℤ → Option ℤ
  | none, b => b
  | a, none => a
  | some a, some b => some (max a b)

/-- `merge_proc_row_dicts`: peaks take the maximum, everything else the later value. -/
def mergeProcRows (earlier later : ProcRow) : ProcRow :=
  { later with
    fields := later.fields.foldl (fun fields kv =>
      if hostProcPeakKeys.contains kv.1 then
        PyDict.set fields kv.1 (nullableIntMax ((fields.lookup kv.1).join) kv.2)
      else PyDict.set fields kv.1 kv.2) earlier.fields }

/-- `_merge_proc_row_online`. -/
def mergeProcRowOnline (row : ProcRow) : List ProcRow → List ProcRow
  | [] => [row]
  | r :: rest =>
      if r.jid = row.jid ∧ r.host = row.host ∧ r.proc = row.proc then mergeProcRows r row :: rest
      else r :: mergeProcRowOnline row rest

/-- The schema keys of a process row: of its type, else of `host_proc`, `proc`, else the
defaults. -/
def Parser.procSchemaKeys (p : Parser) (typ : String) : List String :=
  match p.schema.lookup typ with
  | some e => e.tokens
  | none =>
      match p.schema.lookup "host_proc" with
      | some e => e.tokens
      | none =>
          match p.schema.lookup "proc" with
          | some e => e.tokens
          | none => hostProcKeys

/-- `_proc_bare_keys_for`: the bare names are compiled once and kept under the type. -/
def Parser.procBareKeysFor (p : Parser) (typ : String) (fast : Bool) :
    List String × Parser :=
  let full := p.procSchemaKeys typ
  if fast then
    match p.schemaFastBare.lookup typ with
    | some bare => (bare, p)
    | none =>
        let keys := ((p.schema.lookup typ).map SchemaEntry.fastTokens).getD []
        let keys := if keys.isEmpty then fastSchemaKeys full else keys
        let bare := keys.map schemaKeyBasename
        (bare, { p with schemaFastBare := PyDict.set p.schemaFastBare typ bare })
  else
    match p.schemaBare.lookup typ with
    | some bare => (bare, p)
    | none =>
        let bare := full.map schemaKeyBasename
        (bare, { p with schemaBare := PyDict.set p.schemaBare typ bare })

/-- No known field of a process row is infinite. -/
def Parser.procReadable (p : Parser) (typ : String) (vals : List String) : Bool :=
  ((p.procBareKeysFor typ ((takeTier vals).1 == some "@fast")).1.zip (takeTier vals).2).all
    fun kv => !hostProcKeys.contains kv.1 || (procValue kv.2).isOk

/-- A `proc` or `host_proc` row. -/
def Parser.feedProc (p : Parser) (typ dev : String) (vals : List String) (tags : Tags) :
    Except PyError Parser := do
  let tiered := takeTier vals
  let keyed := p.procBareKeysFor typ (tiered.1 == some "@fast")
  let fields ← procFields keyed.1 tiered.2
  .ok { keyed.2 with
    procs := mergeProcRowOnline
      ⟨tags.time, tags.host, tags.jid, beforeSep '/' dev, dev, fields⟩ p.procs }

/-! ## Lines -/

/-- A data row. -/
def Parser.feedRow (p : Parser) (s : String) (tags : Tags) : Except PyError Parser :=
  match splitMax 2 s with
  | [typ, dev, rest] =>
      let vals := split rest
      if p.excludeTypes.contains typ then .ok p
      else if typ = "proc" ∨ typ = "host_proc" then p.feedProc typ dev vals tags
      else
        match p.schema.lookup typ with
        | none => .ok p
        | some entry => do
            let rows ← hardwareRows entry typ dev vals tags p.sampleShared
            .ok { p with rows := p.rows ++ rows }
  | _ => .error .valueError

/-- `_digit_line_identity`: the time token, the job id and the host of a header. -/
def digitLineIdentity (s : String) : Option (String × String × String) :=
  match split s with
  | t :: jid :: host :: _ => some (t, jid, host)
  | _ => none

/-- A sample header, with `_bind_pending_marks`. -/
def Parser.feedHeader (p : Parser) (s : String) : Except PyError Parser :=
  match digitLineIdentity s with
  | none => .ok p
  | some (t, jid, host) => do
      let time ← orValueError (pyFloat t)
      .ok { p with
        tags := some ⟨time, host, jid⟩
        sampleShared := p.armShared && realJid jid
        armShared := false
        marks := bindPending time host p.marks }

/-- What a schema line stores under its type. -/
def schemaEntry (tokens : List String) : Except PyError SchemaEntry := do
  let compiled ← compileSchemaTokens tokens
  let fastCompiled ← compileSchemaTokens (fastSchemaKeys tokens)
  .ok ⟨tokens, fastSchemaKeys tokens, compiled, fastCompiled⟩

/-- A schema line. -/
def Parser.feedSchema (p : Parser) (s : String) : Except PyError Parser :=
  match splitMax 1 s with
  | [label, events] => do
      let typ := dropChars 1 label
      let tokens := split events
      let entry ← schemaEntry tokens
      .ok { p with
        schema := PyDict.set p.schema typ entry
        schemaBare := PyDict.set p.schemaBare typ (tokens.map schemaKeyBasename)
        schemaFastBare := PyDict.set p.schemaFastBare typ
          ((fastSchemaKeys tokens).map schemaKeyBasename) }
  | _ => .error .valueError

/-- `_queue_mark`: a mark inside a sample is bound to it at once, and a `%jobs` mark there
also sets the shared flag of that sample. -/
def Parser.queueMark (p : Parser) (body : MarkBody) : Parser :=
  match p.tags with
  | some tags =>
      { p with
        marks := p.marks ++ [⟨body, some (tags.time, tags.host)⟩]
        sampleShared := if body.isJobs then realJid tags.jid else p.sampleShared }
  | none => { p with marks := p.marks ++ [⟨body, none⟩] }

/-- `_note_percent_mark`: a `%jobs` mark with a job id arms the shared flag. -/
def Parser.notePercentMark (p : Parser) (s : String) : Parser :=
  match markOf s with
  | some body => { p with armShared := p.armShared || body.isJobs }.queueMark body
  | none => p

/-- The parser, past the line number. -/
def Parser.advance (p : Parser) : Parser :=
  { p with lineIndex := p.lineIndex + 1 }

/-- A line by its first character: a data row of the open sample, a header from the start
index on, a schema line or a mark. -/
def Parser.dispatch (p : Parser) (c : Char) (s : String) : Except PyError Parser :=
  match p.tags, c.isAlpha with
  | some tags, true => p.advance.feedRow s tags
  | _, _ =>
      if p.startIdx ≤ p.lineIndex ∧ c.isDigit = true then p.advance.feedHeader s
      else if c = '!' then p.advance.feedSchema s
      else if c = '%' then .ok (p.advance.notePercentMark s)
      else .ok p.advance

/-- `feed_line`. -/
def Parser.feedLine (p : Parser) (line : String) : Except PyError Parser :=
  match (lstrip line).toList.head? with
  | none => .ok p.advance
  | some c => p.dispatch c (lstrip line)

/-- `feed_lines`. -/
def Parser.feedLines (p : Parser) (lines : List String) : Except PyError Parser :=
  lines.foldlM Parser.feedLine p

/-! ## What one line does

The parser is made of independent parts.  The open sample, the shared flags and the marks
are moved by headers and marks only (`SampleState`), the schema table by `!` lines only
(`schemaAfterLine`), and a line adds its rows behind the rows so far (`lineRows`). -/

/-- The part of the parser that headers and marks move. -/
structure SampleState where
  tags : Option Tags
  armShared : Bool
  sampleShared : Bool
  marks : List Mark
  deriving DecidableEq

def Parser.sampleState (p : Parser) : SampleState :=
  ⟨p.tags, p.armShared, p.sampleShared, p.marks⟩

/-- The sample that a well-formed header line opens. -/
def headerOf (line : String) : Option Tags :=
  match (lstrip line).toList.head? with
  | none => none
  | some c =>
      if c.isDigit then
        match digitLineIdentity (lstrip line) with
        | some (t, jid, host) => (pyFloat t).map fun time => ⟨time, host, jid⟩
        | none => none
      else none

/-- A header: the armed flag becomes that of the sample, and the pending marks are bound. -/
def SampleState.openSample (st : SampleState) (tags : Tags) : SampleState :=
  ⟨some tags, false, st.armShared && realJid tags.jid, bindPending tags.time tags.host st.marks⟩

/-- A mark: bound to the open sample, if there is one. -/
def SampleState.addMark (st : SampleState) (body : MarkBody) : SampleState where
  tags := st.tags
  armShared := st.armShared || body.isJobs
  sampleShared :=
    match st.tags with
    | some tags => if body.isJobs then realJid tags.jid else st.sampleShared
    | none => st.sampleShared
  marks := st.marks ++ [⟨body, st.tags.map fun t => (t.time, t.host)⟩]

/-- The effect of a line; with `live = false` headers are not yet read. -/
def SampleState.feed (live : Bool) (st : SampleState) (line : String) : SampleState :=
  match markOf (lstrip line) with
  | some body => st.addMark body
  | none =>
      match if live then headerOf line else none with
      | some tags => st.openSample tags
      | none => st

/-- The schema table behind a line. -/
def schemaAfterLine (schema : List (String × SchemaEntry)) (line : String) :
    List (String × SchemaEntry) :=
  if (lstrip line).toList.head? = some '!' then
    match splitMax 1 (lstrip line) with
    | [label, events] =>
        match schemaEntry (split events) with
        | .ok entry => PyDict.set schema (dropChars 1 label) entry
        | .error _ => schema
    | _ => schema
  else schema

/-- The hardware rows of a data row of the open sample. -/
def rowRows (excludeTypes : List String) (schema : List (String × SchemaEntry)) (tags : Tags)
    (shared : Bool) (s : String) : Except PyError (List Row) :=
  match splitMax 2 s with
  | [typ, dev, rest] =>
      if excludeTypes.contains typ = true ∨ typ = "proc" ∨ typ = "host_proc" then .ok []
      else
        match schema.lookup typ with
        | none => .ok []
        | some entry => hardwareRows entry typ dev (split rest) tags shared
  | _ => .error .valueError

/-- The hardware rows of a line. -/
def lineRows (excludeTypes : List String) (schema : List (String × SchemaEntry))
    (tags : Option Tags) (shared : Bool) (line : String) : Except PyError (List Row) :=
  match (lstrip line).toList.head?, tags with
  | some c, some tags =>
      if c.isAlpha then rowRows excludeTypes schema tags shared (lstrip line) else .ok []
  | _, _ => .ok []

/-- Everything a line does to the parser, its process rows and bare names apart. -/
structure LineEffect (p p' : Parser) (line : String) : Prop where
  startIdx : p'.startIdx = p.startIdx
  excludeTypes : p'.excludeTypes = p.excludeTypes
  lineIndex : p'.lineIndex = p.lineIndex + 1
  sample : p'.sampleState = p.sampleState.feed (p.startIdx ≤ p.lineIndex) line
  schema : p'.schema = schemaAfterLine p.schema line
  rows : ∃ rows, lineRows p.excludeTypes p.schema p.tags p.sampleShared line = .ok rows
    ∧ p'.rows = p.rows ++ rows

theorem bind_ok {ε α β : Type} {x : Except ε α} {f : α → Except ε β} {b : β}
    (h : x >>= f = .ok b) : ∃ a, x = .ok a ∧ f a = .ok b := by
  cases x with
  | error e => cases h
  | ok a => exact ⟨a, rfl, h⟩

theorem orValueError_ok {α : Type} {o : Option α} {a : α} (h : orValueError o = .ok a) :
    o = some a := by
  cases o with
  | none => cases h
  | some b =>
      injection h with h
      rw [h]

theorem procBareKeysFor_frame (p : Parser) (typ : String) (fast : Bool) :
    ∃ bare fastBare, (p.procBareKeysFor typ fast).2
      = { p with schemaBare := bare, schemaFastBare := fastBare } := by
  rw [Parser.procBareKeysFor]
  cases fast with
  | false =>
      simp only [Bool.false_eq_true, if_false]
      split
      · exact ⟨_, _, rfl⟩
      · exact ⟨_, _, rfl⟩
  | true =>
      simp only [if_true]
      split
      · exact ⟨_, _, rfl⟩
      · exact ⟨_, _, rfl⟩

/-- Process fields without an infinity are read. -/
theorem procFields_ok {keys vals : List String}
    (h : (keys.zip vals).all
      (fun kv => !hostProcKeys.contains kv.1 || (procValue kv.2).isOk) = true) :
    ∃ fields, procFields keys vals = .ok fields := by
  rw [procFields]
  generalize keys.zip vals = kvs at h ⊢
  generalize ([] : List (String × Option ℤ)) = acc
  induction kvs generalizing acc with
  | nil => exact ⟨acc, rfl⟩
  | cons kv rest ih =>
      rw [List.all_cons, Bool.and_eq_true] at h
      obtain ⟨hkv, hrest⟩ := h
      rw [List.foldlM_cons]
      by_cases hknown : hostProcKeys.contains kv.1 = true
      · rw [if_pos hknown]
        rw [hknown, Bool.not_true, Bool.false_or] at hkv
        cases hv : procValue kv.2 with
        | error e => rw [hv] at hkv; cases hkv
        | ok v => exact ih hrest _
      · rw [if_neg hknown]
        exact ih hrest acc

/-- The line number plays no part. -/
@[simp] theorem procReadable_advance (p : Parser) (typ : String) (vals : List String) :
    p.advance.procReadable typ vals = p.procReadable typ vals := by
  have hkeys : ∀ fast, (p.advance.procBareKeysFor typ fast).1
      = (p.procBareKeysFor typ fast).1 := by
    intro fast
    simp only [Parser.procBareKeysFor, Parser.advance, Parser.procSchemaKeys]
    cases fast with
    | false => cases p.schemaBare.lookup typ <;> rfl
    | true => cases p.schemaFastBare.lookup typ <;> rfl
  rw [Parser.procReadable, Parser.procReadable, hkeys]

theorem feedProc_ok {p : Parser} {typ dev : String} {vals : List String} {tags : Tags}
    (h : p.procReadable typ vals = true) : ∃ p', p.feedProc typ dev vals tags = .ok p' := by
  obtain ⟨fields, hok⟩ := procFields_ok h
  rw [Parser.feedProc]
  simp only [hok]
  exact ⟨_, rfl⟩

/-- A process row changes the process rows and the bare names only. -/
theorem feedProc_frame {p p' : Parser} {typ dev : String} {vals : List String} {tags : Tags}
    (h : p.feedProc typ dev vals tags = .ok p') :
    ∃ bare fastBare procs,
      p' = { p with schemaBare := bare, schemaFastBare := fastBare, procs := procs } := by
  rw [Parser.feedProc] at h
  obtain ⟨bare, fastBare, hkeys⟩ := procBareKeysFor_frame p typ ((takeTier vals).1 == some "@fast")
  obtain ⟨fields, -, h⟩ := bind_ok h
  obtain rfl := Except.ok.inj h
  rw [hkeys]
  exact ⟨_, _, _, rfl⟩

theorem feedRow_effect {p p' : Parser} {s : String} {tags : Tags}
    (h : p.feedRow s tags = .ok p') :
    p'.startIdx = p.startIdx ∧ p'.excludeTypes = p.excludeTypes ∧ p'.lineIndex = p.lineIndex
      ∧ p'.sampleState = p.sampleState ∧ p'.schema = p.schema
      ∧ ∃ rows, rowRows p.excludeTypes p.schema tags p.sampleShared s = .ok rows
        ∧ p'.rows = p.rows ++ rows := by
  rw [Parser.feedRow] at h
  rw [rowRows]
  split at h
  · rename_i typ dev rest hsplit
    simp only at h ⊢
    split_ifs at h with hex hproc
    · obtain rfl := Except.ok.inj h
      exact ⟨rfl, rfl, rfl, rfl, rfl, [], by rw [if_pos (Or.inl hex)], by simp⟩
    · obtain ⟨bare, fastBare, procs, rfl⟩ := feedProc_frame h
      exact ⟨rfl, rfl, rfl, rfl, rfl, [], by rw [if_pos (Or.inr hproc)], by simp⟩
    · have hno : ¬(p.excludeTypes.contains typ = true ∨ typ = "proc" ∨ typ = "host_proc") := by
        rintro (hc | hc)
        · exact hex hc
        · exact hproc hc
      rw [if_neg hno]
      split at h
      · obtain rfl := Except.ok.inj h
        exact ⟨rfl, rfl, rfl, rfl, rfl, [], rfl, by simp⟩
      · obtain ⟨rows, hrows, h⟩ := bind_ok h
        obtain rfl := Except.ok.inj h
        exact ⟨rfl, rfl, rfl, rfl, rfl, rows, hrows, rfl⟩
  · cases h

/-- A line that begins with a letter, a digit or `!` is no mark. -/
theorem markOf_eq_none {s : String} (h : s.toList.head? ≠ some '%') : markOf s = none := by
  have hno : ∀ p : String, p.toList.head? = some '%' → startsWith p s = false := by
    intro p hp
    rw [startsWith, Bool.eq_false_iff]
    intro hpre
    obtain ⟨r, hr⟩ := List.isPrefixOf_iff_prefix.mp hpre
    refine h ?_
    rw [← hr, List.head?_append, hp]
    rfl
  rw [markOf, hno "%jobs" (by decide), hno "%affinity" (by decide)]
  rfl

theorem isAlpha_not_isDigit {c : Char} (h : c.isAlpha = true) : c.isDigit = false := by
  have hletter := toNat_of_isAlpha h
  rw [← Bool.not_eq_true]
  intro hdigit
  have hhigh := (toNat_of_isDigit hdigit).2
  omega

theorem headerOf_of_head {line : String} {c : Char} (hc : (lstrip line).toList.head? = some c)
    (hd : c.isDigit = false) : headerOf line = none := by
  unfold headerOf
  rw [hc]
  exact if_neg (by rw [hd]; exact Bool.false_ne_true)

/-- A header line is no mark. -/
theorem markOf_of_header {line : String} {t : Tags} (h : headerOf line = some t) :
    markOf (lstrip line) = none := by
  refine markOf_eq_none fun hc => ?_
  rw [headerOf_of_head hc (by decide)] at h
  cases h

theorem feed_of_mark {line : String} {body : MarkBody} (st : SampleState) (live : Bool)
    (hm : markOf (lstrip line) = some body) : st.feed live line = st.addMark body := by
  unfold SampleState.feed
  rw [hm]

/-- A line that is neither a header nor a mark leaves the sample as it is. -/
theorem feed_of_neither {line : String} (st : SampleState) (live : Bool)
    (hm : markOf (lstrip line) = none) (hheader : headerOf line = none) :
    st.feed live line = st := by
  unfold SampleState.feed
  rw [hm, hheader, ite_self]

theorem feed_of_plain {line : String} (st : SampleState) (live : Bool)
    (hmark : (lstrip line).toList.head? ≠ some '%') (hheader : headerOf line = none) :
    st.feed live line = st :=
  feed_of_neither st live (markOf_eq_none hmark) hheader

theorem schemaAfterLine_of_head {line : String} (schema : List (String × SchemaEntry))
    (h : (lstrip line).toList.head? ≠ some '!') : schemaAfterLine schema line = schema :=
  if_neg h

theorem lineRows_of_blank {line : String} {excludeTypes : List String}
    {schema : List (String × SchemaEntry)} {tags : Option Tags} {shared : Bool}
    (hc : (lstrip line).toList.head? = none) :
    lineRows excludeTypes schema tags shared line = .ok [] := by
  unfold lineRows
  rw [hc]

theorem lineRows_of_untagged {line : String} {excludeTypes : List String}
    {schema : List (String × SchemaEntry)} {shared : Bool} :
    lineRows excludeTypes schema none shared line = .ok [] := by
  unfold lineRows
  cases (lstrip line).toList.head? <;> rfl

theorem lineRows_of_row {line : String} {c : Char} {excludeTypes : List String}
    {schema : List (String × SchemaEntry)} {tags : Tags} {shared : Bool}
    (hc : (lstrip line).toList.head? = some c) (ha : c.isAlpha = true) :
    lineRows excludeTypes schema (some tags) shared line
      = rowRows excludeTypes schema tags shared (lstrip line) := by
  unfold lineRows
  rw [hc]
  exact if_pos ha

theorem lineRows_of_not_isAlpha {line : String} {c : Char} {excludeTypes : List String}
    {schema : List (String × SchemaEntry)} {tags : Option Tags} {shared : Bool}
    (hc : (lstrip line).toList.head? = some c) (ha : c.isAlpha = false) :
    lineRows excludeTypes schema tags shared line = .ok [] := by
  unfold lineRows
  rw [hc]
  cases tags with
  | none => rfl
  | some t => exact if_neg (by rw [ha]; exact Bool.false_ne_true)

theorem feedLine_of_blank {p : Parser} {line : String}
    (hc : (lstrip line).toList.head? = none) : p.feedLine line = .ok p.advance := by
  unfold Parser.feedLine
  rw [hc]

theorem feedLine_of_row {p : Parser} {line : String} {c : Char} {tags : Tags}
    (hc : (lstrip line).toList.head? = some c) (ha : c.isAlpha = true)
    (ht : p.tags = some tags) : p.feedLine line = p.advance.feedRow (lstrip line) tags := by
  simp only [Parser.feedLine, Parser.dispatch, hc, ht, ha]

theorem feedLine_of_other {p : Parser} {line : String} {c : Char}
    (hc : (lstrip line).toList.head? = some c) (h : c.isAlpha = false ∨ p.tags = none) :
    p.feedLine line =
      if p.startIdx ≤ p.lineIndex ∧ c.isDigit = true then p.advance.feedHeader (lstrip line)
      else if c = '!' then p.advance.feedSchema (lstrip line)
      else if c = '%' then .ok (p.advance.notePercentMark (lstrip line))
      else .ok p.advance := by
  simp only [Parser.feedLine, Parser.dispatch, hc]
  rcases h with h | h
  · rw [h]
    cases p.tags <;> rfl
  · rw [h]

theorem feedHeader_effect {p p' : Parser} {line : String} {c : Char}
    (hc : (lstrip line).toList.head? = some c) (hd : c.isDigit = true)
    (h : p.feedHeader (lstrip line) = .ok p') :
    ∃ st : SampleState, p.sampleState.feed true line = st
      ∧ p' = { p with
          tags := st.tags, armShared := st.armShared
          sampleShared := st.sampleShared, marks := st.marks } := by
  have hmark : markOf (lstrip line) = none := markOf_eq_none (by rw [hc]; rintro ⟨⟩; cases hd)
  rw [Parser.feedHeader] at h
  cases hid : digitLineIdentity (lstrip line) with
  | none =>
      rw [hid] at h
      obtain rfl := Except.ok.inj h
      refine ⟨p.sampleState, ?_, rfl⟩
      simp [SampleState.feed, hmark, headerOf, hc, hd, hid]
  | some ident =>
      obtain ⟨t, jid, host⟩ := ident
      rw [hid] at h
      obtain ⟨time, htime, h⟩ := bind_ok h
      obtain rfl := Except.ok.inj h
      refine ⟨p.sampleState.openSample ⟨time, host, jid⟩, ?_, rfl⟩
      simp [SampleState.feed, hmark, headerOf, hc, hd, hid, orValueError_ok htime]

theorem feedSchema_effect {p p' : Parser} {line : String}
    (hc : (lstrip line).toList.head? = some '!') (h : p.feedSchema (lstrip line) = .ok p') :
    ∃ bare fastBare, p' = { p with
      schema := schemaAfterLine p.schema line, schemaBare := bare, schemaFastBare := fastBare } := by
  rw [Parser.feedSchema] at h
  rw [schemaAfterLine, if_pos hc]
  split at h
  · obtain ⟨entry, hentry, h⟩ := bind_ok h
    obtain rfl := Except.ok.inj h
    rw [hentry]
    exact ⟨_, _, rfl⟩
  · cases h

theorem notePercentMark_effect (p : Parser) (line : String) :
    p.notePercentMark (lstrip line) =
      match markOf (lstrip line) with
      | some body =>
          { p with
            tags := (p.sampleState.addMark body).tags
            armShared := (p.sampleState.addMark body).armShared
            sampleShared := (p.sampleState.addMark body).sampleShared
            marks := (p.sampleState.addMark body).marks }
      | none => p := by
  rw [Parser.notePercentMark]
  cases markOf (lstrip line) with
  | none => rfl
  | some body =>
      simp only [Parser.queueMark, SampleState.addMark, Parser.sampleState]
      cases p.tags <;> rfl

/-- **One line.**  A line that is read without an exception has the effects above. -/
theorem feedLine_effect {p p' : Parser} {line : String} (h : p.feedLine line = .ok p') :
    LineEffect p p' line := by
  cases hc : (lstrip line).toList.head? with
  -- a blank line
  | none =>
      rw [feedLine_of_blank hc] at h
      obtain rfl := Except.ok.inj h
      refine ⟨rfl, rfl, rfl, ?_, ?_, [], ?_, by simp [Parser.advance]⟩
      · exact (feed_of_plain _ _ (by simp [hc]) (by simp [headerOf, hc])).symm
      · exact (schemaAfterLine_of_head _ (by simp [hc])).symm
      · exact lineRows_of_blank hc
  | some c =>
      -- a row line under tags is read; every other line gives no rows
      by_cases hrow : c.isAlpha = true ∧ p.tags ≠ none
      · obtain ⟨ha, ht⟩ := hrow
        obtain ⟨tags, ht⟩ := Option.ne_none_iff_exists'.mp ht
        rw [feedLine_of_row hc ha ht] at h
        obtain ⟨h₁, h₂, h₃, h₄, h₅, rows, h₆, h₇⟩ := feedRow_effect h
        have hne : ∀ d, d.isAlpha = false → some c ≠ some d := by
          rintro d hd ⟨⟩
          rw [ha] at hd
          cases hd
        refine ⟨h₁, h₂, h₃, h₄.trans ?_, h₅.trans ?_, rows, ?_, h₇⟩
        · exact (feed_of_plain _ _ (by rw [hc]; exact hne _ rfl)
            (headerOf_of_head hc (isAlpha_not_isDigit ha))).symm
        · exact (schemaAfterLine_of_head _ (by rw [hc]; exact hne _ rfl)).symm
        · rw [ht, lineRows_of_row hc ha]
          exact h₆
      · have hother : c.isAlpha = false ∨ p.tags = none := by
          by_cases ha : c.isAlpha = true
          · exact Or.inr (by_contra fun ht => hrow ⟨ha, ht⟩)
          · exact Or.inl (by simpa using ha)
        have hrows : lineRows p.excludeTypes p.schema p.tags p.sampleShared line = .ok [] := by
          rcases hother with ha | ht
          · exact lineRows_of_not_isAlpha hc ha
          · rw [ht]
            exact lineRows_of_untagged
        rw [feedLine_of_other hc hother] at h
        split_ifs at h with hdig hbang hpct
        -- a header line behind the start
        · obtain ⟨st, hst, rfl⟩ := feedHeader_effect hc hdig.2 h
          refine ⟨rfl, rfl, rfl, ?_, ?_, [], hrows, by simp [Parser.advance]⟩
          · rw [decide_eq_true hdig.1]
            exact hst.symm
          · refine (schemaAfterLine_of_head _ ?_).symm
            rw [hc]
            rintro ⟨⟩
            exact absurd hdig.2 (by decide)
        -- a schema line
        · subst hbang
          obtain ⟨bare, fastBare, heq⟩ := feedSchema_effect hc h
          rw [show p.advance.schema = p.schema from rfl] at heq
          obtain rfl := heq
          refine ⟨rfl, rfl, rfl, ?_, rfl, [], hrows, by simp [Parser.advance]⟩
          exact (feed_of_plain _ _ (by simp [hc]) (headerOf_of_head hc (by decide))).symm
        -- a mark, which joins the sample or is no mark
        · subst hpct
          obtain rfl := Except.ok.inj h
          have hheader : headerOf line = none := headerOf_of_head hc (by decide)
          have hschema : schemaAfterLine p.schema line = p.schema :=
            schemaAfterLine_of_head _ (by simp [hc])
          rw [notePercentMark_effect]
          cases hm : markOf (lstrip line) with
          | none =>
              refine ⟨rfl, rfl, rfl, ?_, hschema.symm, [], hrows, by simp [Parser.advance]⟩
              rw [feed_of_neither _ _ hm hheader]
              rfl
          | some body =>
              refine ⟨rfl, rfl, rfl, ?_, hschema.symm, [], hrows, by simp [Parser.advance]⟩
              rw [feed_of_mark _ _ hm]
              rfl
        -- any other line, a header in front of the start among them
        · obtain rfl := Except.ok.inj h
          refine ⟨rfl, rfl, rfl, ?_, ?_, [], hrows, by simp [Parser.advance]⟩
          · have hmark : (lstrip line).toList.head? ≠ some '%' := by
              rw [hc]
              rintro ⟨⟩
              exact hpct rfl
            by_cases hlive : p.startIdx ≤ p.lineIndex
            · have hd : c.isDigit = false := by
                by_contra hd
                exact hdig ⟨hlive, by simpa using hd⟩
              exact (feed_of_plain _ _ hmark (headerOf_of_head hc hd)).symm
            · simp only [SampleState.feed, markOf_eq_none hmark, decide_eq_false hlive,
                Bool.false_eq_true, if_false]
              rfl
          · refine (schemaAfterLine_of_head _ ?_).symm
            rw [hc]
            rintro ⟨⟩
            exact hbang rfl

theorem feedLines_append {p p' : Parser} (a b : List String) :
    p.feedLines (a ++ b) = .ok p' ↔ ∃ q, p.feedLines a = .ok q ∧ q.feedLines b = .ok p' := by
  rw [Parser.feedLines, List.foldlM_append]
  constructor
  · intro h
    exact bind_ok h
  · rintro ⟨q, ha, hb⟩
    rw [Parser.feedLines] at ha
    rw [ha]
    exact hb

theorem feedLines_cons {p p' : Parser} (line : String) (rest : List String) :
    p.feedLines (line :: rest) = .ok p' ↔
      ∃ q, p.feedLine line = .ok q ∧ q.feedLines rest = .ok p' := by
  rw [Parser.feedLines, List.foldlM_cons]
  constructor
  · intro h
    exact bind_ok h
  · rintro ⟨q, hq, hrest⟩
    rw [hq]
    exact hrest

/-- The arguments of the parser never change. -/
theorem feedLines_static {p' : Parser} (lines : List String) : ∀ {p : Parser},
    p.feedLines lines = .ok p' → p'.startIdx = p.startIdx ∧ p'.excludeTypes = p.excludeTypes := by
  induction lines with
  | nil =>
      intro p h
      obtain rfl := Except.ok.inj h
      exact ⟨rfl, rfl⟩
  | cons line rest ih =>
      intro p h
      obtain ⟨q, hq, h⟩ := (feedLines_cons line rest).mp h
      have heff := feedLine_effect hq
      obtain ⟨h₁, h₂⟩ := ih h
      exact ⟨h₁.trans heff.startIdx, h₂.trans heff.excludeTypes⟩

/-! ## Rows and their samples -/

theorem tags_of_mem_compiledRows {tags : Tags} {typ dev : String} {cols : List SchemaColumn}
    {vals : List String} {rows : List Row} {r : Row}
    (h : compiledRows tags typ dev cols vals = .ok rows) (hr : r ∈ rows) :
    r.time = tags.time ∧ r.host = tags.host := by
  rw [compiledRows] at h
  split_ifs at h with hlen
  · rw [← Except.ok.inj h] at hr
    cases hr
  · obtain ⟨values, -, h⟩ := bind_ok h
    rw [← Except.ok.inj h] at hr
    obtain ⟨i, hi, rfl⟩ := List.mem_iff_getElem.mp hr
    simp

/-- No row comes from a line that gives none. -/
theorem notMem_of_ok_nil {rows : List Row} {r : Row}
    (h : (Except.ok [] : Except PyError (List Row)) = .ok rows) : r ∉ rows := by
  rw [← Except.ok.inj h]
  exact List.not_mem_nil

/-- A row has the time and the host of the open sample. -/
theorem tags_of_mem_hardwareRows {entry : SchemaEntry} {typ dev : String} {vals : List String}
    {tags : Tags} {shared : Bool} {rows : List Row} {r : Row}
    (h : hardwareRows entry typ dev vals tags shared = .ok rows) (hr : r ∈ rows) :
    r.time = tags.time ∧ r.host = tags.host := by
  unfold hardwareRows at h
  split at h
  · simp only at h
    split_ifs at h
    · exact absurd hr (notMem_of_ok_nil h)
    · exact tags_of_mem_compiledRows h hr
  · simp only at h
    split_ifs at h
    · obtain ⟨decoded, -, h⟩ := bind_ok h
      unfold legacyRows at h
      split at h
      · exact absurd hr (notMem_of_ok_nil h)
      · exact absurd hr (notMem_of_ok_nil h)
      · obtain ⟨cols, -, h⟩ := bind_ok h
        exact tags_of_mem_compiledRows h hr
    · exact tags_of_mem_compiledRows h hr

theorem tags_of_mem_lineRows {excludeTypes : List String} {schema : List (String × SchemaEntry)}
    {tags : Option Tags} {shared : Bool} {line : String} {rows : List Row} {r : Row}
    (h : lineRows excludeTypes schema tags shared line = .ok rows) (hr : r ∈ rows) :
    ∃ t, tags = some t ∧ r.time = t.time ∧ r.host = t.host := by
  unfold lineRows at h
  split at h
  · rename_i c t hc
    refine ⟨t, rfl, ?_⟩
    split_ifs at h
    · rw [rowRows] at h
      split at h
      · split_ifs at h
        · exact absurd hr (notMem_of_ok_nil h)
        · split at h
          · exact absurd hr (notMem_of_ok_nil h)
          · exact tags_of_mem_hardwareRows h hr
      · cases h
    · exact absurd hr (notMem_of_ok_nil h)
  · exact absurd hr (notMem_of_ok_nil h)

/-- The open sample and the rows have times and hosts of a kind. -/
structure Tagged (kind : PyFloat → String → Prop) (p : Parser) : Prop where
  tags : ∀ t, p.tags = some t → kind t.time t.host
  rows : ∀ r ∈ p.rows, kind r.time r.host

theorem tagged_init (kind : PyFloat → String → Prop) (s : ℕ) (excludeTypes : List String) :
    Tagged kind (Parser.init s excludeTypes) :=
  ⟨by rintro t ⟨⟩, by rintro r ⟨⟩⟩

/-- **Rows and their samples.**  Rows have the times and hosts of headers. -/
theorem tagged_feedLines {kind : PyFloat → String → Prop} (lines : List String) :
    ∀ {p p' : Parser}, Tagged kind p →
      (∀ line ∈ lines, ∀ t, headerOf line = some t → kind t.time t.host) →
        p.feedLines lines = .ok p' → Tagged kind p' := by
  induction lines with
  | nil =>
      intro p p' hp _ h
      obtain rfl := Except.ok.inj h
      exact hp
  | cons line rest ih =>
      intro p p' hp hlines h
      obtain ⟨q, hq, h⟩ := (feedLines_cons line rest).mp h
      have heff := feedLine_effect hq
      obtain ⟨hline, hrest⟩ := List.forall_mem_cons.mp hlines
      refine ih ⟨?_, ?_⟩ hrest h
      · intro t ht
        have hsample : (p.sampleState.feed (p.startIdx ≤ p.lineIndex) line).tags = some t :=
          (congrArg SampleState.tags heff.sample).symm.trans ht
        rw [SampleState.feed] at hsample
        split at hsample
        · exact hp.tags t hsample
        · split at hsample
          · rename_i t' ht'
            split_ifs at ht'
            rw [← Option.some.inj hsample]
            exact hline t' ht'
          · exact hp.tags t hsample
      · intro r hr
        obtain ⟨rows, hrows, heq⟩ := heff.rows
        rw [heq] at hr
        rcases List.mem_append.mp hr with hr | hr
        · exact hp.rows r hr
        · obtain ⟨t, ht, htime, hhost⟩ := tags_of_mem_lineRows hrows hr
          rw [htime, hhost]
          exact hp.tags t ht

end StatsParser
