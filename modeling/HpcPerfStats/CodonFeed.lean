/-
# The Codon feed kernel

`feed_lines_full` is a second implementation of the parser, compiled by Codon, for the
stats lines of a file.  It is meant to mirror `IncrementalStatsParser`, but it was written
on its own and differs from it:

* it does not strip a line, so a line that begins with a blank is ignored
* a row may begin with `_`, and only `host_proc` is a process type
* every line `%jobs…` arms the shared flag, and no mark stamps the open sample
* a stamp is not cut to 64 characters
* schema options are recognised by their beginning, and a slow token by a substring `R=S`
* a row is cut to the shorter of columns and values, and a value is multiplied
* there is no legacy decode, and short rows and `!` lines are skipped

`lineAgrees` says for one line, in the states before it, that none of these differences
matters.  `feedLinesFull_rows` says that the two implementations give the same hardware rows
on every file whose lines all meet it.
-/
import HpcPerfStats.Lockstep
import HpcPerfStats.StatsParser

namespace CodonFeed

open PyText StatsSchema MonitorMarks StatsParser Lockstep

/-! ## Schema tokens -/

/-- `_schema_token_is_slow_tier` of the kernel. -/
def schemaTokenIsSlowTier (token : String) : Bool :=
  (splitSep ',' token).tail.any fun ele => contains "R=S" ele

/-- `_fast_schema_keys` of the kernel. -/
def fastSchemaKeys (fullEvents : List String) : List String :=
  fullEvents.filter fun t => !schemaTokenIsSlowTier t

/-- One option of a token. -/
def applyOption (col : SchemaColumn) (ele : String) : Except PyError SchemaColumn := do
  let wid ←
    if startsWith "W=" ele then orValueError (pyInt (dropChars 2 ele)) else .ok col.wid
  if startsWith "U=" ele then
    let rest := dropChars 2 ele
    let letters := filterChars Char.isAlpha rest
    let mult :=
      match pyFloat (filterChars Char.isDigit rest) with
      | some (.fin q) => q
      | _ => col.mult
    .ok { col with wid, mult, unit := if letters = "" then col.unit else letters }
  else .ok { col with wid }

/-- `_compile_schema_token` of the kernel. -/
def compileSchemaToken (token : String) : Except PyError SchemaColumn :=
  (splitSep ',' token).tail.foldlM applyOption
    ⟨(splitSep ',' token).headD "", 64, 1, "#"⟩

/-- `_compile_schema_tokens` of the kernel. -/
def compileSchemaTokens (tokens : List String) : Except PyError (List SchemaColumn) :=
  tokens.mapM compileSchemaToken

/-- What the kernel stores for a `!` line. -/
def schemaEntry (tokens : List String) : Except PyError SchemaEntry := do
  let compiled ← compileSchemaTokens tokens
  let fastCompiled ← compileSchemaTokens (fastSchemaKeys tokens)
  .ok ⟨tokens, fastSchemaKeys tokens, compiled, fastCompiled⟩

/-! ## Rows -/

/-- `x * m`. -/
def scale (x : PyFloat) (m : ℚ) : PyFloat :=
  match x with
  | .fin q => .fin (q * m)
  | .inf negative => if m = 0 then .nan else .inf (negative != decide (m < 0))
  | .nan => .nan

/-- `_shared_row_dev` of the kernel. -/
def sharedRowDev (dev typ jid : String) (shared : Bool) : String :=
  if gpuStatsTypes.contains typ then dev
  else if realJid jid = false then dev
  else if typ = hostMemJobType then
    if startsWith "j:" dev then dev else "j:" ++ jid
  else if shared = false then dev
  else "j:" ++ jid

/-- `_append_stats`: columns and values are cut to the shorter list. -/
def appendStats (tags : Tags) (typ dev : String) (compiled : List SchemaColumn)
    (vals : List String) : Except PyError (List Row) :=
  (compiled.zip vals).mapM fun cv => do
    let x ← orValueError (pyFloat cv.2)
    .ok ⟨tags.time, tags.host, tags.jid, typ, dev, cv.1.event, scale x cv.1.mult, cv.1.wid,
      cv.1.mult, cv.1.unit⟩

/-- A merged process of the kernel. -/
structure Proc where
  jid : String
  host : String
  proc : String
  fields : List (String × ℤ)

/-- The key of a process. -/
def Proc.key (p : Proc) : String :=
  p.jid ++ "\x00" ++ p.host ++ "\x00" ++ p.proc

/-- The fields of a process that was seen before: peaks take the maximum, `vm_rss` and
`threads` the later value, everything else the first. -/
def mergeFields (old fields : List (String × ℤ)) : List (String × ℤ) :=
  let peaks := hostProcPeakKeys.foldl (fun acc key =>
    match fields.lookup key with
    | none => acc
    | some new =>
        match acc.lookup key with
        | none => PyDict.set acc key new
        | some seen => if new > seen then PyDict.set acc key new else acc) old
  ["vm_rss", "threads"].foldl (fun acc key =>
    match fields.lookup key with
    | none => acc
    | some new => PyDict.set acc key new) peaks

/-- `_merge_proc`. -/
def mergeProc (row : Proc) : List Proc → List Proc
  | [] => [row]
  | r :: rest =>
      if r.key = row.key then { r with fields := mergeFields r.fields row.fields } :: rest
      else r :: mergeProc row rest

/-- The state of `feed_lines_full`. -/
structure Feed where
  tags : Option Tags
  armShared : Bool
  sampleShared : Bool
  schema : List (String × SchemaEntry)
  rows : List Row
  procs : List Proc

def Feed.init : Feed :=
  ⟨none, false, false, [], [], []⟩

/-- The columns of an entry under a tier marker. -/
def columns (entry : SchemaEntry) (tier : Option String) : List SchemaColumn :=
  if tier = some "@fast" then entry.fastCompiled else entry.compiled

/-- The fields of a `host_proc` row; a value that is no finite number is left out. -/
def procFields (bareKeys vals : List String) : List (String × ℤ) :=
  (bareKeys.zip vals).foldl (fun fields kv =>
    match (pyFloat kv.2).bind PyFloat.toInt with
    | some n => PyDict.set fields kv.1 n
    | none => fields) []

/-- A `host_proc` row. -/
def Feed.feedProc (k : Feed) (dev : String) (vals : List String) (tags : Tags) : Feed :=
  let tiered := takeTier vals
  let entry := k.schema.lookup "host_proc"
  let bareKeys :=
    match entry with
    | none => hostProcKeys
    | some e =>
        (if tiered.1 = some "@fast" then e.fastTokens else e.tokens).map schemaKeyBasename
  { k with procs := mergeProc ⟨tags.jid, tags.host, dev, procFields bareKeys tiered.2⟩ k.procs }

/-- A data row. -/
def Feed.feedRow (k : Feed) (s : String) (tags : Tags) : Except PyError Feed :=
  match split s with
  | typ :: dev :: vals =>
      if typ = "host_proc" then
        if vals = [] then .ok k else .ok (k.feedProc dev vals tags)
      else
        match k.schema.lookup typ with
        | none => .ok k
        | some entry => do
            let tiered := takeTier vals
            let stamped := sharedRowDev dev typ tags.jid k.sampleShared
            let rows ← appendStats tags typ stamped (columns entry tiered.1) tiered.2
            .ok { k with rows := k.rows ++ rows }
  | _ => .ok k

/-- A sample header. -/
def Feed.feedHeader (k : Feed) (s : String) : Except PyError Feed :=
  match split s with
  | t :: jid :: host :: _ => do
      let time ← orValueError (pyFloat t)
      .ok { k with
        tags := some ⟨time, host, jid⟩
        sampleShared := k.armShared && realJid jid
        armShared := false }
  | _ => .ok k

/-- A schema line. -/
def Feed.feedSchema (k : Feed) (s : String) : Except PyError Feed :=
  match split s with
  | label :: token :: tokens => do
      let entry ← schemaEntry (token :: tokens)
      .ok { k with schema := PyDict.set k.schema (dropChars 1 label) entry }
  | _ => .ok k

/-- One line of `feed_lines_full`. -/
def Feed.feedLine (startIdx : ℤ) (k : Feed) (s : String) : Except PyError Feed :=
  match s.toList.head? with
  | none => .ok k
  | some c =>
      if c = '%' then .ok { k with armShared := k.armShared || startsWith "%jobs" s }
      else
        match k.tags, c.isAlpha || c == '_' with
        | some tags, true => k.feedRow s tags
        | _, _ =>
            if 0 ≤ startIdx ∧ c.isDigit = true then k.feedHeader s
            else if c = '!' then k.feedSchema s
            else .ok k

/-- `feed_lines_full`. -/
def feedLinesFull (lines : List String) (startIdx : ℤ) : Except PyError Feed :=
  lines.foldlM (Feed.feedLine startIdx) Feed.init

/-! ## When a line is read alike

The conditions speak about the two states before the line, the kernel's `k` and the parser's
`p`. -/

/-- The stripped line means nothing to the parser: no row of an open sample, no header and
no schema. -/
def inert (p : Parser) (s : String) : Bool :=
  match s.toList.head? with
  | none => true
  | some c =>
      (!c.isAlpha || p.tags.isNone) && (!c.isDigit || (digitLineIdentity s).isNone) && c != '!'

/-- A `!` line declares an event, and both compile its tokens or neither does. -/
def schemaAgrees (s : String) : Bool :=
  2 ≤ (split s).length
    && (schemaEntry (split s).tail).isOk == (StatsParser.schemaEntry (split s).tail).isOk

/-- The multiplier leaves the value as it is. -/
def multHarmless (cv : SchemaColumn × String) : Bool :=
  (pyFloat cv.2).all fun x => scale x cv.1.mult == x

/-- The values of a row fit the columns that both tables hold for the tier, none is changed
by its multiplier, and both stamp the device alike. -/
def valuesAgree (kcols pcols : List SchemaColumn) (kdev pdev : String) (vals : List String) :
    Bool :=
  vals.isEmpty
    || kcols == pcols
      && (pcols.isEmpty
        || vals.length == pcols.length && (pcols.zip vals).all multHarmless && kdev == pdev)

/-- A row of a hardware type: unknown to both, or without legacy decode and alike. -/
def hardwareAgrees (k : Feed) (p : Parser) (tags : Tags) (typ dev : String)
    (vals : List String) : Bool :=
  match k.schema.lookup typ, p.schema.lookup typ with
  | some ke, some pe =>
      !schemaNeedsLegacyHardwareDecode typ pe.tokens
        && valuesAgree (columns ke (takeTier vals).1) (columns pe (takeTier vals).1)
          (sharedRowDev dev typ tags.jid k.sampleShared)
          (StatsParser.sharedRowDev dev typ tags.jid p.sampleShared) (takeTier vals).2
  | _, _ => true

/-- A process row: no known field is infinite, and `proc` has no schema. -/
def procAgrees (k : Feed) (p : Parser) (typ : String) (vals : List String) : Bool :=
  (typ != "proc" || (k.schema.lookup "proc").isNone) && p.procReadable typ vals

/-- A data row has a type, a device and a value, and is read alike. -/
def rowAgrees (k : Feed) (p : Parser) (tags : Tags) (s : String) : Bool :=
  match split s with
  | typ :: dev :: v :: vals =>
      if typ = "proc" ∨ typ = "host_proc" then procAgrees k p typ (v :: vals)
      else hardwareAgrees k p tags typ dev (v :: vals)
  | _ => false

/-- The type of a row that begins with `_` is unknown. -/
def underscoreAgrees (k : Feed) (s : String) : Bool :=
  match split s with
  | typ :: _ => (k.schema.lookup typ).isNone
  | _ => true

/-- **The condition on one line.** -/
def lineAgrees (k : Feed) (p : Parser) (line : String) : Bool :=
  match line.toList.head? with
  | none => true
  | some c =>
      if isSpace c then inert p (lstrip line)
      else if c = '!' then schemaAgrees line
      else
        match p.tags with
        | none => true
        | some tags =>
            if c.isAlpha then rowAgrees k p tags line
            else if c = '_' then underscoreAgrees k line
            else true

/-- The states of the kernel and of the parser that have read the same lines alike. -/
structure Related (k : Feed) (p : Parser) : Prop where
  startIdx : p.startIdx = 0
  excludeTypes : p.excludeTypes = []
  tags : k.tags = p.tags
  schema : ∀ typ, (k.schema.lookup typ).map SchemaEntry.tokens
    = (p.schema.lookup typ).map SchemaEntry.tokens
  rows : k.rows = p.rows

theorem related_init : Related Feed.init (Parser.init 0 []) :=
  ⟨rfl, rfl, rfl, fun _ => rfl, rfl⟩

/-! ## Rows -/

/-- With as many values as columns and harmless multipliers, cutting and multiplying change
nothing. -/
theorem appendStats_eq (tags : Tags) (typ dev : String) : ∀ (cols : List SchemaColumn)
    (vals : List String), vals.length = cols.length → (cols.zip vals).all multHarmless = true →
      appendStats tags typ dev cols vals = compiledRows tags typ dev cols vals := by
  intro cols vals hlen hmult
  rw [compiledRows, if_neg (not_not_intro hlen), appendStats]
  induction cols generalizing vals with
  | nil =>
      rw [List.length_nil, List.length_eq_zero_iff] at hlen
      subst hlen
      rfl
  | cons c cols ih =>
      cases vals with
      | nil => cases hlen
      | cons v vals =>
          rw [List.zip_cons_cons, List.all_cons, Bool.and_eq_true] at hmult
          rw [List.zip_cons_cons, List.mapM_cons, List.mapM_cons,
            ih vals (Nat.succ.inj hlen) hmult.2]
          cases hv : pyFloat v with
          | none => rfl
          | some x =>
              have hx : scale x c.mult = x := by
                simpa [multHarmless, hv] using hmult.1
              cases vals.mapM fun w => orValueError (pyFloat w) with
              | error e => rfl
              | ok values =>
                  simp only [orValueError, bind, Except.bind, pure, Except.pure,
                    List.zipWith_cons_cons, hx]

theorem compiledRows_nil (tags : Tags) (typ dev : String) (cols : List SchemaColumn) :
    compiledRows tags typ dev cols [] = .ok [] := by
  cases cols <;> rfl

theorem compiledRows_of_no_columns (tags : Tags) (typ dev : String) (vals : List String) :
    compiledRows tags typ dev [] vals = .ok [] := by
  cases vals <;> rfl

/-- The rows of a line under the condition. -/
theorem appendStats_eq_of_valuesAgree (tags : Tags) (typ : String) {kcols pcols : List SchemaColumn}
    {kdev pdev : String} {vals : List String} (h : valuesAgree kcols pcols kdev pdev vals = true) :
    appendStats tags typ kdev kcols vals = compiledRows tags typ pdev pcols vals := by
  cases vals with
  | nil =>
      rw [compiledRows_nil, appendStats, List.zip_nil_right]
      rfl
  | cons v vals =>
      simp only [valuesAgree, List.isEmpty_cons, Bool.false_or, Bool.and_eq_true, beq_iff_eq,
        Bool.or_eq_true] at h
      obtain ⟨rfl, hempty | ⟨⟨hlen, hmult⟩, rfl⟩⟩ := h
      · rw [List.isEmpty_iff] at hempty
        rw [hempty, compiledRows_of_no_columns]
        rfl
      · exact appendStats_eq tags typ kdev kcols _ hlen hmult

/-- Without legacy decode a row is stored by the columns of its tier. -/
theorem hardwareRows_of_plain {entry : SchemaEntry} {typ dev : String} {vals : List String}
    {tags : Tags} {shared : Bool}
    (h : schemaNeedsLegacyHardwareDecode typ entry.tokens = false) :
    hardwareRows entry typ dev vals tags shared
      = compiledRows tags typ (StatsParser.sharedRowDev dev typ tags.jid shared)
          (columns entry (takeTier vals).1) (takeTier vals).2 := by
  rw [hardwareRows]
  simp only [outputType, h, Bool.false_eq_true, if_false]
  rcases takeTier vals with ⟨tier, vs⟩
  by_cases ht : tier = some "@fast"
  · subst ht
    rfl
  · rw [columns, if_neg ht]
    split
    · rename_i heq
      exact absurd (congrArg Prod.fst heq) ht
    · rename_i heq
      obtain ⟨rfl, rfl⟩ := Prod.mk.inj heq
      rfl

theorem splitMax_two {s typ dev v : String} {vals : List String}
    (h : split s = typ :: dev :: v :: vals) :
    ∃ rest, splitMax 2 s = [typ, dev, rest] ∧ split rest = v :: vals := by
  rcases splitMax_eq_split 2 s with ⟨hlen, -⟩ | ⟨-, rest, heq, hrest⟩
  · rw [h, List.length_cons, List.length_cons, List.length_cons] at hlen
    omega
  · rw [h] at heq hrest
    exact ⟨rest, heq, hrest⟩

/-! ## One line -/

variable {k : Feed} {p : Parser} {tags : Tags} {s typ dev v : String} {vals : List String}

theorem Related.advance (h : Related k p) : Related k p.advance :=
  ⟨h.startIdx, h.excludeTypes, h.tags, h.schema, h.rows⟩

/-- New rows on both sides. -/
theorem Related.append (h : Related k p) (rows : List Row) :
    Related { k with rows := k.rows ++ rows } { p with rows := p.rows ++ rows } :=
  ⟨h.startIdx, h.excludeTypes, h.tags, h.schema, congrArg (· ++ rows) h.rows⟩

theorem Related.lookup_isNone (h : Related k p) (typ : String) :
    (k.schema.lookup typ).isNone = (p.schema.lookup typ).isNone := by
  have hs := congrArg Option.isNone (h.schema typ)
  rwa [Option.isNone_map, Option.isNone_map] at hs

theorem agree_proc (h : Related k p) (hs : split s = typ :: dev :: v :: vals)
    (htyp : typ = "proc" ∨ typ = "host_proc") (hc : procAgrees k p typ (v :: vals) = true) :
    Agree Related (k.feedRow s tags) (p.feedRow s tags) := by
  rw [procAgrees, Bool.and_eq_true] at hc
  obtain ⟨hproc, hfields⟩ := hc
  obtain ⟨rest, hsplit, hrest⟩ := splitMax_two hs
  have hp : p.feedRow s tags = p.feedProc typ dev (v :: vals) tags := by
    rw [Parser.feedRow, hsplit]
    simp only [h.excludeTypes, List.contains_nil, Bool.false_eq_true, if_false, if_pos htyp, hrest]
  obtain ⟨p', hp'⟩ : ∃ p', p.feedProc typ dev (v :: vals) tags = .ok p' := feedProc_ok hfields
  obtain ⟨bare, fastBare, procs, rfl⟩ := feedProc_frame hp'
  rw [hp, hp', Feed.feedRow, hs]
  simp only
  by_cases hhost : typ = "host_proc"
  · rw [if_pos hhost, if_neg (List.cons_ne_nil v vals)]
    exact agree_ok ⟨h.startIdx, h.excludeTypes, h.tags, h.schema, h.rows⟩
  · have hpr : typ = "proc" := htyp.resolve_right hhost
    subst hpr
    have hnone : k.schema.lookup "proc" = none := by simpa using hproc
    rw [if_neg hhost, hnone]
    exact agree_ok ⟨h.startIdx, h.excludeTypes, h.tags, h.schema, h.rows⟩

theorem agree_hardware (h : Related k p) (hs : split s = typ :: dev :: v :: vals)
    (htyp : ¬(typ = "proc" ∨ typ = "host_proc"))
    (hc : hardwareAgrees k p tags typ dev (v :: vals) = true) :
    Agree Related (k.feedRow s tags) (p.feedRow s tags) := by
  obtain ⟨rest, hsplit, hrest⟩ := splitMax_two hs
  have hhost : typ ≠ "host_proc" := fun hh => htyp (Or.inr hh)
  have hex : p.excludeTypes.contains typ = false := by rw [h.excludeTypes]; rfl
  rw [Feed.feedRow, Parser.feedRow, hs, hsplit]
  simp only [hex, Bool.false_eq_true, if_false, if_neg htyp, hrest, if_neg hhost]
  rw [hardwareAgrees] at hc
  cases hp : p.schema.lookup typ with
  | none =>
      have hk : k.schema.lookup typ = none := by
        have hn := h.lookup_isNone typ
        rw [hp] at hn
        simpa using hn
      rw [hk]
      exact agree_ok h
  | some pe =>
      obtain ⟨ke, hk⟩ : ∃ ke, k.schema.lookup typ = some ke := by
        have hn := h.lookup_isNone typ
        rw [hp] at hn
        exact Option.ne_none_iff_exists'.mp (by simpa using hn)
      simp only [hp, hk, Bool.and_eq_true, Bool.not_eq_true'] at hc
      obtain ⟨hlegacy, hvals⟩ := hc
      rw [hk]
      simp only [hardwareRows_of_plain hlegacy, ← appendStats_eq_of_valuesAgree tags typ hvals]
      cases appendStats tags typ (sharedRowDev dev typ tags.jid k.sampleShared)
        (columns ke (takeTier (v :: vals)).1) (takeTier (v :: vals)).2 with
      | error e => exact agree_error _ e e
      | ok rows => exact agree_ok (h.append rows)

theorem agree_row (h : Related k p) (hc : rowAgrees k p tags s = true) :
    Agree Related (k.feedRow s tags) (p.feedRow s tags) := by
  rw [rowAgrees] at hc
  split at hc
  · rename_i typ dev v vals hs
    split_ifs at hc with htyp
    · exact agree_proc h hs htyp hc
    · exact agree_hardware h hs htyp hc
  · cases hc

/-- The line number plays no part. -/
theorem rowAgrees_advance : rowAgrees k p.advance tags s = rowAgrees k p tags s := by
  simp only [rowAgrees, procAgrees, procReadable_advance]
  rfl

theorem agree_header (h : Related k p) :
    Agree Related (k.feedHeader s) (p.feedHeader s) := by
  rcases hs : split s with _ | ⟨t, _ | ⟨jid, _ | ⟨host, rest⟩⟩⟩
  · simp only [Feed.feedHeader, Parser.feedHeader, digitLineIdentity, hs]
    exact agree_ok h
  · simp only [Feed.feedHeader, Parser.feedHeader, digitLineIdentity, hs]
    exact agree_ok h
  · simp only [Feed.feedHeader, Parser.feedHeader, digitLineIdentity, hs]
    exact agree_ok h
  · simp only [Feed.feedHeader, Parser.feedHeader, digitLineIdentity, hs]
    cases pyFloat t with
    | none => exact agree_error _ _ _
    | some time => exact agree_ok ⟨h.startIdx, h.excludeTypes, rfl, h.schema, h.rows⟩

theorem tokens_of_schemaEntry {tokens : List String} {e : SchemaEntry}
    (h : schemaEntry tokens = .ok e) : e.tokens = tokens := by
  obtain ⟨compiled, -, h⟩ := bind_ok h
  obtain ⟨fastCompiled, -, h⟩ := bind_ok h
  obtain rfl := Except.ok.inj h
  rfl

theorem tokens_of_parserEntry {tokens : List String} {e : SchemaEntry}
    (h : StatsParser.schemaEntry tokens = .ok e) : e.tokens = tokens := by
  obtain ⟨compiled, -, h⟩ := bind_ok h
  obtain ⟨fastCompiled, -, h⟩ := bind_ok h
  obtain rfl := Except.ok.inj h
  rfl

theorem agree_schema (h : Related k p) (hc : schemaAgrees s = true) :
    Agree Related (k.feedSchema s) (p.feedSchema s) := by
  rw [schemaAgrees, Bool.and_eq_true, decide_eq_true_eq, beq_iff_eq] at hc
  obtain ⟨hlen, hok⟩ := hc
  obtain ⟨label, token, tokens, hs⟩ : ∃ label token tokens, split s = label :: token :: tokens := by
    rcases hsp : split s with _ | ⟨label, _ | ⟨token, tokens⟩⟩
    · rw [hsp] at hlen; simp at hlen
    · rw [hsp] at hlen; simp at hlen
    · exact ⟨label, token, tokens, rfl⟩
  obtain ⟨rest, hsplit, hrest⟩ : ∃ rest, splitMax 1 s = [label, rest]
      ∧ split rest = token :: tokens := by
    rcases splitMax_eq_split 1 s with ⟨hle, -⟩ | ⟨-, rest, heq, hrest⟩
    · omega
    · rw [hs] at heq hrest
      exact ⟨rest, heq, hrest⟩
  rw [Feed.feedSchema, Parser.feedSchema, hs, hsplit]
  rw [hs, List.tail_cons] at hok
  simp only [hrest]
  cases hk : schemaEntry (token :: tokens) with
  | error e =>
      cases hp : StatsParser.schemaEntry (token :: tokens) with
      | error e => exact agree_error _ _ _
      | ok pe => rw [hk, hp] at hok; cases hok
  | ok ke =>
      cases hp : StatsParser.schemaEntry (token :: tokens) with
      | error e => rw [hk, hp] at hok; cases hok
      | ok pe =>
          apply agree_ok
          refine ⟨h.startIdx, h.excludeTypes, h.tags, fun typ => ?_, h.rows⟩
          show ((PyDict.set k.schema (dropChars 1 label) ke).lookup typ).map _
            = ((PyDict.set p.schema (dropChars 1 label) pe).lookup typ).map _
          by_cases htyp : typ = dropChars 1 label
          · subst htyp
            rw [PyDict.lookup_set_self, PyDict.lookup_set_self, Option.map_some, Option.map_some,
              tokens_of_schemaEntry hk, tokens_of_parserEntry hp]
          · rw [PyDict.lookup_set_of_ne _ _ htyp, PyDict.lookup_set_of_ne _ _ htyp]
            exact h.schema typ

/-- Marks do not touch what the two states have in common. -/
theorem Related.notePercentMark (h : Related k p) (line : String) :
    Related k (p.notePercentMark (lstrip line)) := by
  rw [notePercentMark_effect]
  cases markOf (lstrip line) with
  | none => exact h
  | some body => exact ⟨h.startIdx, h.excludeTypes, h.tags, h.schema, h.rows⟩

/-- A line that the kernel ignores. -/
theorem related_of_inert (h : Related k p) {line : String}
    (hc : inert p (lstrip line) = true) : Agree Related (.ok k : Except PyError Feed)
      (p.feedLine line) := by
  rw [inert] at hc
  cases hhead : (lstrip line).toList.head? with
  | none =>
      rw [feedLine_of_blank hhead]
      exact agree_ok h.advance
  | some c =>
      simp only [hhead, Bool.and_eq_true, Bool.or_eq_true, Bool.not_eq_true',
        Option.isNone_iff_eq_none, bne_iff_ne] at hc
      obtain ⟨⟨hrow, hdigit⟩, hbang⟩ := hc
      rw [feedLine_of_other hhead hrow]
      split_ifs with hd hpct
      · have hnone : digitLineIdentity (lstrip line) = none := by
          rcases hdigit with hdigit | hdigit
          · rw [hd.2] at hdigit; cases hdigit
          · exact hdigit
        rw [Parser.feedHeader, hnone]
        exact agree_ok h.advance
      · exact agree_ok (h.advance.notePercentMark line)
      · exact agree_ok h.advance

theorem lstrip_eq_self {line : String} {c : Char} (hc : line.toList.head? = some c)
    (hspace : isSpace c = false) : lstrip line = line := by
  apply String.toList_injective
  rw [toList_lstrip]
  cases hl : line.toList with
  | nil => rfl
  | cons d cs =>
      rw [hl, List.head?_cons, Option.some.injEq] at hc
      rw [hc, List.dropWhile_cons_of_neg (by simp [hspace])]

theorem feedLine_row {startIdx : ℤ} {c : Char} (hc : s.toList.head? = some c) (hpct : c ≠ '%')
    (hrow : (c.isAlpha || c == '_') = true) (ht : k.tags = some tags) :
    k.feedLine startIdx s = k.feedRow s tags := by
  simp only [Feed.feedLine, hc, if_neg hpct, hrow, ht]

theorem feedLine_other {startIdx : ℤ} {c : Char} (hc : s.toList.head? = some c) (hpct : c ≠ '%')
    (hother : (c.isAlpha || c == '_') = false ∨ k.tags = none) :
    k.feedLine startIdx s =
      if 0 ≤ startIdx ∧ c.isDigit = true then k.feedHeader s
      else if c = '!' then k.feedSchema s
      else .ok k := by
  simp only [Feed.feedLine, hc, if_neg hpct]
  rcases hother with hrow | ht
  · rw [hrow]
    cases k.tags <;> rfl
  · rw [ht]

/-- A blank begins no line of the kernel. -/
theorem feedLine_of_isSpace {line : String} {c : Char} (hc : line.toList.head? = some c)
    (hspace : isSpace c = true) (startIdx : ℤ) : k.feedLine startIdx line = .ok k := by
  have hn : c.toNat = 32 ∨ (9 ≤ c.toNat ∧ c.toNat ≤ 13) ∨ (28 ≤ c.toNat ∧ c.toNat ≤ 31) := by
    simp only [isSpace, Bool.or_eq_true, beq_iff_eq, Bool.and_eq_true, decide_eq_true_eq] at hspace
    rcases hspace with (rfl | h) | h
    · exact Or.inl rfl
    · exact Or.inr (Or.inl h)
    · exact Or.inr (Or.inr h)
  have hne : ∀ d : Char, 33 ≤ d.toNat → c ≠ d := by
    rintro d hd rfl
    omega
  have hdigit : c.isDigit = false := by
    rw [← Bool.not_eq_true]
    intro hd
    have := toNat_of_isDigit hd
    omega
  have halpha : c.isAlpha = false := by
    rw [← Bool.not_eq_true]
    intro ha
    have := toNat_of_isAlpha ha
    omega
  have hunder : (c == '_') = false := by simpa using hne '_' (by decide)
  have hrow : (c.isAlpha || c == '_') = false := by rw [halpha, hunder]; rfl
  rw [feedLine_other hc (hne '%' (by decide)) (Or.inl hrow), hdigit, if_neg (by simp),
    if_neg (hne '!' (by decide))]

/-- A row of the kernel that begins with `_` under the condition. -/
theorem feedRow_of_underscore (h : Related k p) (hc : underscoreAgrees k s = true) :
    ∃ k', k.feedRow s tags = .ok k' ∧ Related k' p := by
  rw [underscoreAgrees] at hc
  rcases hs : split s with _ | ⟨typ, _ | ⟨dev, vals⟩⟩
  · exact ⟨k, by rw [Feed.feedRow, hs], h⟩
  · exact ⟨k, by rw [Feed.feedRow, hs], h⟩
  · simp only [hs, Option.isNone_iff_eq_none] at hc
    simp only [Feed.feedRow, hs, hc]
    split_ifs
    · exact ⟨k, rfl, h⟩
    · exact ⟨_, rfl, ⟨h.startIdx, h.excludeTypes, h.tags, h.schema, h.rows⟩⟩
    · exact ⟨k, rfl, h⟩

/-- A line without blanks in front of it. -/
theorem agree_stripped (h : Related k p) {line : String} {c : Char} (hstrip : lstrip line = line)
    (hc : (lstrip line).toList.head? = some c)
    (hagree : (if c = '!' then schemaAgrees line
      else
        match p.tags with
        | none => true
        | some tags =>
            if c.isAlpha then rowAgrees k p tags line
            else if c = '_' then underscoreAgrees k line
            else true) = true) :
    Agree Related (k.feedLine 0 line) (p.feedLine line) := by
  have hck : line.toList.head? = some c := by rw [← hstrip, hc]
  by_cases hpct : c = '%'
  · subst hpct
    rw [feedLine_of_other hc (Or.inl (by decide)), if_neg (by simp), if_neg (by decide),
      if_pos rfl]
    simp only [Feed.feedLine, hck, if_true]
    have hmark := h.advance.notePercentMark line
    exact agree_ok ⟨hmark.startIdx, hmark.excludeTypes, hmark.tags, hmark.schema, hmark.rows⟩
  by_cases hbang : c = '!'
  · subst hbang
    rw [if_pos rfl] at hagree
    rw [feedLine_of_other hc (Or.inl (by decide)), feedLine_other hck hpct (Or.inl (by decide)),
      hstrip, if_neg (by simp), if_pos rfl, if_neg (by simp), if_pos rfl]
    exact agree_schema h.advance hagree
  rw [if_neg hbang] at hagree
  by_cases hrow : (c.isAlpha || c == '_') = true ∧ p.tags ≠ none
  · obtain ⟨hrow, ht⟩ := hrow
    obtain ⟨tags, ht⟩ := Option.ne_none_iff_exists'.mp ht
    rw [feedLine_row hck hpct hrow (h.tags.trans ht)]
    simp only [ht] at hagree
    by_cases ha : c.isAlpha = true
    · rw [if_pos ha] at hagree
      rw [feedLine_of_row hc ha ht, hstrip]
      exact agree_row h.advance (rowAgrees_advance.trans hagree)
    · have hunder : c = '_' := by simpa [ha] using hrow
      subst hunder
      rw [if_neg ha, if_pos rfl] at hagree
      rw [feedLine_of_other hc (Or.inl (by decide)), if_neg (by simp), if_neg hbang, if_neg hpct]
      obtain ⟨k', hk', hrel⟩ := feedRow_of_underscore h.advance hagree
      rw [hk']
      exact agree_ok hrel
  · -- a header, or a line that means nothing to both
    have hother : (c.isAlpha || c == '_') = false ∨ p.tags = none := by
      by_cases hr : (c.isAlpha || c == '_') = true
      · exact Or.inr (by_contra fun ht => hrow ⟨hr, ht⟩)
      · exact Or.inl (by simpa using hr)
    have hother' : c.isAlpha = false ∨ p.tags = none :=
      hother.imp_left fun hr => (Bool.or_eq_false_iff.mp hr).1
    rw [feedLine_other hck hpct (by rw [h.tags]; exact hother), feedLine_of_other hc hother',
      hstrip, h.startIdx, if_neg hbang, if_neg hbang, if_neg hpct]
    by_cases hd : c.isDigit = true
    · rw [if_pos ⟨Int.le_refl 0, hd⟩, if_pos ⟨Nat.zero_le _, hd⟩]
      exact agree_header h.advance
    · rw [if_neg fun hh => hd hh.2, if_neg fun hh => hd hh.2]
      exact agree_ok h.advance

/-- **One line.**  Under the condition both fail, or both go on with related states. -/
theorem agree_line (k : Feed) (p : Parser) (line : String) (h : Related k p)
    (hc : lineAgrees k p line = true) :
    Agree Related (k.feedLine 0 line) (p.feedLine line) := by
  rw [lineAgrees] at hc
  cases hhead : line.toList.head? with
  | none =>
      have hnil : line.toList = [] := List.head?_eq_none_iff.mp hhead
      have hblank : (lstrip line).toList.head? = none := by rw [toList_lstrip, hnil]; rfl
      rw [feedLine_of_blank hblank, Feed.feedLine, hhead]
      exact agree_ok h.advance
  | some c =>
      simp only [hhead] at hc
      by_cases hspace : isSpace c = true
      · rw [if_pos hspace] at hc
        rw [feedLine_of_isSpace hhead hspace]
        exact related_of_inert h hc
      · rw [if_neg hspace] at hc
        have hstrip : lstrip line = line := lstrip_eq_self hhead (by simpa using hspace)
        have hhead' : (lstrip line).toList.head? = some c := by rw [hstrip, hhead]
        exact agree_stripped h hstrip hhead' hc

/-! ## Whole files -/

/-- The hardware rows that the kernel returns; none when it raises an exception. -/
def kernelRows (lines : List String) : Option (List Row) :=
  (feedLinesFull lines 0).toOption.map Feed.rows

/-- The hardware rows of a fresh parser from the first line on, with no excluded types. -/
def parserRows (lines : List String) : Option (List Row) :=
  ((Parser.init 0 []).feedLines lines).toOption.map Parser.rows

/-- Every line of the file meets the condition in the states before it. -/
def LinesAgree (lines : List String) : Prop :=
  AlongBoth (Feed.feedLine 0) Parser.feedLine (fun k p line => lineAgrees k p line = true)
    Feed.init (Parser.init 0 []) lines

instance (lines : List String) : Decidable (LinesAgree lines) :=
  inferInstanceAs (Decidable (AlongBoth _ _ _ _ _ _))

/-- Two samples, the first of a shared node. -/
def mirroredLines : List String :=
  ["!cpu user,E,W=48 idle,E,R=S", "%jobs jids=7", "1710000001 7 hosta", "cpu 0 5 6", "",
    "1710000002 7 hosta", "cpu 0 @fast 8"]

/-- A counter in units of 64 bytes. -/
def scaledLines : List String :=
  ["!imc CAS_READS,W=48,U=64B", "1710000001 7 hosta", "imc 0 5"]

end CodonFeed
