/-
# Job stamps on a shared node

On a shared node the monitor writes a `%jobs` mark behind the header of a sample, and the
parser then replaces the device of the sample's rows by the job stamp `j:<jid>`.  A stream
is a sequence of blocks in the order the monitor writes them: header, marks, rows.

The parser keeps two flags.  A `%jobs` mark inside an open sample sets the flag of that
sample and also arms the flag that the next header consumes, so the rows of a block are
stamped when the block or the block before it carries a mark (`leakyRows`).  `ownRows` is
the intended result: every block is stamped by its own mark.

`rows_own_iff` says exactly when the two are the same: no block without a mark and with a
real job follows a block with a mark and has a row that a stamp would change.
-/
import HpcPerfStats.StatsParser

namespace SharedStamp

open PyText StatsSchema MonitorMarks StatsParser

abbrev SchemaTable := List (String × SchemaEntry)

/-! ## Streams of blocks -/

/-- A line that is neither a mark nor a header. -/
def Plain (line : String) : Prop :=
  (lstrip line).toList.head? ≠ some '%' ∧ headerOf line = none

instance (line : String) : Decidable (Plain line) :=
  inferInstanceAs (Decidable (_ ∧ _))

/-- A sample as the monitor writes it. -/
structure Block where
  header : String
  tags : Tags
  marks : List String
  rows : List String
  header_eq : headerOf header = some tags
  marks_percent : ∀ m ∈ marks, (lstrip m).toList.head? = some '%'
  rows_plain : ∀ r ∈ rows, Plain r

def Block.lines (b : Block) : List String :=
  b.header :: b.marks ++ b.rows

/-- The line names a job in a `%jobs` mark. -/
def namesJob (line : String) : Bool :=
  (markOf (lstrip line)).any MarkBody.isJobs

/-- The block carries a `%jobs` mark that names a job. -/
def Block.marked (b : Block) : Bool :=
  b.marks.any namesJob

/-- The schema lines of a file, then its blocks. -/
structure Stream where
  preamble : List String
  blocks : List Block
  preamble_plain : ∀ line ∈ preamble, Plain line

def Stream.lines (s : Stream) : List String :=
  s.preamble ++ s.blocks.flatMap Block.lines

/-- The schema table behind a list of lines. -/
def schemaAfter (schema : SchemaTable) (lines : List String) : SchemaTable :=
  lines.foldl schemaAfterLine schema

/-- The rows of a line; none when it raises an exception. -/
def emitted : Except PyError (List Row) → List Row
  | .ok rows => rows
  | .error _ => []

/-- The rows of the lines of a block, with one shared flag for all of them. -/
def rowsOfLines (excludeTypes : List String) (tags : Option Tags) (shared : Bool) :
    SchemaTable → List String → List Row
  | _, [] => []
  | schema, line :: rest =>
      emitted (lineRows excludeTypes schema tags shared line)
        ++ rowsOfLines excludeTypes tags shared (schemaAfterLine schema line) rest

/-- The rows of a stream when every block is stamped by its own mark. -/
def ownRows (excludeTypes : List String) : SchemaTable → List Block → List Row
  | _, [] => []
  | schema, b :: bs =>
      rowsOfLines excludeTypes (some b.tags) b.marked schema b.rows
        ++ ownRows excludeTypes (schemaAfter schema b.rows) bs

/-- The rows of a stream when a mark also stamps the next block; `prev`: the block before is
marked. -/
def leakyRows (excludeTypes : List String) : Bool → SchemaTable → List Block → List Row
  | _, _, [] => []
  | prev, schema, b :: bs =>
      rowsOfLines excludeTypes (some b.tags) (prev || b.marked) schema b.rows
        ++ leakyRows excludeTypes b.marked (schemaAfter schema b.rows) bs

/-- A row whose device a job stamp would change. -/
def stampable (jid : String) (r : Row) : Bool :=
  !gpuStatsTypes.contains r.typ && r.typ != hostMemJobType && r.dev != jobStamp jid

/-- Some line of the block emits a row that a stamp would change. -/
def hasStampable (excludeTypes : List String) (tags : Tags) : SchemaTable → List String → Bool
  | _, [] => false
  | schema, line :: rest =>
      (emitted (lineRows excludeTypes schema (some tags) false line)).any (stampable tags.jid)
        || hasStampable excludeTypes tags (schemaAfterLine schema line) rest

/-- The condition: an unmarked block with a real job that follows a marked block has no row
that a stamp would change. -/
def NoLeak (excludeTypes : List String) : Bool → SchemaTable → List Block → Prop
  | _, _, [] => True
  | prev, schema, b :: bs =>
      (prev = true → b.marked = false → realJid b.tags.jid = true →
          hasStampable excludeTypes b.tags schema b.rows = false)
        ∧ NoLeak excludeTypes b.marked (schemaAfter schema b.rows) bs

/-! ## What the parser does with a block -/

/-- Where the parser stands behind some lines. -/
theorem feedLines_position (lines : List String) : ∀ {p p' : Parser}, p.feedLines lines = .ok p' →
    p'.schema = schemaAfter p.schema lines ∧ p'.lineIndex = p.lineIndex + lines.length := by
  induction lines with
  | nil =>
      intro p p' h
      obtain rfl := Except.ok.inj h
      exact ⟨rfl, rfl⟩
  | cons line rest ih =>
      intro p p' h
      obtain ⟨q, hq, h⟩ := (feedLines_cons line rest).mp h
      have heff := feedLine_effect hq
      obtain ⟨hschema, hindex⟩ := ih h
      constructor
      · rw [hschema, heff.schema]
        rfl
      · rw [hindex, heff.lineIndex, List.length_cons]
        omega

/-- Plain lines add their rows under the flags of the open sample. -/
theorem feedLines_plain (lines : List String) : ∀ {p p' : Parser}, p.startIdx = 0 →
    (∀ line ∈ lines, Plain line) → p.feedLines lines = .ok p' →
      p'.startIdx = 0 ∧ p'.excludeTypes = p.excludeTypes ∧ p'.sampleState = p.sampleState
        ∧ p'.schema = schemaAfter p.schema lines
        ∧ p'.rows = p.rows ++ rowsOfLines p.excludeTypes p.tags p.sampleShared p.schema lines := by
  induction lines with
  | nil =>
      intro p p' h0 _ h
      obtain rfl := Except.ok.inj h
      exact ⟨h0, rfl, rfl, rfl, (List.append_nil _).symm⟩
  | cons line rest ih =>
      intro p p' h0 hplain h
      rw [Parser.feedLines, List.foldlM_cons] at h
      obtain ⟨q, hq, h⟩ := bind_ok h
      have heff := feedLine_effect hq
      obtain ⟨hmark, hheader⟩ := hplain line List.mem_cons_self
      have hst : q.sampleState = p.sampleState :=
        heff.sample.trans (feed_of_plain _ _ hmark hheader)
      have htags : q.tags = p.tags := congrArg SampleState.tags hst
      have hshared : q.sampleShared = p.sampleShared := congrArg SampleState.sampleShared hst
      obtain ⟨rows, hrows, hq'⟩ := heff.rows
      obtain ⟨h₁, h₂, h₃, h₄, h₅⟩ := ih (heff.startIdx.trans h0)
        (fun l hl => hplain l (List.mem_cons_of_mem _ hl)) h
      refine ⟨h₁, h₂.trans heff.excludeTypes, h₃.trans hst, ?_, ?_⟩
      · rw [h₄, heff.schema]
        rfl
      · rw [h₅, hq', heff.excludeTypes, htags, hshared, heff.schema, rowsOfLines, hrows,
          List.append_assoc]
        rfl

/-- A mark of an open sample: a `%jobs` mark sets its flag and arms the next. -/
theorem feedLine_mark {p q : Parser} {m : String} {tags : Tags} (ht : p.tags = some tags)
    (hm : (lstrip m).toList.head? = some '%') (h : p.feedLine m = .ok q) :
    q.startIdx = p.startIdx ∧ q.excludeTypes = p.excludeTypes ∧ q.tags = p.tags
      ∧ q.armShared = (p.armShared || namesJob m)
      ∧ q.sampleShared = (if namesJob m then realJid tags.jid else p.sampleShared)
      ∧ q.schema = p.schema ∧ q.rows = p.rows := by
  have heff := feedLine_effect h
  have hschema : q.schema = p.schema :=
    heff.schema.trans (schemaAfterLine_of_head _ (by simp [hm]))
  have hrows : q.rows = p.rows := by
    obtain ⟨rows, hrows, hq⟩ := heff.rows
    rw [lineRows_of_not_isAlpha hm (by decide)] at hrows
    obtain rfl := Except.ok.inj hrows
    rw [hq, List.append_nil]
  have hheader : headerOf m = none := headerOf_of_head hm (by decide)
  cases hb : markOf (lstrip m) with
  | none =>
      have hst : q.sampleState = p.sampleState := by
        rw [heff.sample]
        simp only [SampleState.feed, hb, hheader, ite_self]
      have hno : namesJob m = false := by rw [namesJob, hb]; rfl
      refine ⟨heff.startIdx, heff.excludeTypes, congrArg SampleState.tags hst, ?_, ?_, hschema,
        hrows⟩
      · rw [hno, Bool.or_false]
        exact congrArg SampleState.armShared hst
      · rw [hno]
        exact congrArg SampleState.sampleShared hst
  | some body =>
      have hst : q.sampleState = p.sampleState.addMark body := by
        rw [heff.sample]
        simp only [SampleState.feed, hb]
      have hjob : namesJob m = body.isJobs := by rw [namesJob, hb]; rfl
      refine ⟨heff.startIdx, heff.excludeTypes, congrArg SampleState.tags hst, ?_, ?_, hschema,
        hrows⟩
      · rw [hjob]
        exact congrArg SampleState.armShared hst
      · have hs := congrArg SampleState.sampleShared hst
        simp only [SampleState.addMark, Parser.sampleState, ht] at hs
        rw [hjob]
        exact hs

/-- The marks of a block. -/
theorem feedLines_marks {tags : Tags} (marks : List String) : ∀ {p p' : Parser},
    p.startIdx = 0 → p.tags = some tags →
    (∀ m ∈ marks, (lstrip m).toList.head? = some '%') → p.feedLines marks = .ok p' →
      p'.startIdx = 0 ∧ p'.excludeTypes = p.excludeTypes ∧ p'.tags = p.tags
        ∧ p'.armShared = (p.armShared || marks.any namesJob)
        ∧ p'.sampleShared = (if marks.any namesJob then realJid tags.jid else p.sampleShared)
        ∧ p'.schema = p.schema ∧ p'.rows = p.rows := by
  induction marks with
  | nil =>
      intro p p' h0 _ _ h
      obtain rfl := Except.ok.inj h
      exact ⟨h0, rfl, rfl, (Bool.or_false _).symm, rfl, rfl, rfl⟩
  | cons m rest ih =>
      intro p p' h0 ht hpct h
      rw [Parser.feedLines, List.foldlM_cons] at h
      obtain ⟨q, hq, h⟩ := bind_ok h
      obtain ⟨g₁, g₂, g₃, g₄, g₅, g₆, g₇⟩ := feedLine_mark ht (hpct m List.mem_cons_self) hq
      obtain ⟨h₁, h₂, h₃, h₄, h₅, h₆, h₇⟩ := ih (g₁.trans h0) (g₃.trans ht)
        (fun x hx => hpct x (List.mem_cons_of_mem _ hx)) h
      refine ⟨h₁, h₂.trans g₂, h₃.trans g₃, ?_, ?_, h₆.trans g₆, h₇.trans g₇⟩
      · rw [h₄, g₄, List.any_cons, Bool.or_assoc]
      · rw [h₅, g₅, List.any_cons]
        cases namesJob m <;> simp

/-- The header of a block: the armed flag becomes that of the sample. -/
theorem feedLine_header {p q : Parser} {b : Block} (h0 : p.startIdx = 0)
    (h : p.feedLine b.header = .ok q) :
    q.startIdx = 0 ∧ q.excludeTypes = p.excludeTypes ∧ q.tags = some b.tags
      ∧ q.armShared = false ∧ q.sampleShared = (p.armShared && realJid b.tags.jid)
      ∧ q.schema = p.schema ∧ q.rows = p.rows := by
  have heff := feedLine_effect h
  obtain ⟨c, hc, hd⟩ : ∃ c, (lstrip b.header).toList.head? = some c ∧ c.isDigit = true := by
    have hh := b.header_eq
    rw [headerOf] at hh
    split at hh
    · cases hh
    · rename_i c hc
      split_ifs at hh with hd
      exact ⟨c, hc, hd⟩
  have hnot : ∀ d : Char, d.isDigit = false → (lstrip b.header).toList.head? ≠ some d := by
    rintro d hdd hcd
    rw [hc, Option.some.injEq] at hcd
    rw [hcd, hdd] at hd
    cases hd
  have hst : q.sampleState = p.sampleState.openSample b.tags := by
    rw [heff.sample, h0]
    simp only [SampleState.feed, markOf_eq_none (hnot '%' (by decide)), b.header_eq,
      Nat.zero_le, decide_true, if_true]
  have hna : c.isAlpha = false := by
    by_contra ha
    rw [isAlpha_not_isDigit (by simpa using ha)] at hd
    cases hd
  refine ⟨heff.startIdx.trans h0, heff.excludeTypes, congrArg SampleState.tags hst,
    congrArg SampleState.armShared hst, congrArg SampleState.sampleShared hst,
    heff.schema.trans (schemaAfterLine_of_head _ (hnot '!' (by decide))), ?_⟩
  obtain ⟨rows, hrows, hq⟩ := heff.rows
  rw [lineRows_of_not_isAlpha hc hna] at hrows
  obtain rfl := Except.ok.inj hrows
  rw [hq, List.append_nil]

/-- **One block.**  Its rows are stamped when it or the armed flag says so, and its mark arms
the next block. -/
theorem feedLines_block {p p' : Parser} {b : Block} (h0 : p.startIdx = 0)
    (h : p.feedLines b.lines = .ok p') :
    p'.startIdx = 0 ∧ p'.excludeTypes = p.excludeTypes ∧ p'.armShared = b.marked
      ∧ p'.schema = schemaAfter p.schema b.rows
      ∧ p'.rows = p.rows ++ rowsOfLines p.excludeTypes (some b.tags)
          ((p.armShared || b.marked) && realJid b.tags.jid) p.schema b.rows := by
  rw [Block.lines, Parser.feedLines, List.cons_append, List.foldlM_cons] at h
  obtain ⟨q, hq, h⟩ := bind_ok h
  rw [List.foldlM_append] at h
  obtain ⟨r, hr, h⟩ := bind_ok h
  obtain ⟨f₁, f₂, f₃, f₄, f₅, f₆, f₇⟩ := feedLine_header h0 hq
  obtain ⟨g₁, g₂, g₃, g₄, g₅, g₆, g₇⟩ := feedLines_marks b.marks f₁ f₃ b.marks_percent hr
  obtain ⟨h₁, h₂, h₃, h₄, h₅⟩ := feedLines_plain b.rows g₁ b.rows_plain h
  have hmarked : b.marks.any namesJob = b.marked := rfl
  refine ⟨h₁, h₂.trans (g₂.trans f₂), ?_, ?_, ?_⟩
  · have harm : p'.armShared = r.armShared := congrArg SampleState.armShared h₃
    rw [harm, g₄, f₄, hmarked, Bool.false_or]
  · rw [h₄, g₆, f₆]
  · have hflag : r.sampleShared = ((p.armShared || b.marked) && realJid b.tags.jid) := by
      rw [g₅, f₅, hmarked]
      cases b.marked <;> simp
    rw [h₅, g₇, f₇, g₂, f₂, g₃, f₃, g₆, f₆, hflag]

/-! ## Stamps and rows -/

/-- A row that is neither of a GPU nor of `host_mem_job` is stamped exactly when its sample is
shared and has a real job. -/
theorem sharedRowDev_of_plain {typ : String} (dev jid : String) (shared : Bool)
    (hg : typ ∉ gpuStatsTypes) (hm : typ ≠ hostMemJobType) :
    sharedRowDev dev typ jid shared = if shared && realJid jid then jobStamp jid else dev := by
  have hc : gpuStatsTypes.contains typ = false := by simpa using hg
  rw [sharedRowDev, hc, if_neg hm]
  cases realJid jid <;> cases shared <;> simp

/-- The flag plays no part for a GPU row or a `host_mem_job` row. -/
theorem sharedRowDev_of_special {typ : String} (dev jid : String) (shared : Bool)
    (h : typ ∈ gpuStatsTypes ∨ typ = hostMemJobType) :
    sharedRowDev dev typ jid shared = sharedRowDev dev typ jid false := by
  rcases h with h | h
  · simp [sharedRowDev, h]
  · simp [sharedRowDev, h]

/-- Without a real job the flag does not matter. -/
theorem sharedRowDev_and_realJid (dev typ jid : String) (shared : Bool) :
    sharedRowDev dev typ jid (shared && realJid jid) = sharedRowDev dev typ jid shared := by
  cases hj : realJid jid with
  | true => rw [Bool.and_true]
  | false => simp [sharedRowDev, hj]

def setDev (dev : String) (r : Row) : Row :=
  { r with dev := dev }

/-- The device plays no part in what a compiled line emits. -/
theorem emitted_compiledRows (tags : Tags) (typ dev : String) (cols : List SchemaColumn)
    (vals : List String) :
    emitted (compiledRows tags typ dev cols vals)
      = (emitted (compiledRows tags typ "" cols vals)).map (setDev dev) := by
  rw [compiledRows, compiledRows]
  split_ifs
  · rfl
  · cases vals.mapM fun v => orValueError (pyFloat v) with
    | error e => rfl
    | ok values =>
        show List.zipWith _ cols values = (List.zipWith _ cols values).map (setDev dev)
        rw [List.map_zipWith]
        rfl

theorem typ_of_mem_compiledRows {tags : Tags} {typ dev : String} {cols : List SchemaColumn}
    {vals : List String} {r : Row} (h : r ∈ emitted (compiledRows tags typ dev cols vals)) :
    r.typ = typ := by
  rw [compiledRows] at h
  split_ifs at h
  · cases h
  · cases hv : vals.mapM fun v => orValueError (pyFloat v) with
    | error e => rw [hv] at h; cases h
    | ok values =>
        rw [hv] at h
        obtain ⟨i, hi, rfl⟩ := List.mem_iff_getElem.mp h
        simp [emitted, Bind.bind, Except.bind]

/-- The rows of a line up to their device: one type, and a device that depends on the flag
through `_shared_row_dev` only. -/
structure Restamped (tags : Tags) (rows : Bool → List Row) : Prop where
  exists_base : ∃ (base : List Row) (typ dev : String), (∀ r ∈ base, r.typ = typ)
    ∧ ∀ shared, rows shared = base.map (setDev (sharedRowDev dev typ tags.jid shared))

theorem restamped_nil (tags : Tags) : Restamped tags fun _ => [] :=
  ⟨[], "", "", by simp, by simp⟩

theorem restamped_compiledRows (tags : Tags) (typ dev : String) (cols : List SchemaColumn)
    (vals : List String) : Restamped tags fun shared =>
      emitted (compiledRows tags typ (sharedRowDev dev typ tags.jid shared) cols vals) :=
  ⟨_, typ, dev, fun _ hr => typ_of_mem_compiledRows hr, fun _ => emitted_compiledRows ..⟩

theorem restamped_legacyRows (tags : Tags) (typ dev : String)
    (decoded : Option (List (String × String))) : Restamped tags fun shared =>
      emitted (legacyRows tags typ (sharedRowDev dev typ tags.jid shared) decoded) := by
  cases decoded with
  | none => exact restamped_nil tags
  | some d =>
      cases d with
      | nil => exact restamped_nil tags
      | cons kv rest =>
          simp only [legacyRows]
          cases compileSchemaTokens ((kv :: rest).map Prod.fst) with
          | error e => exact restamped_nil tags
          | ok cols => exact restamped_compiledRows tags typ dev cols _

theorem restamped_hardwareRows (entry : SchemaEntry) (typ dev : String) (vals : List String)
    (tags : Tags) : Restamped tags fun shared =>
      emitted (hardwareRows entry typ dev vals tags shared) := by
  simp only [hardwareRows]
  split
  · split_ifs
    · exact restamped_nil tags
    · exact restamped_compiledRows ..
  · split_ifs
    · cases decodeCounterLine typ entry.tokens _ with
      | error e => exact restamped_nil tags
      | ok decoded => exact restamped_legacyRows ..
    · exact restamped_compiledRows ..

theorem restamped_lineRows (excludeTypes : List String) (schema : SchemaTable) (tags : Tags)
    (line : String) : Restamped tags fun shared =>
      emitted (lineRows excludeTypes schema (some tags) shared line) := by
  unfold lineRows
  cases (lstrip line).toList.head? with
  | none => exact restamped_nil tags
  | some c =>
      simp only
      split_ifs
      · simp only [rowRows]
        split
        · split_ifs
          · exact restamped_nil tags
          · split
            · exact restamped_nil tags
            · exact restamped_hardwareRows ..
        · exact restamped_nil tags
      · exact restamped_nil tags

/-- The flag matters for a line exactly when the line emits a row that a stamp changes. -/
theorem Restamped.eq_iff {tags : Tags} {rows : Bool → List Row} (h : Restamped tags rows)
    (hj : realJid tags.jid = true) :
    rows true = rows false ↔ (rows false).any (stampable tags.jid) = false := by
  obtain ⟨base, typ, dev, htyp, hrows⟩ := h.exists_base
  rw [hrows, hrows]
  cases base with
  | nil => simp
  | cons r rest =>
      have hstamp : ∀ x ∈ r :: rest,
          stampable tags.jid (setDev (sharedRowDev dev typ tags.jid false) x)
            = decide (sharedRowDev dev typ tags.jid true
                ≠ sharedRowDev dev typ tags.jid false) := by
        intro x hx
        rw [stampable]
        simp only [setDev, htyp x hx]
        by_cases hspecial : typ ∈ gpuStatsTypes ∨ typ = hostMemJobType
        · rw [sharedRowDev_of_special dev tags.jid true hspecial]
          rcases hspecial with hg | hm
          · simp [hg]
          · simp [hm]
        · rw [not_or] at hspecial
          obtain ⟨hg, hm⟩ := hspecial
          rw [sharedRowDev_of_plain dev tags.jid true hg hm,
            sharedRowDev_of_plain dev tags.jid false hg hm, hj]
          simp [hg, hm, eq_comm, bne, BEq.beq]
      constructor
      · intro heq
        have hdev : sharedRowDev dev typ tags.jid true = sharedRowDev dev typ tags.jid false :=
          congrArg Row.dev (List.cons.inj heq).1
        rw [Bool.eq_false_iff]
        intro hany
        obtain ⟨y, hy, hst⟩ := List.any_eq_true.mp hany
        obtain ⟨x, hx, rfl⟩ := List.mem_map.mp hy
        rw [hstamp x hx] at hst
        exact (of_decide_eq_true hst) hdev
      · intro hany
        have hst := hstamp r List.mem_cons_self
        rw [List.map_cons, List.any_cons, Bool.or_eq_false_iff, hst] at hany
        rw [not_ne_iff.mp (of_decide_eq_false hany.1)]

theorem Restamped.length_eq {tags : Tags} {rows : Bool → List Row} (h : Restamped tags rows)
    (a b : Bool) : (rows a).length = (rows b).length := by
  obtain ⟨base, typ, dev, -, hrows⟩ := h.exists_base
  rw [hrows, hrows, List.length_map, List.length_map]

/-! ## Blocks and streams -/

variable {excludeTypes : List String} {tags : Tags}

theorem rowsOfLines_and_realJid (shared : Bool) (lines : List String) : ∀ schema : SchemaTable,
    rowsOfLines excludeTypes (some tags) (shared && realJid tags.jid) schema lines
      = rowsOfLines excludeTypes (some tags) shared schema lines := by
  induction lines with
  | nil => intro schema; rfl
  | cons line rest ih =>
      intro schema
      obtain ⟨base, typ, dev, -, hrows⟩ :=
        (restamped_lineRows excludeTypes schema tags line).exists_base
      rw [rowsOfLines, rowsOfLines, ih, hrows, hrows, sharedRowDev_and_realJid]

theorem length_rowsOfLines (a b : Bool) (lines : List String) : ∀ schema : SchemaTable,
    (rowsOfLines excludeTypes (some tags) a schema lines).length
      = (rowsOfLines excludeTypes (some tags) b schema lines).length := by
  induction lines with
  | nil => intro schema; rfl
  | cons line rest ih =>
      intro schema
      rw [rowsOfLines, rowsOfLines, List.length_append, List.length_append, ih,
        (restamped_lineRows excludeTypes schema tags line).length_eq a b]

theorem rowsOfLines_eq_iff (hj : realJid tags.jid = true) (lines : List String) :
    ∀ schema : SchemaTable,
      rowsOfLines excludeTypes (some tags) true schema lines
          = rowsOfLines excludeTypes (some tags) false schema lines
        ↔ hasStampable excludeTypes tags schema lines = false := by
  induction lines with
  | nil => intro schema; simp [rowsOfLines, hasStampable]
  | cons line rest ih =>
      intro schema
      have hline := restamped_lineRows excludeTypes schema tags line
      rw [rowsOfLines, rowsOfLines, hasStampable, Bool.or_eq_false_iff, ← hline.eq_iff hj, ← ih]
      constructor
      · intro h
        exact List.append_inj h (hline.length_eq true false)
      · rintro ⟨h₁, h₂⟩
        rw [h₁, h₂]

/-- One block under the flag that also looks at the block before. -/
theorem rowsOfLines_leak_iff (prev : Bool) (b : Block) (schema : SchemaTable) :
    rowsOfLines excludeTypes (some b.tags) (prev || b.marked) schema b.rows
        = rowsOfLines excludeTypes (some b.tags) b.marked schema b.rows
      ↔ (prev = true → b.marked = false → realJid b.tags.jid = true →
          hasStampable excludeTypes b.tags schema b.rows = false) := by
  cases prev with
  | false => simp
  | true =>
      cases hm : b.marked with
      | true => simp
      | false =>
          cases hj : realJid b.tags.jid with
          | true =>
              simp only [Bool.true_or, true_implies]
              exact rowsOfLines_eq_iff hj b.rows schema
          | false =>
              have hboth : ∀ shared, rowsOfLines excludeTypes (some b.tags) shared schema b.rows
                  = rowsOfLines excludeTypes (some b.tags) false schema b.rows := by
                intro shared
                rw [← rowsOfLines_and_realJid shared, hj, Bool.and_false]
              simp [hboth true]

theorem leakyRows_eq_iff (bs : List Block) : ∀ (prev : Bool) (schema : SchemaTable),
    leakyRows excludeTypes prev schema bs = ownRows excludeTypes schema bs
      ↔ NoLeak excludeTypes prev schema bs := by
  induction bs with
  | nil => intro prev schema; simp [leakyRows, ownRows, NoLeak]
  | cons b rest ih =>
      intro prev schema
      rw [leakyRows, ownRows, NoLeak, ← rowsOfLines_leak_iff, ← ih]
      constructor
      · intro h
        exact List.append_inj h (length_rowsOfLines _ _ b.rows schema)
      · rintro ⟨h₁, h₂⟩
        rw [h₁, h₂]

/-- The rows of the parser along the blocks. -/
theorem feedLines_blocks (bs : List Block) : ∀ {p p' : Parser}, p.startIdx = 0 →
    p.feedLines (bs.flatMap Block.lines) = .ok p' →
      p'.rows = p.rows ++ leakyRows p.excludeTypes p.armShared p.schema bs := by
  induction bs with
  | nil =>
      intro p p' _ h
      obtain rfl := Except.ok.inj h
      exact (List.append_nil _).symm
  | cons b rest ih =>
      intro p p' h0 h
      rw [List.flatMap_cons, Parser.feedLines, List.foldlM_append] at h
      obtain ⟨q, hq, h⟩ := bind_ok h
      obtain ⟨g₁, g₂, g₃, g₄, g₅⟩ := feedLines_block h0 hq
      rw [ih g₁ h, g₅, g₂, g₃, g₄, leakyRows, List.append_assoc, rowsOfLines_and_realJid]

/-- The rows of the parser for a stream. -/
theorem feedLines_stream (excludeTypes : List String) (s : Stream) {p : Parser}
    (h : (Parser.init 0 excludeTypes).feedLines s.lines = .ok p) :
    p.rows = leakyRows excludeTypes false (schemaAfter [] s.preamble) s.blocks := by
  rw [Stream.lines, Parser.feedLines, List.foldlM_append] at h
  obtain ⟨q, hq, h⟩ := bind_ok h
  obtain ⟨g₁, g₂, g₃, g₄, g₅⟩ := feedLines_plain s.preamble rfl s.preamble_plain hq
  have hnone : ∀ (lines : List String) (schema : SchemaTable),
      rowsOfLines excludeTypes none false schema lines = [] := by
    intro lines
    induction lines with
    | nil => intro schema; rfl
    | cons line rest ih =>
        intro schema
        rw [rowsOfLines, ih, List.append_nil, lineRows_of_untagged]
        rfl
  have harm : q.armShared = false := congrArg SampleState.armShared g₃
  have hq0 : q.rows = [] := g₅.trans (hnone _ _)
  rw [feedLines_blocks s.blocks g₁ h, hq0, g₂, harm, g₄]
  rfl

/-- **Stamping.**  For every stream that the parser reads without an exception: the rows are
stamped by the marks of their own blocks, and by nothing else, if and only if no unmarked
block with a real job that follows a marked block has a row that a stamp changes. -/
theorem rows_own_iff (excludeTypes : List String) (s : Stream) (p : Parser)
    (h : (Parser.init 0 excludeTypes).feedLines s.lines = .ok p) :
    p.rows = ownRows excludeTypes (schemaAfter [] s.preamble) s.blocks
      ↔ NoLeak excludeTypes false (schemaAfter [] s.preamble) s.blocks := by
  rw [feedLines_stream excludeTypes s h]
  exact leakyRows_eq_iff s.blocks false _

/-- A marked sample of job 7 and, behind it, an idle one. -/
def ownedStream : Stream where
  preamble := ["!cpu user,E"]
  blocks :=
    [⟨"1710000001 7 hosta", ⟨.fin 1710000001, "hosta", "7"⟩, ["%jobs jids=7"], ["cpu 0 5"],
      by decide, by decide, by decide⟩,
     ⟨"1710000002 0 hosta", ⟨.fin 1710000002, "hosta", "0"⟩, [], ["cpu 0 6"],
      by decide, by decide, by decide⟩]
  preamble_plain := by decide

theorem rows_own_iff_ownedStream :
    ∃ p, (Parser.init 0 []).feedLines ownedStream.lines = .ok p
      ∧ p.rows = ownRows [] (schemaAfter [] ownedStream.preamble) ownedStream.blocks := by
  have hok : ((Parser.init 0 []).feedLines ownedStream.lines).isOk = true := by decide
  cases hrun : (Parser.init 0 []).feedLines ownedStream.lines with
  | error e => rw [hrun] at hok; cases hok
  | ok p =>
      have hno : NoLeak [] false (schemaAfter [] ownedStream.preamble) ownedStream.blocks :=
        ⟨by decide, by decide, trivial⟩
      exact ⟨p, rfl, (rows_own_iff [] ownedStream p hrun).mpr hno⟩

/-- A marked sample of job 7 and, behind it, one of the same job without a mark. -/
def leakyStream : Stream where
  preamble := ["!cpu user,E"]
  blocks :=
    [⟨"1710000001 7 hosta", ⟨.fin 1710000001, "hosta", "7"⟩, ["%jobs jids=7"], ["cpu 0 5"],
      by decide, by decide, by decide⟩,
     ⟨"1710000002 7 hosta", ⟨.fin 1710000002, "hosta", "7"⟩, [], ["cpu 0 6"],
      by decide, by decide, by decide⟩]
  preamble_plain := by decide

/-- **A mark in the wrong block.**  The row of the second sample, which has no mark, gets the
stamp `j:7` instead of its device `0`. -/
theorem rows_not_own_leakyStream :
    ∃ p, (Parser.init 0 []).feedLines leakyStream.lines = .ok p
      ∧ p.rows ≠ ownRows [] (schemaAfter [] leakyStream.preamble) leakyStream.blocks
      ∧ p.rows.map Row.dev = ["j:7", "j:7"] := by
  have hok : ((Parser.init 0 []).feedLines leakyStream.lines).isOk = true := by decide
  cases hrun : (Parser.init 0 []).feedLines leakyStream.lines with
  | error e => rw [hrun] at hok; cases hok
  | ok p =>
      refine ⟨p, rfl, ?_⟩
      rw [feedLines_stream [] leakyStream hrun]
      exact ⟨by decide, by decide⟩

end SharedStamp
