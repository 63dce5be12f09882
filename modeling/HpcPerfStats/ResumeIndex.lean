/-
# Resuming a stats file

A file whose first samples are stored is parsed from the line that the duplicate scan answers:
the parser reads every line, but takes headers only from that line on.  So the schema lines in
front are read, the samples in front are not.

Behind the start header the resumed parser emits what the whole file emits, when the start
sample is stamped alike (`StampAlike`): skipped `%jobs` marks stay armed until the first
header that is taken.  The deltas and arc rates of the samples that are not stored are then
those of the whole file when their baselines are still there (`Resumable`).

A sample of the fast tier leaves out the slow events.  When the last stored sample is of the
fast tier, the slow events of the next sample have lost their baselines
(`resume_not_perm_fastTierLines`).
-/
import HpcPerfStats.DeltaResume
import HpcPerfStats.DuplicateScan
import HpcPerfStats.SharedStamp

namespace ResumeIndex

open PyText StatsSchema StatsParser MonitorMarks DuplicateScan SharedStamp CounterDeltas DeltaResume

/-! ## Parsing from an index -/

/-- The hardware rows of a file that is parsed from a start index; a file with index `-1` is
not parsed. -/
def parseFrom (excludeTypes : List String) (lines : List String) (idx : ℤ) :
    Except PyError (List Row) :=
  if idx < 0 then .ok []
  else do
    let p ← (Parser.init idx.toNat excludeTypes).feedLines lines
    .ok p.rows

/-- A finite number; NaN has none. -/
def number : PyFloat → Option ℚ
  | .fin q => some q
  | _ => none

/-- A parsed row in the frame of the delta computation. -/
def statRow (r : Row) : StatRow :=
  ⟨(number r.time).getD 0, r.host, r.typ, r.dev, r.event, r.unit, number r.value, r.wid, r.mult⟩

/-- The rows of the database for a list of parsed rows. -/
def databaseRows (rows : List Row) : List ArcRow :=
  computeDeltasAndArc (rows.map statRow)

/-- The second of a time. -/
def second (t : ℚ) : ℤ :=
  Int.tdiv t.num t.den

/-- The second of the time is not stored. -/
def fresh (present : ℤ → Bool) (t : ℚ) : Bool :=
  !present (second t)

/-- A file that the parser reads from every index, with no infinite value. -/
structure WellFormed (excludeTypes lines : List String) : Prop where
  readable : ∀ s ≤ lines.length,
    ((Parser.init s excludeTypes).feedLines lines).isOk = true
  values : ∀ r ∈ emitted (parseFrom excludeTypes lines 0), ∀ negative, r.value ≠ .inf negative

/-! ## The armed flag -/

/-- The flag that a `%jobs` mark arms and a header clears. -/
def armAfterLine (armed : Bool) (line : String) : Bool :=
  if (headerOf line).isSome then false else armed || namesJob line

/-- A `%jobs` mark stands behind the last header. -/
def markedSinceHeader (lines : List String) : Bool :=
  lines.foldl armAfterLine false

/-- The sample of the header is stamped alike when the lines in front are skipped: they hold
no `%jobs` mark but one behind the last header, or the sample is idle. -/
def StampAlike (before : List String) (header : String) : Prop :=
  before.any namesJob = markedSinceHeader before
    ∨ ∀ tags, headerOf header = some tags → realJid tags.jid = false

theorem armShared_feed_skipped (st : SampleState) (line : String) :
    (st.feed false line).armShared = (st.armShared || namesJob line) := by
  rw [SampleState.feed, namesJob]
  cases markOf (lstrip line) with
  | none => simp
  | some body => rfl

theorem armShared_feed_live (st : SampleState) (line : String) :
    (st.feed true line).armShared = armAfterLine st.armShared line := by
  rw [SampleState.feed, armAfterLine, namesJob]
  cases hh : headerOf line with
  | some tags =>
      rw [markOf_of_header hh]
      rfl
  | none =>
      cases markOf (lstrip line) with
      | none => simp
      | some body => rfl

theorem tags_feed_skipped {st : SampleState} (h : st.tags = none) (line : String) :
    (st.feed false line).tags = none := by
  rw [SampleState.feed]
  cases markOf (lstrip line) with
  | none => exact h
  | some body => exact h

/-! ## The lines in front -/

/-- **Skipped lines.**  They arm the flag and emit nothing. -/
theorem feedLines_skipped (lines : List String) : ∀ {p p' : Parser}, p.tags = none →
    p.lineIndex + lines.length ≤ p.startIdx → p.feedLines lines = .ok p' →
      p'.armShared = (p.armShared || lines.any namesJob) ∧ p'.rows = p.rows := by
  induction lines with
  | nil =>
      intro p p' ht _ h
      obtain rfl := Except.ok.inj h
      exact ⟨by simp, rfl⟩
  | cons line rest ih =>
      intro p p' ht hidx h
      obtain ⟨q, hq, h⟩ := (feedLines_cons line rest).mp h
      have heff := feedLine_effect hq
      rw [List.length_cons] at hidx
      have hskip : decide (p.startIdx ≤ p.lineIndex) = false := decide_eq_false (by omega)
      have hsample : q.sampleState = p.sampleState.feed false line := by
        rw [heff.sample, hskip]
      have hqt : q.tags = none :=
        (congrArg SampleState.tags hsample).trans (tags_feed_skipped ht line)
      have hqarm : q.armShared = (p.armShared || namesJob line) :=
        (congrArg SampleState.armShared hsample).trans (armShared_feed_skipped _ line)
      have hqrows : q.rows = p.rows := by
        obtain ⟨rows, hrows, heq⟩ := heff.rows
        have hnone : lineRows p.excludeTypes p.schema p.tags p.sampleShared line = .ok [] := by
          rw [ht]
          exact lineRows_of_untagged
        rw [hnone] at hrows
        rw [heq, ← Except.ok.inj hrows, List.append_nil]
      obtain ⟨harm, hrows⟩ := ih hqt (by rw [heff.lineIndex, heff.startIdx]; omega) h
      refine ⟨?_, hrows.trans hqrows⟩
      rw [harm, hqarm, List.any_cons, Bool.or_assoc]

/-- **Lines that are read.** -/
theorem feedLines_live (lines : List String) : ∀ {p p' : Parser}, p.startIdx ≤ p.lineIndex →
    p.feedLines lines = .ok p' → p'.armShared = lines.foldl armAfterLine p.armShared := by
  induction lines with
  | nil =>
      intro p p' _ h
      obtain rfl := Except.ok.inj h
      rfl
  | cons line rest ih =>
      intro p p' hlive h
      obtain ⟨q, hq, h⟩ := (feedLines_cons line rest).mp h
      have heff := feedLine_effect hq
      have hqarm : q.armShared = armAfterLine p.armShared line := by
        have hsample := heff.sample
        rw [decide_eq_true hlive] at hsample
        exact (congrArg SampleState.armShared hsample).trans (armShared_feed_live _ line)
      rw [ih (by rw [heff.lineIndex, heff.startIdx]; omega) h, hqarm]
      rfl

/-! ## Behind the start header -/

/-- Two parsers that emit the same rows from here on. -/
structure Alike (p q : Parser) : Prop where
  live : p.startIdx ≤ p.lineIndex
  live' : q.startIdx ≤ q.lineIndex
  excludeTypes : p.excludeTypes = q.excludeTypes
  schema : p.schema = q.schema
  tags : p.tags = q.tags
  armShared : p.armShared = q.armShared
  sampleShared : p.sampleShared = q.sampleShared

/-- The marks so far play no part in the sample. -/
theorem feed_alike {st st' : SampleState} (ht : st.tags = st'.tags)
    (ha : st.armShared = st'.armShared) (hs : st.sampleShared = st'.sampleShared) (line : String) :
    (st.feed true line).tags = (st'.feed true line).tags
      ∧ (st.feed true line).armShared = (st'.feed true line).armShared
      ∧ (st.feed true line).sampleShared = (st'.feed true line).sampleShared := by
  rw [SampleState.feed, SampleState.feed]
  cases markOf (lstrip line) with
  | some body =>
      refine ⟨ht, ?_, ?_⟩
      · show (st.armShared || _) = (st'.armShared || _)
        rw [ha]
      · simp only [SampleState.addMark, ht, hs]
  | none =>
      simp only [if_true]
      cases headerOf line with
      | none => exact ⟨ht, ha, hs⟩
      | some tags =>
          refine ⟨rfl, rfl, ?_⟩
          show (st.armShared && _) = (st'.armShared && _)
          rw [ha]

/-- **One line.** -/
theorem Alike.feedLine {p q p' q' : Parser} {line : String} (h : Alike p q)
    (hp : p.feedLine line = .ok p') (hq : q.feedLine line = .ok q') :
    Alike p' q' ∧ ∃ rows, p'.rows = p.rows ++ rows ∧ q'.rows = q.rows ++ rows := by
  have hpe := feedLine_effect hp
  have hqe := feedLine_effect hq
  have hps := hpe.sample
  have hqs := hqe.sample
  rw [decide_eq_true h.live] at hps
  rw [decide_eq_true h.live'] at hqs
  obtain ⟨ht, ha, hs⟩ := feed_alike (show p.sampleState.tags = q.sampleState.tags from h.tags)
    h.armShared h.sampleShared line
  rw [← hps, ← hqs] at ht ha hs
  constructor
  · refine ⟨?_, ?_, ?_, ?_, ht, ha, hs⟩
    · rw [hpe.startIdx, hpe.lineIndex]
      exact Nat.le_succ_of_le h.live
    · rw [hqe.startIdx, hqe.lineIndex]
      exact Nat.le_succ_of_le h.live'
    · rw [hpe.excludeTypes, hqe.excludeTypes, h.excludeTypes]
    · rw [hpe.schema, hqe.schema, h.schema]
  · obtain ⟨rows, hrows, hprows⟩ := hpe.rows
    obtain ⟨rows', hrows', hqrows⟩ := hqe.rows
    rw [← h.excludeTypes, ← h.schema, ← h.tags, ← h.sampleShared, hrows] at hrows'
    obtain rfl := Except.ok.inj hrows'
    exact ⟨rows, hprows, hqrows⟩

/-- **All lines.** -/
theorem Alike.feedLines (lines : List String) : ∀ {p q p' q' : Parser}, Alike p q →
    p.feedLines lines = .ok p' → q.feedLines lines = .ok q' →
      ∃ rows, p'.rows = p.rows ++ rows ∧ q'.rows = q.rows ++ rows := by
  induction lines with
  | nil =>
      intro p q p' q' _ hp hq
      obtain rfl := Except.ok.inj hp
      obtain rfl := Except.ok.inj hq
      exact ⟨[], by simp, by simp⟩
  | cons line rest ih =>
      intro p q p' q' h hp hq
      obtain ⟨p₁, hp₁, hp⟩ := (feedLines_cons line rest).mp hp
      obtain ⟨q₁, hq₁, hq⟩ := (feedLines_cons line rest).mp hq
      obtain ⟨h₁, rows, hprows, hqrows⟩ := h.feedLine hp₁ hq₁
      obtain ⟨rows', hprows', hqrows'⟩ := ih h₁ hp hq
      refine ⟨rows ++ rows', ?_, ?_⟩
      · rw [hprows', hprows, List.append_assoc]
      · rw [hqrows', hqrows, List.append_assoc]

/-- **The start header.**  Behind it the parsers are alike when the sample is stamped alike. -/
theorem alike_of_header {p q p' q' : Parser} {header : String} {tags : Tags}
    (hheader : headerOf header = some tags) (hp : p.feedLine header = .ok p')
    (hq : q.feedLine header = .ok q') (hlive : p.startIdx ≤ p.lineIndex)
    (hlive' : q.startIdx ≤ q.lineIndex) (hexclude : p.excludeTypes = q.excludeTypes)
    (hschema : p.schema = q.schema)
    (hstamp : p.armShared = q.armShared ∨ realJid tags.jid = false) :
    Alike p' q' ∧ p'.rows = p.rows ∧ q'.rows = q.rows := by
  have hpe := feedLine_effect hp
  have hqe := feedLine_effect hq
  have hopen : ∀ st : SampleState, st.feed true header = st.openSample tags := by
    intro st
    rw [SampleState.feed, markOf_of_header hheader, hheader]
    rfl
  have hps : p'.sampleState = p.sampleState.openSample tags := by
    rw [hpe.sample, decide_eq_true hlive, hopen]
  have hqs : q'.sampleState = q.sampleState.openSample tags := by
    rw [hqe.sample, decide_eq_true hlive', hopen]
  have hnorows : ∀ (schema : SchemaTable) (open? : Option Tags) (shared : Bool) (types : List String),
      lineRows types schema open? shared header = .ok [] := by
    intro schema open? shared types
    cases hc : (lstrip header).toList.head? with
    | none => exact lineRows_of_blank hc
    | some c =>
        apply lineRows_of_not_isAlpha hc
        by_contra ha
        rw [headerOf_of_head hc (isAlpha_not_isDigit (by simpa using ha))] at hheader
        cases hheader
  have hrows : p'.rows = p.rows ∧ q'.rows = q.rows := by
    obtain ⟨rows, hrows, hprows⟩ := hpe.rows
    obtain ⟨rows', hrows', hqrows⟩ := hqe.rows
    rw [hnorows] at hrows hrows'
    rw [hprows, hqrows, ← Except.ok.inj hrows, ← Except.ok.inj hrows', List.append_nil,
      List.append_nil]
    exact ⟨rfl, rfl⟩
  refine ⟨⟨?_, ?_, ?_, ?_, ?_, ?_, ?_⟩, hrows⟩
  · rw [hpe.startIdx, hpe.lineIndex]
    exact Nat.le_succ_of_le hlive
  · rw [hqe.startIdx, hqe.lineIndex]
    exact Nat.le_succ_of_le hlive'
  · rw [hpe.excludeTypes, hqe.excludeTypes, hexclude]
  · rw [hpe.schema, hqe.schema, hschema]
  · exact (congrArg SampleState.tags hps).trans (congrArg SampleState.tags hqs).symm
  · exact (congrArg SampleState.armShared hps).trans (congrArg SampleState.armShared hqs).symm
  · refine (congrArg SampleState.sampleShared hps).trans
      (Eq.trans ?_ (congrArg SampleState.sampleShared hqs).symm)
    show (p.armShared && realJid tags.jid) = (q.armShared && realJid tags.jid)
    rcases hstamp with harm | hidle
    · rw [harm]
    · rw [hidle, Bool.and_false, Bool.and_false]

/-! ## Resumed files -/

/-- The rows of a whole file. -/
def wholeRows (excludeTypes lines : List String) : List Row :=
  emitted (parseFrom excludeTypes lines 0)

/-- When a file is cut at the last stored header in front of the first sample that is not
stored, the sample of that header is stamped alike and the samples that are not stored have
their baselines behind the cut. -/
def Resumable (excludeTypes : List String) (present : ℤ → Bool) (lines : List String) : Prop :=
  ∀ before header rest, ResumeSplit present lines before header rest →
    StampAlike before header
      ∧ Baselines (fresh present) ((wholeRows excludeTypes before).map statRow)
          (((wholeRows excludeTypes lines).drop (wholeRows excludeTypes before).length).map statRow)

theorem parseFrom_ok {excludeTypes lines : List String} {s : ℕ} {p : Parser}
    (h : (Parser.init s excludeTypes).feedLines lines = .ok p) :
    parseFrom excludeTypes lines s = .ok p.rows := by
  rw [parseFrom, if_neg (by omega), Int.toNat_natCast, h]
  rfl

theorem wholeRows_of_ok {excludeTypes lines : List String} {p : Parser}
    (h : (Parser.init 0 excludeTypes).feedLines lines = .ok p) :
    wholeRows excludeTypes lines = p.rows := by
  rw [wholeRows, show (0 : ℤ) = ((0 : ℕ) : ℤ) from rfl, parseFrom_ok h]
  rfl

theorem exists_ok {ε α : Type} {x : Except ε α} (h : x.isOk = true) : ∃ a, x = .ok a := by
  cases x with
  | error e => cases h
  | ok a => exact ⟨a, rfl⟩

/-- The rows of stored samples are of no interest. -/
theorem fresh_of_stored {excludeTypes lines : List String} {present : ℤ → Bool} {p : Parser}
    {s : ℕ} (hstored : ∀ line ∈ lines, Stored present line)
    (h : (Parser.init s excludeTypes).feedLines lines = .ok p) :
    ∀ a ∈ p.rows.map statRow, fresh present a.time = false := by
  have htagged : Tagged (fun time _ => ∃ q, time = .fin q ∧ present (second q) = true) p := by
    refine tagged_feedLines lines (tagged_init _ s excludeTypes) ?_ h
    intro line hline t ht
    obtain ⟨q, hq⟩ := time_of_headerOf ht
    refine ⟨q, hq, hstored line hline (second q) ?_⟩
    rw [lineSecond_of_headerOf ht, hq]
    rfl
  intro a ha
  obtain ⟨r, hr, rfl⟩ := List.mem_map.mp ha
  obtain ⟨q, hq, hpresent⟩ := htagged.rows r hr
  show (!present (second ((number r.time).getD 0))) = false
  rw [hq]
  show (!present (second q)) = false
  rw [hpresent]
  rfl

/-- **The cut.**  The whole file emits rows in front of the cut and then the rows of the
resumed file. -/
theorem rows_of_split {excludeTypes lines before rest : List String} {header : String}
    {present : ℤ → Bool} {p q : Parser} (hsplit : ResumeSplit present lines before header rest)
    (hstamp : StampAlike before header)
    (hp : (Parser.init 0 excludeTypes).feedLines lines = .ok p)
    (hq : (Parser.init before.length excludeTypes).feedLines lines = .ok q) :
    ∃ p₁, (Parser.init 0 excludeTypes).feedLines before = .ok p₁ ∧ p.rows = p₁.rows ++ q.rows := by
  obtain ⟨sec, hsec, -⟩ := hsplit.header_second
  obtain ⟨tags, hheader, -⟩ := headerOf_of_lineSecond hsec
  rw [hsplit.lines_eq] at hp hq
  obtain ⟨p₁, hp₁, hp⟩ := (feedLines_append before (header :: rest)).mp hp
  obtain ⟨q₁, hq₁, hq⟩ := (feedLines_append before (header :: rest)).mp hq
  obtain ⟨p₂, hp₂, hp⟩ := (feedLines_cons header rest).mp hp
  obtain ⟨q₂, hq₂, hq⟩ := (feedLines_cons header rest).mp hq
  -- both parsers in front of the header
  have hparm := feedLines_live before (Nat.le_refl _) hp₁
  obtain ⟨hqarm, hqrows⟩ := feedLines_skipped before rfl
    (by show 0 + before.length ≤ before.length; omega) hq₁
  obtain ⟨hpschema, -⟩ := feedLines_position before hp₁
  obtain ⟨hqschema, hqidx⟩ := feedLines_position before hq₁
  obtain ⟨hpstart, hpex⟩ := feedLines_static before hp₁
  obtain ⟨hqstart, hqex⟩ := feedLines_static before hq₁
  have hstamp' : p₁.armShared = q₁.armShared ∨ realJid tags.jid = false := by
    rcases hstamp with hmarks | hidle
    · left
      rw [hparm, hqarm]
      exact hmarks.symm
    · right
      exact hidle tags hheader
  obtain ⟨halike, hprows₂, hqrows₂⟩ := alike_of_header hheader hp₂ hq₂
    (by rw [hpstart]; exact Nat.zero_le _)
    (by
      rw [hqstart, hqidx]
      show before.length ≤ 0 + before.length
      omega)
    (hpex.trans hqex.symm) (hpschema.trans hqschema.symm) hstamp'
  obtain ⟨rows, hprows, hqrows'⟩ := halike.feedLines rest hp hq
  refine ⟨p₁, hp₁, ?_⟩
  have hnil : q₁.rows = [] := hqrows
  rw [hprows, hqrows', hprows₂, hqrows₂, hnil, List.nil_append]

/-- Parsing from an index stores, for the samples that are not stored, the rows of the whole
file: with the same values, deltas and arc rates. -/
def SameFreshRows (excludeTypes : List String) (present : ℤ → Bool) (lines : List String)
    (idx : ℤ) : Prop :=
  ∃ whole resumed, parseFrom excludeTypes lines 0 = .ok whole
    ∧ parseFrom excludeTypes lines idx = .ok resumed
    ∧ ((databaseRows whole).filter fun r => fresh present r.time).Perm
        ((databaseRows resumed).filter fun r => fresh present r.time)

/-- **Resumable files.** -/
theorem sameFreshRows_of_resumable {excludeTypes lines : List String} {present : ℤ → Bool}
    (hwf : WellFormed excludeTypes lines) (hresumable : Resumable excludeTypes present lines) :
    SameFreshRows excludeTypes present lines (startIndex present lines) := by
  obtain ⟨p, hp⟩ := exists_ok (hwf.readable 0 (Nat.zero_le _))
  have hwhole : parseFrom excludeTypes lines 0 = .ok p.rows := parseFrom_ok hp
  rcases startIndex_cases present lines 0 0 with ⟨heq, hall⟩ | ⟨heq, -⟩ |
    ⟨before, header, rest, hsplit, heq⟩
  · -- every second is stored: nothing is parsed and nothing is of interest
    refine ⟨p.rows, [], hwhole, by rw [startIndex, heq]; rfl, ?_⟩
    have hbase : Baselines (fresh present) (p.rows.map statRow) [] :=
      ⟨fun b hb => absurd hb List.not_mem_nil, fun b hb => absurd hb List.not_mem_nil⟩
    have hperm := computeDeltasAndArc_resume (fresh_of_stored hall hp) hbase
    rw [List.append_nil] at hperm
    exact hperm
  · -- no stored sample comes first: the whole file is parsed
    exact ⟨p.rows, p.rows, hwhole, by rw [startIndex, heq]; exact hwhole, List.Perm.refl _⟩
  · rw [Nat.zero_add] at heq
    obtain ⟨hstamp, hbase⟩ := hresumable before header rest hsplit
    have hlen : before.length ≤ lines.length := by
      rw [hsplit.lines_eq, List.length_append]
      omega
    obtain ⟨q, hq⟩ := exists_ok (hwf.readable before.length hlen)
    obtain ⟨p₁, hp₁, hrows⟩ := rows_of_split hsplit hstamp hp hq
    refine ⟨p.rows, q.rows, hwhole, by rw [startIndex, heq]; exact parseFrom_ok hq, ?_⟩
    rw [wholeRows_of_ok hp₁, wholeRows_of_ok hp, hrows, List.drop_left] at hbase
    rw [hrows, databaseRows, databaseRows, List.map_append]
    exact computeDeltasAndArc_resume (fresh_of_stored hsplit.before_stored hp₁) hbase

/-- A file of ordinary counters in time order. -/
structure OrdinaryFile (excludeTypes lines : List String) : Prop where
  rows : Ordinary ((wholeRows excludeTypes lines).map statRow)
  ordered : ((wholeRows excludeTypes lines).map statRow).Pairwise fun a b => a.time ≤ b.time

/-- **Files that are not resumable.**  A missing baseline shows in a file of ordinary
counters. -/
theorem resumable_of_sameFreshRows {excludeTypes lines : List String} {present : ℤ → Bool}
    (hwf : WellFormed excludeTypes lines) (hfile : OrdinaryFile excludeTypes lines)
    (hstamp : ∀ before header rest, ResumeSplit present lines before header rest →
      StampAlike before header)
    (hsame : SameFreshRows excludeTypes present lines (startIndex present lines)) :
    Resumable excludeTypes present lines := by
  intro before header rest hsplit
  refine ⟨hstamp before header rest hsplit, ?_⟩
  have hlen : before.length ≤ lines.length := by
    rw [hsplit.lines_eq, List.length_append]
    omega
  obtain ⟨p, hp⟩ := exists_ok (hwf.readable 0 (Nat.zero_le _))
  obtain ⟨q, hq⟩ := exists_ok (hwf.readable before.length hlen)
  obtain ⟨p₁, hp₁, hrows⟩ := rows_of_split hsplit (hstamp before header rest hsplit) hp hq
  obtain ⟨whole, resumed, hwhole, hresumed, hperm⟩ := hsame
  have hwhole' : parseFrom excludeTypes lines 0 = .ok p.rows := parseFrom_ok hp
  rw [hwhole'] at hwhole
  rw [startIndex_of_split hsplit, parseFrom_ok hq] at hresumed
  obtain rfl := Except.ok.inj hwhole
  obtain rfl := Except.ok.inj hresumed
  obtain ⟨hordinary, hordered⟩ := hfile
  rw [wholeRows_of_ok hp, hrows, List.map_append] at hordinary hordered
  rw [hrows, databaseRows, databaseRows, List.map_append] at hperm
  rw [wholeRows_of_ok hp₁, wholeRows_of_ok hp, hrows, List.drop_left]
  exact baselines_of_perm hordinary (fun a ha b hb =>
    (List.pairwise_append.mp hordered).2.2 a ha b hb) hperm

/-- **Resuming.**  For every well-formed file and all stored seconds: both variants of the
scan choose one index; no sample that is not stored lies in front of it; and when the file is
resumable, the rows of these samples, with their values, deltas and arc rates, are those of
the whole file.  For a file of ordinary counters whose start sample is stamped alike this is
also necessary. -/
theorem resume_perm (excludeTypes lines : List String) (itimesSet : List ℤ)
    (timestampPresent : Option (ℤ → Bool)) (hwf : WellFormed excludeTypes lines) :
    let present := timestampPresentForDuplicate itimesSet timestampPresent
    let idx := (findProcessingStartIndex lines itimesSet timestampPresent).1
    findProcessingStartIndexStreaming lines itimesSet timestampPresent
        = findProcessingStartIndex lines itimesSet timestampPresent
      ∧ (∀ (i : ℕ) (line : String), lines[i]? = some line → Fresh present line →
          0 ≤ idx ∧ idx ≤ i)
      ∧ (Resumable excludeTypes present lines → SameFreshRows excludeTypes present lines idx)
      ∧ (OrdinaryFile excludeTypes lines →
          (∀ before header rest, ResumeSplit present lines before header rest →
            StampAlike before header) →
          SameFreshRows excludeTypes present lines idx → Resumable excludeTypes present lines) := by
  refine ⟨findProcessingStartIndexStreaming_eq _ _ _, ?_, ?_, ?_⟩
  · intro i line hline hfresh
    exact startIndex_le_of_fresh hline hfresh
  · intro hresumable
    exact sameFreshRows_of_resumable hwf hresumable
  · intro hfile hstamp hsame
    exact resumable_of_sameFreshRows hwf hfile hstamp hsame

/-- The seconds that the examples have stored. -/
def storedSeconds : List ℤ :=
  [100, 110]

/-- A row of the examples. -/
def cpuRow (time : ℚ) (event : String) (value : ℚ) : Row :=
  ⟨.fin time, "c1", "7", "cpu", "0", event, .fin value, 64, 1, "#"⟩

/-- Three samples of one counter, the first two of them stored. -/
def steadySamples : List String :=
  ["!cpu user,E", "100 7 c1", "cpu 0 5", "110 7 c1", "cpu 0 7", "120 7 c1", "cpu 0 12"]

theorem parsed_steadySamples : WellFormed [] steadySamples
    ∧ wholeRows [] steadySamples
        = [cpuRow 100 "user" 5, cpuRow 110 "user" 7, cpuRow 120 "user" 12] := by
  have h : (∀ s ≤ steadySamples.length, ((Parser.init s []).feedLines steadySamples).isOk = true)
      ∧ (∀ r ∈ emitted (parseFrom [] steadySamples 0), ∀ negative, r.value ≠ .inf negative)
      ∧ wholeRows [] steadySamples
          = [cpuRow 100 "user" 5, cpuRow 110 "user" 7, cpuRow 120 "user" 12] := by decide +kernel
  exact ⟨⟨h.1, h.2.1⟩, h.2.2⟩

theorem resume_perm_steadySamples :
    WellFormed [] steadySamples
      ∧ (findProcessingStartIndex steadySamples storedSeconds none).1 = 3
      ∧ SameFreshRows [] (timestampPresentForDuplicate storedSeconds none) steadySamples
          (findProcessingStartIndex steadySamples storedSeconds none).1 := by
  have hidx : (findProcessingStartIndex steadySamples storedSeconds none).1 = 3 := by
    decide +kernel
  obtain ⟨hwf, hwhole⟩ := parsed_steadySamples
  refine ⟨hwf, hidx, ?_⟩
  refine (resume_perm [] steadySamples storedSeconds none hwf).2.2.1 ?_
  intro before header rest hsplit
  have hlen : before.length = 3 := by
    have hsplit' := (startIndex_of_split hsplit).symm.trans hidx
    omega
  obtain ⟨a, b, c, rfl⟩ := List.length_eq_three.mp hlen
  have hlines := hsplit.lines_eq
  simp only [steadySamples, List.cons_append, List.nil_append, List.cons.injEq] at hlines
  obtain ⟨rfl, rfl, rfl, rfl, -⟩ := hlines
  refine ⟨Or.inl (by decide +kernel), ?_⟩
  rw [hwhole]
  decide +kernel

/-- A full sample, a sample of the fast tier and a full sample; the first two are stored. -/
def fastTierLines : List String :=
  ["!cpu user,E system,E,R=S", "100 7 c1", "cpu 0 5 6", "110 7 c1", "cpu 0 @fast 7",
    "120 7 c1", "cpu 0 9 16"]

/-- The deltas and rates of the sample that is not stored. -/
def freshDeltas (rows : List Row) : List (String × Option ℚ × Option ℚ) :=
  ((databaseRows rows).filter fun r =>
    fresh (timestampPresentForDuplicate storedSeconds none) r.time).map
      fun r => (r.event, r.delta, r.arc)

theorem parsed_fastTierLines : WellFormed [] fastTierLines
    ∧ emitted (parseFrom [] fastTierLines 0)
        = [cpuRow 100 "user" 5, cpuRow 100 "system" 6, cpuRow 110 "user" 7, cpuRow 120 "user" 9,
            cpuRow 120 "system" 16]
    ∧ emitted (parseFrom [] fastTierLines 3)
        = [cpuRow 110 "user" 7, cpuRow 120 "user" 9, cpuRow 120 "system" 16] := by
  have h : (∀ s ≤ fastTierLines.length, ((Parser.init s []).feedLines fastTierLines).isOk = true)
      ∧ (∀ r ∈ emitted (parseFrom [] fastTierLines 0), ∀ negative, r.value ≠ .inf negative)
      ∧ emitted (parseFrom [] fastTierLines 0)
          = [cpuRow 100 "user" 5, cpuRow 100 "system" 6, cpuRow 110 "user" 7,
              cpuRow 120 "user" 9, cpuRow 120 "system" 16]
      ∧ emitted (parseFrom [] fastTierLines 3)
          = [cpuRow 110 "user" 7, cpuRow 120 "user" 9, cpuRow 120 "system" 16] := by decide +kernel
  exact ⟨⟨h.1, h.2.1⟩, h.2.2⟩

/-- The sample of the fast tier costs the delta of `system`. -/
theorem freshDeltas_fastTierLines :
    freshDeltas (emitted (parseFrom [] fastTierLines 0))
        = [("system", some 10, some (1 / 2)), ("user", some 2, some (1 / 5))]
      ∧ freshDeltas (emitted (parseFrom [] fastTierLines 3))
        = [("system", none, none), ("user", some 2, some (1 / 5))] := by
  obtain ⟨-, hwhole, hresumed⟩ := parsed_fastTierLines
  rw [hwhole, hresumed]
  exact ⟨by decide +kernel, by decide +kernel⟩

/-- **A lost baseline.**  The file is resumed from the sample of the fast tier, which has no
`system`: the whole file stores a delta of 10 and a rate of 1/2 for it, the resumed file
stores neither. -/
theorem resume_not_perm_fastTierLines :
    WellFormed [] fastTierLines
      ∧ (findProcessingStartIndex fastTierLines storedSeconds none).1 = 3
      ∧ ¬SameFreshRows [] (timestampPresentForDuplicate storedSeconds none) fastTierLines
          (findProcessingStartIndex fastTierLines storedSeconds none).1 := by
  have hidx : (findProcessingStartIndex fastTierLines storedSeconds none).1 = 3 := by
    decide +kernel
  refine ⟨parsed_fastTierLines.1, hidx, ?_⟩
  rw [hidx]
  rintro ⟨whole, resumed, hwhole, hresumed, hperm⟩
  have hdeltas : (freshDeltas whole).Perm (freshDeltas resumed) := hperm.map _
  rw [show whole = emitted (parseFrom [] fastTierLines 0) by rw [hwhole]; rfl,
    show resumed = emitted (parseFrom [] fastTierLines 3) by rw [hresumed]; rfl,
    freshDeltas_fastTierLines.1, freshDeltas_fastTierLines.2] at hdeltas
  exact absurd hdeltas (by decide +kernel)

end ResumeIndex
