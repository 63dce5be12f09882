/-
# Sample lines read back

The lines of a sample, as `IncrementalStatsParser` reads them: the header opens the sample, the marks
set its shared flag, a row becomes hardware rows or a process row.  What the monitor says in a row is
stated on its own (`rowReadings`, `rowProcs`); `feedLine_statsRow` says that the parser adds exactly that
when the device name is one word.
-/
import HpcPerfStats.SchemaRoundTrip
import HpcPerfStats.SharedStamp

namespace MonitorRoundTrip

open PyText TokenText StatsSchema MonitorMarks MonitorText
open StatsParser hiding SchemaEntry

/-! ## The header of a sample -/

/-- The sample as the parser tags its rows. -/
def sampleTags (s : Sample) : Tags := ⟨.fin (mkRat s.micros 1000000), s.nodename, s.jobid⟩

theorem sixDigits_toList (k : ℕ) :
    (sixDigits k).toList = [k / 100000, k / 10000, k / 1000, k / 100, k / 10, k].map fun d =>
      Nat.digitChar (d % 10) :=
  String.toList_ofList

theorem isDigit_of_mem_sixDigits {k : ℕ} {c : Char} (h : c ∈ (sixDigits k).toList) :
    c.isDigit = true := by
  rw [sixDigits_toList] at h
  obtain ⟨d, -, rfl⟩ := List.mem_map.mp h
  rw [Nat.isDigit_digitChar, decide_eq_true_iff]
  exact Nat.mod_lt d (by decide)

theorem ofDigitChars_sixDigits (k : ℕ) :
    Nat.ofDigitChars 10 (sixDigits k).toList 0 = k % 1000000 := by
  have hlt : ∀ d, d % 10 < 10 := fun d => Nat.mod_lt d (by decide)
  rw [sixDigits_toList]
  simp only [List.map_cons, List.map_nil]
  rw [Nat.ofDigitChars_cons_digitChar_of_lt_ten (hlt _),
    Nat.ofDigitChars_cons_digitChar_of_lt_ten (hlt _),
    Nat.ofDigitChars_cons_digitChar_of_lt_ten (hlt _),
    Nat.ofDigitChars_cons_digitChar_of_lt_ten (hlt _),
    Nat.ofDigitChars_cons_digitChar_of_lt_ten (hlt _),
    Nat.ofDigitChars_cons_digitChar_of_lt_ten (hlt _), Nat.ofDigitChars_nil]
  omega

theorem pyFloat_formatTime (micros : ℕ) :
    pyFloat (formatTime micros) = some (.fin (mkRat micros 1000000)) := by
  have hlen : (sixDigits micros).toList.length = 6 := by
    rw [sixDigits_toList]
    rfl
  have hne : (sixDigits micros).toList ≠ [] := by
    intro h
    rw [h] at hlen
    exact absurd hlen (by decide)
  unfold formatTime
  rw [pyFloat_fixed _ hne fun c hc => isDigit_of_mem_sixDigits hc, hlen, ofDigitChars_sixDigits]
  have hsum : ((micros / 1000000 : ℕ) : ℤ) * 10 ^ 6 + ((micros % 1000000 : ℕ) : ℤ) = micros := by
    have h := Nat.div_add_mod micros 1000000
    omega
  rw [hsum, show (10 : ℕ) ^ 6 = 1000000 from rfl]

theorem isToken_formatTime (micros : ℕ) : IsToken (formatTime micros) :=
  isToken_fixed _ fun _ hc => isDigit_of_mem_sixDigits hc

theorem headerLine_eq (s : Sample) :
    headerLine s = formatTime s.micros ++ spaced [s.jobid, s.nodename] := by
  have hspaced : spaced [s.jobid, s.nodename] = " " ++ s.jobid ++ (" " ++ s.nodename ++ "") := rfl
  unfold headerLine
  rw [hspaced, String.append_empty, String.append_assoc, String.append_assoc, String.append_assoc,
    String.append_assoc]

theorem split_headerLine (s : Sample) :
    split (headerLine s) = [formatTime s.micros, s.jobid, s.nodename] := by
  rw [headerLine_eq]
  apply split_append_spaced (isToken_formatTime s.micros)
  intro u hu
  rcases List.mem_cons.mp hu with rfl | hu
  · exact s.jobid_isToken
  · rw [List.mem_singleton.mp hu]
    exact s.nodename_isToken

/-- **A header line opens its sample.** -/
theorem feedLine_headerLine (p : Parser) (s : Sample) (hstart : p.startIdx = 0) :
    p.feedLine (headerLine s) = .ok { p.advance with
      tags := some (sampleTags s)
      sampleShared := p.armShared && realJid s.jobid
      armShared := false
      marks := bindPending (sampleTags s).time s.nodename p.marks } := by
  obtain ⟨c, cs, hcs⟩ := List.exists_cons_of_ne_nil (toString_ne_nil (s.micros / 1000000))
  have hd : c.isDigit = true := isDigit_of_mem_toString (by rw [hcs]; exact List.mem_cons_self)
  have hhead : (headerLine s).toList.head? = some c := by
    rw [headerLine_eq, head?_token_append (isToken_formatTime s.micros)]
    unfold formatTime
    rw [String.toList_append, String.toList_append, hcs]
    rfl
  have hna : c.isAlpha = false := by
    by_contra h
    rw [isAlpha_not_isDigit (by simpa using h)] at hd
    exact absurd hd Bool.false_ne_true
  rw [feedLine_of_head hhead (isDigit_not_isSpace hd) hna,
    if_pos ⟨by rw [hstart]; exact Nat.zero_le _, hd⟩]
  unfold Parser.feedHeader digitLineIdentity
  rw [split_headerLine]
  dsimp only
  rw [pyFloat_formatTime]
  rfl

/-! ## Marks -/

/-- The sample carries a `%jobs` mark that names a job. -/
def marked (s : Sample) : Bool := (markLines s).any SharedStamp.namesJob

/-- A mark line touches the shared flags and the marks only. -/
theorem feedLine_markLine {p : Parser} {tags : Tags} (ht : p.tags = some tags) (s : String) :
    ∃ k marks, p.feedLine ("%" ++ s) = .ok { p with
      lineIndex := k
      armShared := p.armShared || SharedStamp.namesJob ("%" ++ s)
      sampleShared := if SharedStamp.namesJob ("%" ++ s) then realJid tags.jid else p.sampleShared
      marks := marks } := by
  have hstrip : lstrip ("%" ++ s) = "%" ++ s :=
    lstrip_token_append (t := "%") (by decide) s
  have hjob : SharedStamp.namesJob ("%" ++ s) = (markOf ("%" ++ s)).any MarkBody.isJobs := by
    unfold SharedStamp.namesJob
    rw [hstrip]
  rw [feedLine_mark, hjob]
  unfold Parser.notePercentMark
  cases hmark : markOf ("%" ++ s) with
  | none =>
      refine ⟨p.lineIndex + 1, p.marks, ?_⟩
      rw [Option.any_none, Bool.or_false]
      rfl
  | some body =>
      refine ⟨p.lineIndex + 1, p.marks ++ [⟨body, some (tags.time, tags.host)⟩], ?_⟩
      unfold Parser.queueMark
      dsimp only [Parser.advance]
      rw [ht]
      rfl

theorem feedLines_markLines {tags : Tags} (parts : List String) {p : Parser}
    (ht : p.tags = some tags) :
    ∃ k marks, p.feedLines (parts.map ("%" ++ ·)) = .ok { p with
      lineIndex := k
      armShared := p.armShared || (parts.map ("%" ++ ·)).any SharedStamp.namesJob
      sampleShared :=
        if (parts.map ("%" ++ ·)).any SharedStamp.namesJob then realJid tags.jid
        else p.sampleShared
      marks := marks } := by
  induction parts generalizing p with
  | nil =>
      refine ⟨p.lineIndex, p.marks, ?_⟩
      rw [List.map_nil, List.any_nil, Bool.or_false]
      rfl
  | cons s parts ih =>
      obtain ⟨k₁, marks₁, hline⟩ := feedLine_markLine ht s
      obtain ⟨k₂, marks₂, hlines⟩ := ih (p := { p with
        lineIndex := k₁
        armShared := p.armShared || SharedStamp.namesJob ("%" ++ s)
        sampleShared :=
          if SharedStamp.namesJob ("%" ++ s) then realJid tags.jid else p.sampleShared
        marks := marks₁ }) ht
      refine ⟨k₂, marks₂, ?_⟩
      rw [List.map_cons, feedLines_cons]
      refine ⟨_, hline, ?_⟩
      rw [hlines, List.any_cons]
      cases SharedStamp.namesJob ("%" ++ s) with
      | true => simp
      | false => simp

/-- **The lines in front of the rows open the sample.**  Its rows are stamped when it carries a mark,
or when the sample before has armed the flag. -/
theorem feedLines_opening (p : Parser) (s : Sample) (hstart : p.startIdx = 0) :
    ∃ k marks, p.feedLines (["", headerLine s] ++ markLines s) = .ok { p with
      lineIndex := k
      tags := some (sampleTags s)
      armShared := marked s
      sampleShared := (marked s || p.armShared) && realJid s.jobid
      marks := marks } := by
  obtain ⟨k, marks, hmarks⟩ := feedLines_markLines (markParts s.mark)
    (p := { p.advance.advance with
      tags := some (sampleTags s)
      sampleShared := p.armShared && realJid s.jobid
      armShared := false
      marks := bindPending (sampleTags s).time s.nodename p.marks }) rfl
  refine ⟨k, marks, ?_⟩
  rw [List.cons_append, feedLines_cons]
  refine ⟨p.advance, feedLine_empty p, ?_⟩
  rw [List.cons_append, feedLines_cons]
  refine ⟨_, feedLine_headerLine p.advance s hstart, ?_⟩
  show Parser.feedLines _ ((markParts s.mark).map ("%" ++ ·)) = _
  refine hmarks.trans ?_
  have hflag : (if marked s then realJid s.jobid else p.armShared && realJid s.jobid) =
      ((marked s || p.armShared) && realJid s.jobid) := by
    cases marked s <;> rfl
  rw [← hflag]
  rfl

/-! ## What a row says -/

/-- A hardware row without the width, the factor and the unit of its column. -/
structure Reading where
  time : PyFloat
  host : String
  jid : String
  typ : String
  dev : String
  event : String
  value : PyFloat
  deriving DecidableEq

def reading (r : Row) : Reading :=
  ⟨r.time, r.host, r.jid, r.typ, r.dev, r.event, r.value⟩

/-- The type is read as process rows. -/
def isProcType (t : StatsType) : Bool := t.name == "proc" || t.name == "host_proc"

/-- What the monitor says in a row of a hardware type that is not excluded. -/
def rowReadings (exclude : List String) (s : Sample) (tier : RowTier) (shared : Bool) (t : StatsType)
    (st : Stats) : List Reading :=
  if exclude.contains t.name || isProcType t then []
  else (emitted t st tier).map fun kv =>
    ⟨.fin (mkRat s.micros 1000000), s.nodename, s.jobid, t.name,
      sharedRowDev st.dev t.name s.jobid shared, kv.1, .fin kv.2⟩

/-- The known fields of a process. -/
def emittedFields (t : StatsType) (st : Stats) (tier : RowTier) : List (String × Option ℤ) :=
  PyDict.ofPairs (((emitted t st tier).filter fun kv => hostProcKeys.contains kv.1).map fun kv =>
    (kv.1, some (kv.2 : ℤ)))

/-- What the monitor says in a row of a process type that is not excluded. -/
def rowProcs (exclude : List String) (s : Sample) (tier : RowTier) (t : StatsType) (st : Stats) :
    List ProcRow :=
  if exclude.contains t.name || !isProcType t then []
  else [⟨.fin (mkRat s.micros 1000000), s.nodename, s.jobid, beforeSep '/' st.dev, st.dev,
    emittedFields t st tier⟩]

/-- Process rows merged one by one. -/
def mergeProcs (procs : List ProcRow) (rows : List ProcRow) : List ProcRow :=
  rows.foldl (fun procs r => mergeProcRowOnline r procs) procs

/-! ## Rows read back -/

/-- The values of a row, as text. -/
def valueTexts (kvs : List (String × ℕ)) : List String := kvs.map fun kv => toString kv.2

theorem emitted_keys (t : StatsType) (st : Stats) (tier : RowTier) :
    (emitted t st tier).map Prod.fst =
      (t.schema.filter (rowKeyEmitted tier)).map SchemaEntry.key := by
  have hfst : t.schema.zipIdx.map Prod.fst = t.schema := List.zipIdx_map_fst 0 t.schema
  unfold emitted
  rw [List.map_map]
  nth_rewrite 2 [← hfst]
  rw [List.filter_map, List.map_map]
  rfl

theorem statsRow_eq (t : StatsType) (st : Stats) (tier : RowTier) :
    statsRow t st tier =
      t.name ++ spaced (st.dev :: (rowTierTokens tier ++ valueTexts (emitted t st tier))) := by
  have hspaced : spaced (st.dev :: (rowTierTokens tier ++ valueTexts (emitted t st tier))) =
      " " ++ st.dev ++ (spaced (rowTierTokens tier) ++ spaced (valueTexts (emitted t st tier))) := by
    rw [spaced, ledBy, ledBy_append]
    rfl
  rw [hspaced]
  unfold statsRow
  rw [String.append_assoc, String.append_assoc, String.append_assoc, String.append_assoc]
  rfl

theorem isToken_of_mem_rowTokens {t : StatsType} {st : Stats} {tier : RowTier} {u : String}
    (h : u ∈ rowTierTokens tier ++ valueTexts (emitted t st tier)) : IsToken u := by
  rcases List.mem_append.mp h with h | h
  · cases tier with
    | legacy => exact absurd h List.not_mem_nil
    | full =>
        rw [List.mem_singleton.mp h]
        decide
    | fast =>
        rw [List.mem_singleton.mp h]
        decide
  · obtain ⟨kv, -, rfl⟩ := List.mem_map.mp h
    exact isToken_toString kv.2

/-- Only a fast row leaves keys out. -/
theorem filter_rowKeyEmitted {tier : RowTier} (htier : tier ≠ .fast) (es : List SchemaEntry) :
    es.filter (rowKeyEmitted tier) = es := by
  apply List.filter_eq_self.mpr
  intro e _
  unfold rowKeyEmitted
  rw [bne_iff_ne.mpr htier]
  rfl

/-- A row has a tier or a value. -/
theorem rowTokens_ne_nil (t : StatsType) (st : Stats) (tier : RowTier) :
    rowTierTokens tier ++ valueTexts (emitted t st tier) ≠ [] := by
  cases tier with
  | full => exact List.cons_ne_nil _ _
  | fast => exact List.cons_ne_nil _ _
  | legacy =>
      intro h
      have hkeys := emitted_keys t st .legacy
      rw [filter_rowKeyEmitted (by decide), List.map_eq_nil_iff.mp h] at hkeys
      exact t.schema_ne_nil (List.map_eq_nil_iff.mp hkeys.symm)

/-- The tier of a row as the parser reads it. -/
def tierTag : RowTier → Option String
  | .legacy => none
  | .full => some "@full"
  | .fast => some "@fast"

theorem takeTier_rowTokens (tier : RowTier) (kvs : List (String × ℕ)) :
    takeTier (rowTierTokens tier ++ valueTexts kvs) = (tierTag tier, valueTexts kvs) := by
  cases tier with
  | full => rfl
  | fast => rfl
  | legacy =>
      cases kvs with
      | nil => rfl
      | cons kv kvs =>
          have hne : ∀ w : String, w.toList.head? = some '@' → toString kv.2 ≠ w := by
            rintro w hw rfl
            exact absurd (isDigit_of_mem_toString (List.mem_of_mem_head? hw)) (by decide)
          show takeTier (toString kv.2 :: valueTexts kvs) = (none, toString kv.2 :: valueTexts kvs)
          unfold takeTier
          split
          · rename_i h
            exact absurd (List.cons.inj h).1 (hne "@fast" (by decide))
          · rename_i h
            exact absurd (List.cons.inj h).1 (hne "@full" (by decide))
          · rfl

theorem mapM_pyFloat (kvs : List (String × ℕ)) :
    (valueTexts kvs).mapM (fun v => orValueError (pyFloat v)) =
      .ok (kvs.map fun kv => PyFloat.fin kv.2) := by
  induction kvs with
  | nil => rfl
  | cons kv kvs ih =>
      rw [valueTexts, List.map_cons, List.mapM_cons, pyFloat_toString]
      show ((valueTexts kvs).mapM (fun v => orValueError (pyFloat v)) >>=
        fun vs => pure (PyFloat.fin kv.2 :: vs)) = _
      rw [ih]
      rfl

/-- Columns with the keys of a row read its values. -/
theorem compiledRows_valueTexts (tags : Tags) (typ dev : String) {cols : List SchemaColumn}
    {kvs : List (String × ℕ)} (hcols : cols.map SchemaColumn.event = kvs.map Prod.fst) :
    ∃ rows, compiledRows tags typ dev cols (valueTexts kvs) = .ok rows ∧
      rows.map reading = kvs.map fun kv =>
        ⟨tags.time, tags.host, tags.jid, typ, dev, kv.1, .fin kv.2⟩ := by
  have hlen : (valueTexts kvs).length = cols.length := by
    have h := congrArg List.length hcols
    rw [List.length_map, List.length_map] at h
    unfold valueTexts
    rw [List.length_map, h]
  unfold compiledRows
  rw [if_neg (not_not_intro hlen), mapM_pyFloat]
  refine ⟨_, rfl, ?_⟩
  clear hlen
  induction kvs generalizing cols with
  | nil =>
      rw [List.map_nil, List.zipWith_nil_right]
      rfl
  | cons kv kvs ih =>
      cases cols with
      | nil => exact absurd hcols.symm (List.cons_ne_nil _ _)
      | cons c cols =>
          obtain ⟨hkey, hrest⟩ := List.cons.inj hcols
          rw [List.map_cons, List.zipWith_cons_cons, List.map_cons, List.map_cons, ih hrest, ← hkey]
          rfl

/-- The columns of a tier have the keys of its rows. -/
theorem columns_of_entry {t : StatsType} {entry : StatsParser.SchemaEntry}
    (hentry : schemaEntry t.tokens = .ok entry) (st : Stats) (tier : RowTier) :
    (if tierTag tier = some "@fast" then entry.fastCompiled else entry.compiled).map
      SchemaColumn.event = (emitted t st tier).map Prod.fst := by
  obtain ⟨entry', hentry', -, hfull, hfast⟩ := schemaEntry_tokens t
  obtain rfl := Except.ok.inj (hentry.symm.trans hentry')
  rw [emitted_keys]
  cases tier with
  | legacy =>
      rw [filter_rowKeyEmitted (by decide)]
      exact hfull
  | full =>
      rw [filter_rowKeyEmitted (by decide)]
      exact hfull
  | fast => exact hfast

/-- **A hardware row is read back**, under the device the stamp gives. -/
theorem hardwareRows_rowTokens {t : StatsType} {entry : StatsParser.SchemaEntry}
    (hentry : schemaEntry t.tokens = .ok entry)
    (hlegacy : schemaNeedsLegacyHardwareDecode t.name t.tokens = false) (st : Stats)
    (tier : RowTier) (dev : String) (tags : Tags) (shared : Bool) :
    ∃ rows, hardwareRows entry t.name dev
        (rowTierTokens tier ++ valueTexts (emitted t st tier)) tags shared = .ok rows ∧
      rows.map reading = (emitted t st tier).map fun kv =>
        ⟨tags.time, tags.host, tags.jid, t.name, sharedRowDev dev t.name tags.jid shared, kv.1,
          .fin kv.2⟩ := by
  have htokens : entry.tokens = t.tokens := by
    obtain ⟨entry', hentry', htokens, -⟩ := schemaEntry_tokens t
    rwa [Except.ok.inj (hentry.symm.trans hentry')]
  obtain ⟨rows, hrows, hread⟩ := compiledRows_valueTexts tags t.name
    (sharedRowDev dev t.name tags.jid shared) (columns_of_entry hentry st tier)
  refine ⟨rows, ?_, hread⟩
  unfold hardwareRows outputType
  rw [htokens, hlegacy, takeTier_rowTokens]
  cases tier with
  | legacy => exact hrows
  | full => exact hrows
  | fast => exact hrows

theorem procValue_toString (n : ℕ) : procValue (toString n) = .ok (some (n : ℤ)) := by
  unfold procValue
  rw [pyInt_toString]

/-- The known fields of a process row are read back. -/
theorem procFields_valueTexts (kvs : List (String × ℕ)) :
    procFields (kvs.map Prod.fst) (valueTexts kvs) =
      .ok (PyDict.ofPairs ((kvs.filter fun kv => hostProcKeys.contains kv.1).map fun kv =>
        (kv.1, some (kv.2 : ℤ)))) := by
  unfold procFields PyDict.ofPairs valueTexts
  rw [List.zip_map']
  generalize ([] : List (String × Option ℤ)) = acc
  induction kvs generalizing acc with
  | nil => rfl
  | cons kv kvs ih =>
      rw [List.map_cons, List.foldlM_cons]
      by_cases hknown : hostProcKeys.contains kv.1 = true
      · rw [if_pos hknown, procValue_toString, List.filter_cons, if_pos hknown]
        exact ih _
      · rw [if_neg hknown, List.filter_cons, if_neg hknown]
        exact ih acc

theorem procBareKeysFor_of_ready {types : List StatsType} {p : Parser} (hready : Ready types p)
    {t : StatsType} (ht : t ∈ types) (st : Stats) (tier : RowTier) :
    p.procBareKeysFor t.name (tierTag tier == some "@fast") =
      ((emitted t st tier).map Prod.fst, p) := by
  obtain ⟨entry, -, -, hbare, hfast⟩ := hready t ht
  rw [emitted_keys]
  unfold Parser.procBareKeysFor
  cases tier with
  | legacy =>
      rw [show (tierTag .legacy == some "@fast") = false from rfl, if_neg Bool.false_ne_true, hbare,
        filter_rowKeyEmitted (by decide)]
  | full =>
      rw [show (tierTag .full == some "@fast") = false from rfl, if_neg Bool.false_ne_true, hbare,
        filter_rowKeyEmitted (by decide)]
  | fast =>
      rw [show (tierTag .fast == some "@fast") = true from rfl, if_pos rfl, hfast]
      rfl

/-- **A process row is read back** and merged. -/
theorem feedProc_rowTokens {types : List StatsType} {p : Parser} (hready : Ready types p)
    {t : StatsType} (ht : t ∈ types) (st : Stats) (tier : RowTier) (dev : String) (tags : Tags) :
    p.feedProc t.name dev (rowTierTokens tier ++ valueTexts (emitted t st tier)) tags =
      .ok { p with
        procs := mergeProcs p.procs
          [⟨tags.time, tags.host, tags.jid, beforeSep '/' dev, dev, emittedFields t st tier⟩] } := by
  unfold Parser.feedProc
  rw [takeTier_rowTokens]
  dsimp only
  rw [procBareKeysFor_of_ready hready ht st tier, procFields_valueTexts]
  rfl

/-! ## Rows of a sample -/

/-- What the tables of the monitor guarantee about the enabled types: different names, and no schema of
the old register layouts. -/
structure Enabled (types : List StatsType) : Prop where
  distinct : ∀ t ∈ types, ∀ t' ∈ types, t.name = t'.name → t = t'
  current : ∀ t ∈ types, schemaNeedsLegacyHardwareDecode t.name t.tokens = false

/-- The parser cuts a row where the monitor has put the blanks. -/
theorem feedLine_rowTokens {types : List StatsType} {p : Parser} (hready : Ready types p)
    {tags : Tags} (htags : p.tags = some tags) {t : StatsType} (ht : t ∈ types) {st : Stats}
    (hdev : IsToken st.dev) (tier : RowTier) :
    ∃ entry, schemaEntry t.tokens = .ok entry ∧ p.feedLine (statsRow t st tier) =
      if p.excludeTypes.contains t.name then .ok p.advance
      else if t.name = "proc" ∨ t.name = "host_proc" then
        p.advance.feedProc t.name st.dev (rowTierTokens tier ++ valueTexts (emitted t st tier)) tags
      else
        (hardwareRows entry t.name st.dev (rowTierTokens tier ++ valueTexts (emitted t st tier)) tags
          p.sampleShared >>= fun rows => .ok { p.advance with rows := p.rows ++ rows }) := by
  obtain ⟨c, hc, ha⟩ : ∃ c, t.name.toList.head? = some c ∧ c.isAlpha = true := by
    have h := t.isAlpha
    rwa [Option.any_eq_true] at h
  have htokens : ∀ u ∈ st.dev :: (rowTierTokens tier ++ valueTexts (emitted t st tier)),
      IsToken u := by
    intro u hu
    rcases List.mem_cons.mp hu with rfl | hu
    · exact hdev
    · exact isToken_of_mem_rowTokens hu
  obtain ⟨rest, hsplit, hrest⟩ := splitMax_append_spaced t.isToken htokens (k := 2) (by
    have h := List.length_pos_of_ne_nil (rowTokens_ne_nil t st tier)
    rw [List.length_cons, List.length_cons]
    omega)
  have hstrip : lstrip (statsRow t st tier) = statsRow t st tier := by
    rw [statsRow_eq, lstrip_token_append t.isToken]
  have hhead : (lstrip (statsRow t st tier)).toList.head? = some c := by
    rw [hstrip, statsRow_eq, head?_token_append t.isToken, hc]
  obtain ⟨entry, hentry, hschema, -⟩ := hready t ht
  refine ⟨entry, hentry, ?_⟩
  rw [feedLine_of_row hhead ha htags, hstrip, statsRow_eq]
  unfold Parser.feedRow
  rw [hsplit]
  dsimp only [List.take_succ_cons, List.take_zero, List.cons_append, List.nil_append]
  rw [hrest, List.drop_succ_cons, List.drop_succ_cons, List.drop_zero,
    show p.advance.schema.lookup t.name = some entry from hschema]
  rfl

/-- **A row is read back.** -/
theorem feedLine_statsRow {types : List StatsType} (htypes : Enabled types) {p : Parser}
    (hready : Ready types p) {s : Sample} (htags : p.tags = some (sampleTags s)) {shared : Bool}
    (hshared : p.sampleShared = (shared && realJid s.jobid)) {t : StatsType} (ht : t ∈ types)
    {st : Stats} (hdev : IsToken st.dev) (tier : RowTier) :
    ∃ k rows, p.feedLine (statsRow t st tier) = .ok { p with
        lineIndex := k
        rows := p.rows ++ rows
        procs := mergeProcs p.procs (rowProcs p.excludeTypes s tier t st) } ∧
      rows.map reading = rowReadings p.excludeTypes s tier shared t st := by
  obtain ⟨entry, hentry, hline⟩ := feedLine_rowTokens hready htags ht hdev tier
  rw [hline]
  unfold rowReadings rowProcs isProcType
  by_cases hex : p.excludeTypes.contains t.name = true
  · refine ⟨p.lineIndex + 1, [], ?_, ?_⟩
    · rw [hex, List.append_nil]
      rfl
    · rw [hex]
      rfl
  · rw [if_neg hex, Bool.eq_false_iff.mpr hex]
    by_cases hproc : t.name = "proc" ∨ t.name = "host_proc"
    · have htrue : (t.name == "proc" || t.name == "host_proc") = true := by simpa using hproc
      refine ⟨p.lineIndex + 1, [], ?_, ?_⟩
      · rw [if_pos hproc, feedProc_rowTokens (p := p.advance) hready ht, htrue, List.append_nil]
        rfl
      · rw [htrue]
        rfl
    · have hno : (t.name == "proc" || t.name == "host_proc") = false := by simpa using hproc
      obtain ⟨rows, hrows, hread⟩ := hardwareRows_rowTokens hentry (htypes.current t ht) st tier
        st.dev (sampleTags s) p.sampleShared
      refine ⟨p.lineIndex + 1, rows, ?_, ?_⟩
      · rw [if_neg hproc, hrows, hno]
        rfl
      · rw [hread, hno, hshared]
        show (emitted t st tier).map _ = (emitted t st tier).map _
        apply List.map_congr_left
        intro kv _
        rw [← SharedStamp.sharedRowDev_and_realJid st.dev t.name s.jobid shared]
        rfl

end MonitorRoundTrip
