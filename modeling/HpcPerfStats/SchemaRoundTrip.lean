/-
# Schema lines read back

The `$` and `!` lines of the monitor, as `IncrementalStatsParser` reads them.  A `!` line lists the keys
of a type with their options; the parser compiles each token to a column and keeps the keys of the fast
tier apart.  `feedLines_hdrLines`: behind a header the parser has the schema of every enabled type and
is otherwise as before.
-/
import HpcPerfStats.MonitorText
import HpcPerfStats.StatsParser

namespace MonitorRoundTrip

open PyText TokenText StatsSchema MonitorMarks MonitorText
open StatsParser hiding SchemaEntry

/-! ## Schema tokens -/

/-- A text without a character does not contain a text that has it. -/
theorem containsChars_of_mem {c : Char} {p cs : List Char} (hp : c ∈ p) (h : c ∉ cs) :
    containsChars p cs = false := by
  have hno : ∀ cs : List Char, c ∉ cs → p.isPrefixOf cs = false := by
    intro cs hcs
    rw [Bool.eq_false_iff]
    intro hpre
    exact hcs ((List.isPrefixOf_iff_prefix.mp hpre).subset hp)
  induction cs with
  | nil =>
      rw [containsChars, List.isEmpty_eq_false_iff]
      rintro rfl
      exact absurd hp List.not_mem_nil
  | cons d cs ih =>
      rw [containsChars, hno (d :: cs) h, ih (fun hc => h (List.mem_cons_of_mem d hc))]
      rfl

/-- The options of an entry. -/
theorem mem_options {e : SchemaEntry} {o : String} (h : o ∈ e.options) :
    o = "C" ∨ o = "E" ∨ (∃ u, e.unit = some u ∧ o = "U=" ++ u) ∨ o = "W=" ++ toString e.width ∨
      o = "R=S" := by
  unfold SchemaEntry.options entryOptions at h
  rw [List.mem_append, List.mem_append, List.mem_append] at h
  rcases h with ((h | h) | h) | h
  · unfold kindOptions at h
    split at h
    · exact absurd h List.not_mem_nil
    · exact Or.inl (List.mem_singleton.mp h)
    · exact Or.inr (Or.inl (List.mem_singleton.mp h))
  · obtain ⟨u, hu, rfl⟩ := List.mem_map.mp h
    exact Or.inr (Or.inr (Or.inl ⟨u, Option.mem_toList.mp hu, rfl⟩))
  · split at h
    · exact Or.inr (Or.inr (Or.inr (Or.inl (List.mem_singleton.mp h))))
    · exact absurd h List.not_mem_nil
  · split at h
    · exact Or.inr (Or.inr (Or.inr (Or.inr (List.mem_singleton.mp h))))
    · exact absurd h List.not_mem_nil

theorem unit_char {e : SchemaEntry} {u : String} (hu : e.unit = some u) {c : Char}
    (hc : c ∈ u.toList) : isSpace c = false ∧ c ≠ ',' ∧ c ≠ '=' := by
  have hall := e.unit_plain
  rw [hu] at hall
  have h := List.all_eq_true.mp hall c hc
  simpa [and_assoc] using h

/-- The characters of an option are no blanks and no commas. -/
theorem option_char {e : SchemaEntry} {o : String} (ho : o ∈ e.options) {c : Char}
    (hc : c ∈ o.toList) : isSpace c = false ∧ c ≠ ',' := by
  have hfixed : ∀ s : String, (s.toList.all fun c => !isSpace c && c != ',') = true →
      c ∈ s.toList → isSpace c = false ∧ c ≠ ',' := by
    intro s hs hcs
    simpa using List.all_eq_true.mp hs c hcs
  rcases mem_options ho with rfl | rfl | ⟨u, hu, rfl⟩ | rfl | rfl
  · exact hfixed "C" (by decide) hc
  · exact hfixed "E" (by decide) hc
  · rw [String.toList_append] at hc
    rcases List.mem_append.mp hc with hc | hc
    · exact hfixed "U=" (by decide) hc
    · obtain ⟨hspace, hcomma, -⟩ := unit_char hu hc
      exact ⟨hspace, hcomma⟩
  · rw [String.toList_append] at hc
    rcases List.mem_append.mp hc with hc | hc
    · exact hfixed "W=" (by decide) hc
    · have hd := isDigit_of_mem_toString hc
      refine ⟨isDigit_not_isSpace hd, ?_⟩
      rintro rfl
      exact absurd hd (by decide)
  · exact hfixed "R=S" (by decide) hc

theorem isToken_token (e : SchemaEntry) : IsToken e.token := by
  have hsuffix : ∀ os : List String, (∀ o ∈ os, ∀ c ∈ o.toList, isSpace c = false) →
      ∀ c ∈ (ledBy ',' os).toList, isSpace c = false := by
    intro os
    induction os with
    | nil =>
        intro _ c hc
        exact absurd hc (by simp [ledBy])
    | cons o os ih =>
        intro hos c hc
        rw [toList_ledBy_cons] at hc
        rcases List.mem_cons.mp hc with rfl | hc
        · rfl
        · rcases List.mem_append.mp hc with hc | hc
          · exact hos o List.mem_cons_self c hc
          · exact ih (fun o' ho' => hos o' (List.mem_cons_of_mem o ho')) c hc
  unfold SchemaEntry.token IsToken
  rw [String.toList_append]
  refine ⟨?_, ?_⟩
  · simp [e.isToken.1]
  · rw [List.all_append, e.isToken.2, Bool.true_and, List.all_eq_true]
    intro c hc
    rw [hsuffix e.options (fun o ho c hc => (option_char ho hc).1) c hc]
    rfl

theorem splitSep_token (e : SchemaEntry) : splitSep ',' e.token = e.key :: e.options := by
  apply splitSep_append_ledBy e.key_plain
  intro o ho hc
  exact (option_char ho hc).2 rfl

theorem schemaKeyBasename_token (e : SchemaEntry) : schemaKeyBasename e.token = e.key :=
  beforeSep_append_ledBy e.key_plain e.options

/-- Only the option of the slow tier is `R=S`. -/
theorem contains_slow (kind : EntryKind) (unit : Option String) (width : ℕ) (slow : Bool) :
    (entryOptions kind unit width slow).contains "R=S" = slow := by
  have hother : ∀ (c : Char) (u : String), c ≠ 'R' →
      ("R=S" == String.singleton c ++ "=" ++ u) = false := by
    intro c u hc
    rw [beq_eq_false_iff_ne]
    intro h
    have hchars := congrArg String.toList h
    rw [String.toList_append, String.toList_append, String.toList_singleton] at hchars
    exact hc (List.cons.inj hchars).1.symm
  unfold entryOptions
  cases slow with
  | true => simp
  | false =>
      rw [List.contains_eq_any_beq]
      simp only [List.any_append, List.any_map, List.any_nil, Bool.or_false, Bool.false_eq_true,
        if_false]
      have hkind : ((kindOptions kind).any fun o => "R=S" == o) = false := by
        cases kind <;> decide
      have hunits : (unit.toList.any ((fun o => "R=S" == o) ∘ ("U=" ++ ·))) = false := by
        rw [List.any_eq_false]
        intro u _
        exact Bool.eq_false_iff.mp (hother 'U' u (by decide))
      have hwidth : ("R=S" == "W=" ++ toString width) = false :=
        hother 'W' (toString width) (by decide)
      rw [hkind, hunits]
      split
      · rw [List.any_cons, hwidth]
        rfl
      · rfl

/-- The slow tier is read back from the token. -/
theorem schemaTokenIsSlowTier_token (e : SchemaEntry) :
    schemaTokenIsSlowTier e.token = e.slow := by
  unfold schemaTokenIsSlowTier
  rw [splitSep_token, List.tail_cons]
  exact contains_slow e.kind e.unit e.width e.slow

/-- An option without a width and a unit says nothing. -/
theorem applyOption_plain {o : String} (hw : contains "W=" o = false) (hu : contains "U=" o = false)
    (col : SchemaColumn) : applyOption col o = .ok col := by
  unfold applyOption
  rw [hw, hu]
  rfl

/-- A width is read as the number that it writes. -/
theorem applyOption_width (col : SchemaColumn) (n : ℕ) :
    applyOption col ("W=" ++ toString n) = .ok { col with wid := n } := by
  have hdigit : ∀ c ∈ (toString n).toList, c.isDigit = true :=
    fun c hc => isDigit_of_mem_toString hc
  have hw : contains "W=" ("W=" ++ toString n) = true := by
    unfold contains
    rw [String.toList_append]
    show containsChars ['W', '='] ('W' :: '=' :: (toString n).toList) = true
    rw [containsChars]
    rfl
  have hu : contains "U=" ("W=" ++ toString n) = false := by
    unfold contains
    apply containsChars_of_mem (show 'U' ∈ "U=".toList by decide)
    rw [String.toList_append]
    intro h
    rcases List.mem_append.mp h with h | h
    · exact absurd h (by decide)
    · exact absurd (hdigit 'U' h) (by decide)
  have hstrip : lstripChars ['W', '='] ("W=" ++ toString n) = toString n := by
    obtain ⟨d, ds, hds⟩ := List.exists_cons_of_ne_nil (toString_ne_nil n)
    have hd := hdigit d (by rw [hds]; exact List.mem_cons_self)
    have hnot : ['W', '='].contains d = false := by
      rw [Bool.eq_false_iff]
      intro h
      rcases List.mem_cons.mp (List.contains_iff_mem.mp h) with rfl | h
      · exact absurd hd (by decide)
      · rw [List.mem_singleton.mp h] at hd
        exact absurd hd (by decide)
    apply String.toList_injective
    unfold lstripChars
    rw [String.toList_ofList, String.toList_append]
    show ('W' :: '=' :: (toString n).toList).dropWhile _ = _
    rw [List.dropWhile_cons_of_pos (by decide), List.dropWhile_cons_of_pos (by decide), hds,
      List.dropWhile_cons_of_neg (by rw [hnot]; exact Bool.false_ne_true)]
  unfold applyOption
  rw [hw, hu, hstrip, pyInt_toString]
  rfl

/-- A unit holds a width only within itself. -/
theorem contains_width_unit (u : String) : contains "W=" ("U=" ++ u) = contains "W=" u := by
  unfold contains
  rw [String.toList_append]
  show containsChars ['W', '='] ('U' :: '=' :: u.toList) = _
  rw [containsChars, containsChars]
  rfl

/-- An option is read without an exception and leaves the event as it is. -/
theorem applyOption_option {e : SchemaEntry} {o : String} (ho : o ∈ e.options) (col : SchemaColumn) :
    ∃ col', applyOption col o = .ok col' ∧ col'.event = col.event := by
  rcases mem_options ho with rfl | rfl | ⟨u, hu, rfl⟩ | rfl | rfl
  · exact ⟨_, applyOption_plain (by decide) (by decide) col, rfl⟩
  · exact ⟨_, applyOption_plain (by decide) (by decide) col, rfl⟩
  · have hw : contains "W=" ("U=" ++ u) = false := by
      rw [contains_width_unit]
      exact containsChars_of_mem (List.mem_cons_of_mem 'W' List.mem_cons_self)
        fun h => (unit_char hu h).2.2 rfl
    unfold applyOption
    rw [hw]
    cases contains "U=" ("U=" ++ u) with
    | true => exact ⟨_, rfl, rfl⟩
    | false => exact ⟨_, rfl, rfl⟩
  · exact ⟨_, applyOption_width col e.width, rfl⟩
  · exact ⟨_, applyOption_plain (by decide) (by decide) col, rfl⟩

theorem foldlM_applyOption {e : SchemaEntry} {os : List String} (hos : ∀ o ∈ os, o ∈ e.options)
    (col : SchemaColumn) :
    ∃ col', os.foldlM applyOption col = .ok col' ∧ col'.event = col.event := by
  induction os generalizing col with
  | nil => exact ⟨col, rfl, rfl⟩
  | cons o os ih =>
      obtain ⟨col₁, h₁, hevent₁⟩ := applyOption_option (hos o List.mem_cons_self) col
      obtain ⟨col₂, h₂, hevent₂⟩ := ih (fun o' ho' => hos o' (List.mem_cons_of_mem o ho')) col₁
      refine ⟨col₂, ?_, hevent₂.trans hevent₁⟩
      rw [List.foldlM_cons, h₁]
      exact h₂

theorem compileSchemaToken_token (e : SchemaEntry) :
    ∃ col, compileSchemaToken e.token = .ok col ∧ col.event = e.key := by
  unfold compileSchemaToken
  rw [splitSep_token]
  exact foldlM_applyOption (fun _ ho => ho) _

/-- **The tokens of a schema line are compiled to columns with their keys.** -/
theorem compileSchemaTokens_tokens (es : List SchemaEntry) :
    ∃ cols, compileSchemaTokens (es.map SchemaEntry.token) = .ok cols ∧
      cols.map SchemaColumn.event = es.map SchemaEntry.key := by
  unfold compileSchemaTokens
  induction es with
  | nil => exact ⟨[], rfl, rfl⟩
  | cons e es ih =>
      obtain ⟨col, hcol, hevent⟩ := compileSchemaToken_token e
      obtain ⟨cols, hcols, hevents⟩ := ih
      refine ⟨col :: cols, ?_, ?_⟩
      · rw [List.map_cons, List.mapM_cons, hcol]
        show (List.mapM compileSchemaToken _ >>= fun cols => pure (col :: cols)) = _
        rw [hcols]
        rfl
      · rw [List.map_cons, List.map_cons, hevent, hevents]

theorem fastSchemaKeys_tokens (es : List SchemaEntry) :
    fastSchemaKeys (es.map SchemaEntry.token) =
      (es.filter fun e => !e.slow).map SchemaEntry.token := by
  unfold fastSchemaKeys
  rw [List.filter_map]
  congr 1
  apply List.filter_congr
  intro e _
  simp only [Function.comp, schemaTokenIsSlowTier_token]

/-- What the parser stores for a schema line. -/
theorem schemaEntry_tokens (t : StatsType) :
    ∃ entry, schemaEntry t.tokens = .ok entry ∧ entry.tokens = t.tokens ∧
      entry.compiled.map SchemaColumn.event = t.schema.map SchemaEntry.key ∧
      entry.fastCompiled.map SchemaColumn.event =
        (t.schema.filter fun e => !e.slow).map SchemaEntry.key := by
  obtain ⟨cols, hcols, hevents⟩ := compileSchemaTokens_tokens t.schema
  obtain ⟨fast, hfast, hfastEvents⟩ :=
    compileSchemaTokens_tokens (t.schema.filter fun e => !e.slow)
  refine ⟨⟨t.tokens, fastSchemaKeys t.tokens, cols, fast⟩, ?_, rfl, hevents, hfastEvents⟩
  unfold schemaEntry
  rw [show t.tokens = t.schema.map SchemaEntry.token from rfl, hcols, fastSchemaKeys_tokens, hfast]
  rfl

/-! ## Header lines -/

/-- The parser has the schemas of the types. -/
def Ready (types : List StatsType) (p : Parser) : Prop :=
  ∀ t ∈ types, ∃ entry, schemaEntry t.tokens = .ok entry ∧ p.schema.lookup t.name = some entry ∧
    p.schemaBare.lookup t.name = some (t.schema.map SchemaEntry.key) ∧
    p.schemaFastBare.lookup t.name = some ((t.schema.filter fun e => !e.slow).map SchemaEntry.key)

/-- What a line leaves of a parser that only counts it. -/
theorem feedLine_of_head {p : Parser} {line : String} {c : Char}
    (hhead : line.toList.head? = some c) (hspace : isSpace c = false) (ha : c.isAlpha = false) :
    p.feedLine line =
      if p.startIdx ≤ p.lineIndex ∧ c.isDigit = true then p.advance.feedHeader line
      else if c = '!' then p.advance.feedSchema line
      else if c = '%' then .ok (p.advance.notePercentMark line)
      else .ok p.advance := by
  have hstrip : lstrip line = line := by
    obtain ⟨cs, hcs⟩ := List.head?_eq_some_iff.mp hhead
    apply String.toList_injective
    rw [toList_lstrip, hcs]
    exact List.dropWhile_cons_of_neg (by rw [hspace]; exact Bool.false_ne_true)
  have hc : (lstrip line).toList.head? = some c := by rw [hstrip, hhead]
  rw [feedLine_of_other hc (Or.inl ha), hstrip]

theorem feedLine_empty (p : Parser) : p.feedLine "" = .ok p.advance := rfl

theorem feedLine_property (p : Parser) {line : String} (hhead : line.toList.head? = some '$') :
    p.feedLine line = .ok p.advance := by
  rw [feedLine_of_head hhead (by decide) (by decide),
    if_neg (by rintro ⟨-, h⟩; exact absurd h (by decide))]
  rfl

theorem feedLine_mark (p : Parser) (s : String) :
    p.feedLine ("%" ++ s) = .ok (p.advance.notePercentMark ("%" ++ s)) := by
  have hhead : ("%" ++ s).toList.head? = some '%' := by
    rw [String.toList_append]
    rfl
  rw [feedLine_of_head hhead (by decide) (by decide),
    if_neg (by rintro ⟨-, h⟩; exact absurd h (by decide))]
  rfl

theorem isToken_label (t : StatsType) : IsToken ("!" ++ t.name) := by
  unfold IsToken
  rw [String.toList_append]
  refine ⟨by simp, ?_⟩
  rw [List.all_append, t.isToken.2]
  rfl

theorem isToken_of_mem_tokens {t : StatsType} {u : String} (h : u ∈ t.tokens) : IsToken u := by
  obtain ⟨e, -, rfl⟩ := List.mem_map.mp h
  exact isToken_token e

/-- The parser with the schema of a type. -/
def storeSchema (p : Parser) (t : StatsType) (entry : StatsParser.SchemaEntry) : Parser :=
  { p.advance with
    schema := PyDict.set p.schema t.name entry
    schemaBare := PyDict.set p.schemaBare t.name (t.schema.map SchemaEntry.key)
    schemaFastBare := PyDict.set p.schemaFastBare t.name
      ((t.schema.filter fun e => !e.slow).map SchemaEntry.key) }

/-- A schema line stores the schema of its type. -/
theorem feedLine_schemaLine (p : Parser) (t : StatsType) :
    ∃ entry, schemaEntry t.tokens = .ok entry ∧
      p.feedLine (schemaLine t) = .ok (storeSchema p t entry) := by
  obtain ⟨entry, hentry, -⟩ := schemaEntry_tokens t
  refine ⟨entry, hentry, ?_⟩
  have hhead : (schemaLine t).toList.head? = some '!' := by
    unfold schemaLine
    rw [String.toList_append, String.toList_append]
    rfl
  have hlen : 1 < (("!" ++ t.name) :: t.tokens).length := by
    obtain ⟨e, es, hes⟩ := List.exists_cons_of_ne_nil t.schema_ne_nil
    unfold StatsType.tokens
    rw [hes]
    simp
  obtain ⟨rest, hsplit, hrest⟩ :=
    splitMax_append_spaced (isToken_label t) (fun u hu => isToken_of_mem_tokens hu) hlen
  have hlabel : dropChars 1 ("!" ++ t.name) = t.name := by
    apply String.toList_injective
    unfold dropChars
    rw [String.toList_ofList, String.toList_append]
    rfl
  have hbare : t.tokens.map schemaKeyBasename = t.schema.map SchemaEntry.key := by
    unfold StatsType.tokens
    rw [List.map_map]
    exact List.map_congr_left fun e _ => schemaKeyBasename_token e
  have hfast : (fastSchemaKeys t.tokens).map schemaKeyBasename =
      (t.schema.filter fun e => !e.slow).map SchemaEntry.key := by
    unfold StatsType.tokens
    rw [fastSchemaKeys_tokens, List.map_map]
    exact List.map_congr_left fun e _ => schemaKeyBasename_token e
  rw [feedLine_of_head hhead (by decide) (by decide),
    if_neg (by rintro ⟨-, h⟩; exact absurd h (by decide)), if_pos rfl]
  unfold Parser.feedSchema schemaLine
  rw [hsplit]
  dsimp only [List.take_succ_cons, List.take_zero, List.cons_append, List.nil_append]
  rw [hrest, hlabel, List.drop_succ_cons, List.drop_zero, hentry, hbare, hfast]
  rfl

/-- What the lines of a header leave of a parser. -/
structure KeepsSample (p p' : Parser) : Prop where
  startIdx : p'.startIdx = p.startIdx
  excludeTypes : p'.excludeTypes = p.excludeTypes
  rows : p'.rows = p.rows
  procs : p'.procs = p.procs
  armShared : p'.armShared = p.armShared

theorem KeepsSample.trans {p q r : Parser} (h : KeepsSample p q) (h' : KeepsSample q r) :
    KeepsSample p r where
  startIdx := h'.startIdx.trans h.startIdx
  excludeTypes := h'.excludeTypes.trans h.excludeTypes
  rows := h'.rows.trans h.rows
  procs := h'.procs.trans h.procs
  armShared := h'.armShared.trans h.armShared

theorem keepsSample_refl (p : Parser) : KeepsSample p p := ⟨rfl, rfl, rfl, rfl, rfl⟩

/-- The schema lines of types with different names make the parser ready. -/
theorem feedLines_schemaLines {all types : List StatsType}
    (hinj : ∀ t ∈ all, ∀ t' ∈ all, t.name = t'.name → t = t') (hsub : ∀ t ∈ types, t ∈ all)
    {done : List StatsType} (hdone : ∀ t ∈ done, t ∈ all) (p : Parser) (hready : Ready done p) :
    ∃ p', p.feedLines (types.map schemaLine) = .ok p' ∧ Ready (done ++ types) p' ∧
      KeepsSample p p' := by
  induction types generalizing p done with
  | nil => exact ⟨p, rfl, by rwa [List.append_nil], keepsSample_refl p⟩
  | cons t types ih =>
      obtain ⟨entry, hentry, hline⟩ := feedLine_schemaLine p t
      have ht : t ∈ all := hsub t List.mem_cons_self
      have hdone' : ∀ u ∈ done ++ [t], u ∈ all := by
        intro u hu
        rcases List.mem_append.mp hu with hu | hu
        · exact hdone u hu
        · rw [List.mem_singleton.mp hu]
          exact ht
      have hready' : Ready (done ++ [t]) (storeSchema p t entry) := by
        intro u hu
        by_cases hname : u.name = t.name
        · rw [hinj u (hdone' u hu) t ht hname]
          exact ⟨entry, hentry, PyDict.lookup_set_self _ _ _, PyDict.lookup_set_self _ _ _,
            PyDict.lookup_set_self _ _ _⟩
        · have hmem : u ∈ done := by
            rcases List.mem_append.mp hu with hu | hu
            · exact hu
            · exact absurd (congrArg StatsType.name (List.mem_singleton.mp hu)) hname
          obtain ⟨entry', hentry', hschema, hbare, hfast⟩ := hready u hmem
          exact ⟨entry', hentry', (PyDict.lookup_set_of_ne _ _ hname).trans hschema,
            (PyDict.lookup_set_of_ne _ _ hname).trans hbare,
            (PyDict.lookup_set_of_ne _ _ hname).trans hfast⟩
      obtain ⟨p', hp', hready'', hkeeps⟩ :=
        ih (fun u hu => hsub u (List.mem_cons_of_mem t hu)) hdone' _ hready'
      refine ⟨p', ?_, ?_, ?_⟩
      · rw [List.map_cons, feedLines_cons]
        exact ⟨_, hline, hp'⟩
      · rwa [List.append_assoc] at hready''
      · have hstore : KeepsSample p (storeSchema p t entry) := ⟨rfl, rfl, rfl, rfl, rfl⟩
        exact hstore.trans hkeeps

theorem head?_of_mem_propertyLines {b : Banner} {line : String} (h : line ∈ propertyLines b) :
    line.toList.head? = some '$' := by
  unfold propertyLines at h
  rcases List.mem_append.mp h with h | h
  · simp only [List.mem_cons, List.not_mem_nil, or_false] at h
    rcases h with rfl | rfl | rfl | rfl
    · simp [String.toList_append]
    · simp [String.toList_append]
    · simp [String.toList_append]
    · simp [String.toList_append]
  · split at h
    · exact absurd h List.not_mem_nil
    · rw [List.mem_singleton.mp h]
      simp [String.toList_append]

theorem feedLines_propertyLines {lines : List String}
    (h : ∀ line ∈ lines, line.toList.head? = some '$') (p : Parser) :
    ∃ k, p.feedLines lines = .ok { p with lineIndex := k } := by
  induction lines generalizing p with
  | nil => exact ⟨p.lineIndex, rfl⟩
  | cons line lines ih =>
      obtain ⟨k, hk⟩ := ih (fun l hl => h l (List.mem_cons_of_mem line hl)) p.advance
      refine ⟨k, ?_⟩
      rw [feedLines_cons]
      exact ⟨_, feedLine_property p (h line List.mem_cons_self), hk⟩

/-- **A header makes the parser ready** and changes nothing of the samples. -/
theorem feedLines_hdrLines {types : List StatsType}
    (hinj : ∀ t ∈ types, ∀ t' ∈ types, t.name = t'.name → t = t') (x : Payload) (p : Parser)
    (h : x.banner ≠ none ∨ Ready types p) :
    ∃ p', p.feedLines (x.hdrLines types) = .ok p' ∧ Ready types p' ∧ KeepsSample p p' := by
  unfold Payload.hdrLines
  cases hb : x.banner with
  | none =>
      rw [hb] at h
      rcases h with h | h
      · exact absurd rfl h
      · exact ⟨p, rfl, h, keepsSample_refl p⟩
  | some b =>
      obtain ⟨k, hk⟩ := feedLines_propertyLines (fun _ h => head?_of_mem_propertyLines h) p
      have hnil : Ready [] { p with lineIndex := k } := by
        intro t ht
        exact absurd ht List.not_mem_nil
      obtain ⟨p', hp', hready, hkeeps⟩ :=
        feedLines_schemaLines hinj (fun _ ht => ht) (fun t ht => absurd ht List.not_mem_nil)
          { p with lineIndex := k } hnil
      refine ⟨p', ?_, hready, ?_⟩
      · rw [feedLines_append]
        exact ⟨_, hk, hp'⟩
      · have hcount : KeepsSample p { p with lineIndex := k } := ⟨rfl, rfl, rfl, rfl, rfl⟩
        exact hcount.trans hkeeps

end MonitorRoundTrip
