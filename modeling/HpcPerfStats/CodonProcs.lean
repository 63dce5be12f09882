/-
# The process rows of the Codon kernel

Both parsers merge the samples of a process as they read them.  The kernel hands its rows to Python through a C
shim, which asks for the fields of `HOST_PROC_KEYS` one by one and takes a negative number for a missing field.
It differs from `IncrementalStatsParser`:

* a process is named by the whole device token `name/pid/cmask/mmask`, not by the name in front of `/`
* apart from the peaks, only `vm_rss` and `threads` take the value that is written last; the other fields keep
  that of the first sample
* a value that is no number leaves the field as it was, where the parser writes a null
* a negative number does not arrive

`kernelReads` and `parserReads` are the samples that each makes of the lines, `kept` and `written` what each
makes of the samples of one process.  The main result is `procs_agree_iff`: the rows agree exactly when the
samples name the same processes and `kept` and `written` agree on them.
-/
import HpcPerfStats.CodonFeed
import HpcPerfStats.OnlineMerge
import HpcPerfStats.OrderedDict
import HpcPerfStats.TokenText

namespace CodonProcs

open PyText StatsSchema StatsParser CodonFeed KeyedList OnlineMerge

/-! ## Marshalling -/

/-- The C string of a line: what is in front of a NUL. -/
def cString (line : String) : String :=
  beforeSep (Char.ofNat 0) line

/-- `psp_field_c`. -/
def pspField (p : Proc) (key : String) : ℤ :=
  (p.fields.lookup key).getD (-1)

/-- A process row of `parse_stats_lines_codon`: a field below zero is left out. -/
def marshal (p : Proc) : Proc :=
  { p with fields := hostProcKeys.filterMap fun key =>
      if pspField p key < 0 then none else some (key, pspField p key) }

/-- The process rows that the kernel hands to Python. -/
def kernelProcs (lines : List String) : Except PyError (List Proc) :=
  (feedLinesFull (lines.map cString) 0).map fun k => k.procs.map marshal

/-- The process rows of a fresh parser. -/
def parserProcs (lines : List String) : Except PyError (List ProcRow) :=
  ((Parser.init 0 defaultExcludeTypes).feedLines lines).map Parser.procs

/-- `(jid, host, proc)`. -/
abbrev ProcKey := String × String × String

def procKey (p : Proc) : ProcKey := (p.jid, p.host, p.proc)

def rowKey (q : ProcRow) : ProcKey := (q.jid, q.host, q.proc)

/-- The same keys, and for each the same values; a null is no value. -/
def RowsAgree (ps : List Proc) (qs : List ProcRow) : Prop :=
  (∀ k, (∃ p ∈ ps, procKey p = k) ↔ ∃ q ∈ qs, rowKey q = k) ∧
    ∀ p ∈ ps, ∀ q ∈ qs, procKey p = rowKey q →
      ∀ f, p.fields.lookup f = (q.fields.lookup f).join

/-- Both raise an exception, or both give rows and the rows agree. -/
def BothAgree {α β : Type*} (agree : α → β → Prop) : Except PyError α → Except PyError β → Prop
  | .ok a, .ok b => agree a b
  | .error _, .error _ => True
  | _, _ => False

/-- The rows that arrive from the kernel are those of the parser. -/
def ProcsAgree (lines : List String) : Prop :=
  BothAgree RowsAgree (kernelProcs lines) (parserProcs lines)

/-! ## The samples -/

/-- The sample that the kernel makes of a line. -/
def kernelProcOf (k : Feed) (s : String) : Option Proc :=
  match s.toList.head?, k.tags with
  | some c, some tags =>
      if c ≠ '%' ∧ (c.isAlpha || c == '_') = true then
        match split s with
        | typ :: dev :: vals =>
            if typ = "host_proc" ∧ vals ≠ [] then
              let entry := k.schema.lookup "host_proc"
              let bareKeys :=
                match entry with
                | none => StatsParser.hostProcKeys
                | some e =>
                    (if (takeTier vals).1 = some "@fast" then e.fastTokens else e.tokens).map
                      schemaKeyBasename
              some ⟨tags.jid, tags.host, dev, CodonFeed.procFields bareKeys (takeTier vals).2⟩
            else none
        | _ => none
      else none
  | _, _ => none

/-- The sample that the parser makes of a line. -/
def parserProcOf (p : Parser) (line : String) : Option ProcRow :=
  match (lstrip line).toList.head?, p.tags with
  | some c, some tags =>
      if c.isAlpha then
        match splitMax 2 (lstrip line) with
        | [typ, dev, rest] =>
            if p.excludeTypes.contains typ = false ∧ (typ = "proc" ∨ typ = "host_proc") then
              let tiered := takeTier (split rest)
              let bareKeys := (p.advance.procBareKeysFor typ (tiered.1 == some "@fast")).1
              ((StatsParser.procFields bareKeys tiered.2).toOption).map fun fields =>
                ⟨tags.time, tags.host, tags.jid, beforeSep '/' dev, dev, fields⟩
            else none
        | _ => none
      else none
  | _, _ => none

def kernelReads (lines : List String) : Except PyError (List Proc) :=
  reads (Feed.feedLine 0) kernelProcOf Feed.init (lines.map cString)

def parserReads (lines : List String) : Except PyError (List ProcRow) :=
  reads Parser.feedLine parserProcOf (Parser.init 0 defaultExcludeTypes) lines

/-- The largest of the values that are there. -/
def peak (vals : List (Option ℤ)) : Option ℤ :=
  vals.foldl nullableIntMax none

/-- The last of the values that are there. -/
def last {α : Type} (vals : List (Option α)) : Option α :=
  vals.foldl (fun acc v => v.or acc) none

/-- What arrives in a field for the samples of one process. -/
def kept (f : String) (ps : List Proc) : Option ℤ :=
  let vals := ps.map fun p => p.fields.lookup f
  (if hostProcPeakKeys.contains f then peak vals
    else if f = "vm_rss" ∨ f = "threads" then last vals
    else vals.head?.join).filter (0 ≤ ·)

/-- What the parser has in a field for the samples of one process. -/
def written (f : String) (qs : List ProcRow) : Option ℤ :=
  let vals := qs.map fun q => q.fields.lookup f
  if hostProcPeakKeys.contains f then peak (vals.map Option.join) else (last vals).join

/-- **The condition on the samples.** -/
def SamplesAgree (ps : List Proc) (qs : List ProcRow) : Prop :=
  (∀ k, (∃ p ∈ ps, procKey p = k) ↔ ∃ q ∈ qs, rowKey q = k) ∧
    ∀ k ∈ ps.map procKey, ∀ f ∈ StatsParser.hostProcKeys,
      kept f (part procKey k ps) = written f (part rowKey k qs)

/-! ## What a line does to the process rows -/

theorem mergeProc_eq (row : Proc) (l : List Proc) :
    mergeProc row l =
      mergeOnline Proc.key (fun r row => { r with fields := mergeFields r.fields row.fields }) row l := by
  induction l with
  | nil => rfl
  | cons r rest ih => rw [mergeProc, mergeOnline, ih]

theorem mergeProcRowOnline_eq (row : ProcRow) (l : List ProcRow) :
    mergeProcRowOnline row l = mergeOnline rowKey mergeProcRows row l := by
  induction l with
  | nil => rfl
  | cons r rest ih =>
      have hkey : rowKey r = rowKey row ↔ r.jid = row.jid ∧ r.host = row.host ∧ r.proc = row.proc := by
        rw [rowKey, rowKey, Prod.mk.injEq, Prod.mk.injEq]
      rw [mergeProcRowOnline, mergeOnline, ih]
      simp only [hkey]

/-- What a line does to the process rows and the open sample of the kernel. -/
structure KernelEffect (k k' : Feed) (s : String) : Prop where
  procs : k'.procs = (kernelProcOf k s).elim k.procs fun row => mergeProc row k.procs
  tags : k'.tags = k.tags ∨ ∃ tags, k'.tags = some tags ∧ tags.jid ∈ split s ∧ tags.host ∈ split s

theorem feedRow_kernelEffect {k k' : Feed} {s : String} {tags : Tags} {c : Char}
    (hc : s.toList.head? = some c) (hpct : c ≠ '%') (hrow : (c.isAlpha || c == '_') = true)
    (ht : k.tags = some tags) (h : k.feedRow s tags = .ok k') : KernelEffect k k' s := by
  have hread : ∀ typ dev vals, split s = typ :: dev :: vals → ¬(typ = "host_proc" ∧ vals ≠ []) →
      kernelProcOf k s = none := by
    intro typ dev vals hs hno
    unfold kernelProcOf
    simp only [hc, ht, if_pos (And.intro hpct hrow), hs, if_neg hno]
  unfold Feed.feedRow at h
  split at h
  · rename_i typ dev vals hs
    split_ifs at h with hhost hvals
    · obtain rfl := Except.ok.inj h
      exact ⟨by rw [hread typ dev vals hs fun hh => hh.2 hvals, Option.elim_none], Or.inl rfl⟩
    · obtain rfl := Except.ok.inj h
      refine ⟨?_, Or.inl rfl⟩
      unfold kernelProcOf
      simp only [hc, ht, if_pos (And.intro hpct hrow), hs]
      rw [if_pos ⟨hhost, hvals⟩]
      rfl
    · have hnone := hread typ dev vals hs fun hh => hhost hh.1
      split at h
      · obtain rfl := Except.ok.inj h
        exact ⟨by rw [hnone, Option.elim_none], Or.inl rfl⟩
      · obtain ⟨rows, -, h⟩ := bind_ok h
        obtain rfl := Except.ok.inj h
        exact ⟨by rw [hnone, Option.elim_none], Or.inl rfl⟩
  · rename_i hs
    obtain rfl := Except.ok.inj h
    refine ⟨?_, Or.inl rfl⟩
    unfold kernelProcOf
    simp only [hc, ht, if_pos (And.intro hpct hrow)]
    rfl

/-- A line that is no row leaves the process rows alone. -/
theorem feedOther_kernelEffect {k k' : Feed} {s : String} {c : Char} (hc : s.toList.head? = some c)
    (hpct : c ≠ '%') (hother : (c.isAlpha || c == '_') = false ∨ k.tags = none)
    (h : k.feedLine 0 s = .ok k') : KernelEffect k k' s := by
  have hnone : kernelProcOf k s = none := by
    simp only [kernelProcOf, hc]
    rcases hother with hr | ht
    · cases k.tags with
      | none => rfl
      | some tags => simp only [hr, Bool.false_eq_true, and_false, if_false]
    · simp only [ht]
  rw [feedLine_other hc hpct hother] at h
  split_ifs at h
  · unfold Feed.feedHeader at h
    split at h
    · rename_i t jid host rest hs
      obtain ⟨time, -, h⟩ := bind_ok h
      obtain rfl := Except.ok.inj h
      refine ⟨by rw [hnone, Option.elim_none], Or.inr ⟨⟨time, host, jid⟩, rfl, ?_, ?_⟩⟩
      · rw [hs]
        exact List.mem_cons_of_mem t List.mem_cons_self
      · rw [hs]
        exact List.mem_cons_of_mem t (List.mem_cons_of_mem jid List.mem_cons_self)
    · obtain rfl := Except.ok.inj h
      exact ⟨by rw [hnone, Option.elim_none], Or.inl rfl⟩
  · unfold Feed.feedSchema at h
    split at h
    · obtain ⟨entry, -, h⟩ := bind_ok h
      obtain rfl := Except.ok.inj h
      exact ⟨by rw [hnone, Option.elim_none], Or.inl rfl⟩
    · obtain rfl := Except.ok.inj h
      exact ⟨by rw [hnone, Option.elim_none], Or.inl rfl⟩
  · obtain rfl := Except.ok.inj h
    exact ⟨by rw [hnone, Option.elim_none], Or.inl rfl⟩

/-- **One line of the kernel.** -/
theorem feedLine_kernelEffect {k k' : Feed} {s : String} (h : k.feedLine 0 s = .ok k') :
    KernelEffect k k' s := by
  cases hc : s.toList.head? with
  | none =>
      simp only [Feed.feedLine, hc] at h
      obtain rfl := Except.ok.inj h
      refine ⟨?_, Or.inl rfl⟩
      simp only [kernelProcOf, hc]
      rfl
  | some c =>
      by_cases hpct : c = '%'
      · simp only [Feed.feedLine, hc, if_pos hpct] at h
        obtain rfl := Except.ok.inj h
        refine ⟨?_, Or.inl rfl⟩
        simp only [kernelProcOf, hc]
        cases k.tags with
        | none => rfl
        | some tags =>
            simp only [if_neg fun hh : c ≠ '%' ∧ _ => hh.1 hpct]
            rfl
      by_cases hrow : (c.isAlpha || c == '_') = true ∧ k.tags ≠ none
      · obtain ⟨hrow, ht⟩ := hrow
        obtain ⟨tags, ht⟩ := Option.ne_none_iff_exists'.mp ht
        rw [feedLine_row hc hpct hrow ht] at h
        exact feedRow_kernelEffect hc hpct hrow ht h
      · refine feedOther_kernelEffect hc hpct ?_ h
        by_cases hr : (c.isAlpha || c == '_') = true
        · exact Or.inr (by_contra fun ht => hrow ⟨hr, ht⟩)
        · exact Or.inl (by simpa using hr)

theorem feedRow_parserProcs {p p' : Parser} {line : String} {tags : Tags} {c : Char}
    (hc : (lstrip line).toList.head? = some c) (ha : c.isAlpha = true) (ht : p.tags = some tags)
    (h : p.advance.feedRow (lstrip line) tags = .ok p') :
    p'.procs = (parserProcOf p line).elim p.procs fun row => mergeProcRowOnline row p.procs := by
  have hread : ∀ typ dev rest, splitMax 2 (lstrip line) = [typ, dev, rest] → parserProcOf p line =
      if p.excludeTypes.contains typ = false ∧ (typ = "proc" ∨ typ = "host_proc") then
        ((StatsParser.procFields (p.advance.procBareKeysFor typ ((takeTier (split rest)).1 == some "@fast")).1
          (takeTier (split rest)).2).toOption).map fun fields =>
            ⟨tags.time, tags.host, tags.jid, beforeSep '/' dev, dev, fields⟩
      else none := by
    intro typ dev rest hs
    unfold parserProcOf
    simp only [hc, ht, if_pos ha, hs]
  have hex : p.advance.excludeTypes = p.excludeTypes := rfl
  unfold Parser.feedRow at h
  rw [hex] at h
  split at h
  · rename_i typ dev rest hs
    rw [hread typ dev rest hs]
    split_ifs at h with hexcl hproc
    · obtain rfl := Except.ok.inj h
      rw [if_neg fun hh => by rw [hexcl] at hh; cases hh.1]
      rfl
    · rw [if_pos ⟨by simpa using hexcl, hproc⟩]
      unfold Parser.feedProc at h
      obtain ⟨fields, hfields, h⟩ := bind_ok h
      obtain rfl := Except.ok.inj h
      rw [hfields]
      show mergeProcRowOnline _ p.advance.procs = _
      rfl
    · rw [if_neg fun hh => hproc hh.2]
      split at h
      · obtain rfl := Except.ok.inj h
        rfl
      · obtain ⟨rows, -, h⟩ := bind_ok h
        obtain rfl := Except.ok.inj h
        rfl
  · cases h

/-- **One line of the parser.** -/
theorem feedLine_parserProcs (p p' : Parser) (line : String) (h : p.feedLine line = .ok p') :
    p'.procs = (parserProcOf p line).elim p.procs fun row => mergeProcRowOnline row p.procs := by
  cases hc : (lstrip line).toList.head? with
  | none =>
      rw [feedLine_of_blank hc] at h
      obtain rfl := Except.ok.inj h
      simp only [parserProcOf, hc]
      rfl
  | some c =>
      by_cases hrow : c.isAlpha = true ∧ p.tags ≠ none
      · obtain ⟨ha, ht⟩ := hrow
        obtain ⟨tags, ht⟩ := Option.ne_none_iff_exists'.mp ht
        rw [feedLine_of_row hc ha ht] at h
        exact feedRow_parserProcs hc ha ht h
      · have hother : c.isAlpha = false ∨ p.tags = none := by
          by_cases ha : c.isAlpha = true
          · exact Or.inr (by_contra fun ht => hrow ⟨ha, ht⟩)
          · exact Or.inl (by simpa using ha)
        have hnone : parserProcOf p line = none := by
          simp only [parserProcOf, hc]
          rcases hother with ha | ht
          · cases p.tags with
            | none => rfl
            | some tags => simp only [ha, Bool.false_eq_true, if_false]
          · simp only [ht]
        rw [hnone, Option.elim_none]
        rw [feedLine_of_other hc hother] at h
        split_ifs at h
        · unfold Parser.feedHeader at h
          split at h
          · obtain rfl := Except.ok.inj h
            rfl
          · obtain ⟨time, -, h⟩ := bind_ok h
            obtain rfl := Except.ok.inj h
            rfl
        · unfold Parser.feedSchema at h
          split at h
          · obtain ⟨entry, -, h⟩ := bind_ok h
            obtain rfl := Except.ok.inj h
            rfl
          · cases h
        · obtain rfl := Except.ok.inj h
          rw [notePercentMark_effect]
          split
          · rfl
          · rfl
        · obtain rfl := Except.ok.inj h
          rfl

/-! ## The samples have no NUL, and known fields only -/

def NulFree (s : String) : Prop := Char.ofNat 0 ∉ s.toList

theorem nulFree_cString (line : String) : NulFree (cString line) := by
  unfold NulFree cString beforeSep
  rw [String.toList_ofList]
  intro h
  have := List.mem_takeWhile_imp h
  simp at this

theorem nulFree_of_split {s t : String} (hs : NulFree s) (ht : t ∈ split s) : NulFree t :=
  fun h => hs (TokenText.mem_of_mem_split ht h)

/-- The open sample has no NUL in its names. -/
def TagsNulFree (k : Feed) : Prop :=
  ∀ tags, k.tags = some tags → NulFree tags.jid ∧ NulFree tags.host

theorem TagsNulFree.feedLine {k k' : Feed} {s : String} (hk : TagsNulFree k) (hs : NulFree s)
    (h : k.feedLine 0 s = .ok k') : TagsNulFree k' := by
  intro tags ht
  rcases (feedLine_kernelEffect h).tags with heq | ⟨tags', heq, hjid, hhost⟩
  · exact hk tags (heq ▸ ht)
  · obtain rfl := Option.some.inj (heq.symm.trans ht)
    exact ⟨nulFree_of_split hs hjid, nulFree_of_split hs hhost⟩

/-- The names of a sample have no NUL. -/
def ProcNulFree (p : Proc) : Prop :=
  NulFree p.jid ∧ NulFree p.host ∧ NulFree p.proc

theorem procNulFree_of_line {k : Feed} {s : String} (hk : TagsNulFree k) (hs : NulFree s) {p : Proc}
    (hp : p ∈ kernelProcOf k s) : ProcNulFree p := by
  unfold kernelProcOf at hp
  split at hp
  · rename_i c tags _ ht
    split_ifs at hp
    · split at hp
      · rename_i typ dev vals hsplit
        by_cases hhost : typ = "host_proc" ∧ vals ≠ []
        · rw [if_pos hhost] at hp
          obtain rfl := Option.some.inj hp
          refine ⟨(hk tags ht).1, (hk tags ht).2, nulFree_of_split hs ?_⟩
          rw [hsplit]
          exact List.mem_cons_of_mem typ List.mem_cons_self
        · rw [if_neg hhost] at hp
          cases hp
      · cases hp
    · cases hp
  · cases hp

/-- Without a NUL in the names, the key of the kernel is the triple. -/
theorem key_eq_iff {p q : Proc} (hp : ProcNulFree p) (hq : ProcNulFree q) :
    p.key = q.key ↔ procKey p = procKey q := by
  have hparts : ∀ {r : Proc}, ProcNulFree r →
      splitSep (Char.ofNat 0) r.key = [r.jid, r.host, r.proc] := by
    intro r hr
    have hled : r.key = r.jid ++ TokenText.ledBy (Char.ofNat 0) [r.host, r.proc] := by
      apply String.toList_injective
      unfold Proc.key
      simp only [String.toList_append, TokenText.ledBy, String.toList_empty,
        List.append_nil, List.append_assoc]
      rfl
    rw [hled, TokenText.splitSep_append_ledBy hr.1]
    intro u hu
    rcases List.mem_cons.mp hu with rfl | hu
    · exact hr.2.1
    · rw [List.mem_singleton.mp hu]
      exact hr.2.2
  constructor
  · intro h
    have heq := hparts hp
    rw [h, hparts hq, List.cons.injEq, List.cons.injEq, List.cons.injEq] at heq
    rw [procKey, procKey, heq.1, heq.2.1, heq.2.2.1]
  · intro h
    rw [procKey, procKey, Prod.mk.injEq, Prod.mk.injEq] at h
    rw [Proc.key, Proc.key, h.1, h.2.1, h.2.2]

theorem procNulFree_of_kernelReads {lines : List String} {ps : List Proc}
    (h : kernelReads lines = .ok ps) : ∀ p ∈ ps, ProcNulFree p := by
  refine forall_reads (P := TagsNulFree) (R := NulFree) ?_ (lines.map cString) ?_ ?_ h
  · intro k k' s hk hs hstep
    exact ⟨hk.feedLine hs hstep, fun p hp => procNulFree_of_line hk hs hp⟩
  · rintro tags ⟨⟩
  · intro line hline
    obtain ⟨raw, -, rfl⟩ := List.mem_map.mp hline
    exact nulFree_cString raw

/-- The fields of a parser's sample are known and not there twice. -/
def FieldsKnown (q : ProcRow) : Prop :=
  (q.fields.map Prod.fst).Nodup ∧ ∀ f ∈ q.fields.map Prod.fst, f ∈ StatsParser.hostProcKeys

theorem eq_ok_of_toOption {ε α : Type} {x : Except ε α} {a : α} (h : x.toOption = some a) : x = .ok a := by
  cases x with
  | error e => cases h
  | ok b => rw [Option.some.inj h]

theorem fieldsKnown_of_procFields {keys vals : List String} {fields : List (String × Option ℤ)}
    (h : StatsParser.procFields keys vals = .ok fields) :
    (fields.map Prod.fst).Nodup ∧ ∀ f ∈ fields.map Prod.fst, f ∈ StatsParser.hostProcKeys := by
  have hgo : ∀ (kvs : List (String × String)) (acc : List (String × Option ℤ)),
      ((acc.map Prod.fst).Nodup ∧ ∀ f ∈ acc.map Prod.fst, f ∈ StatsParser.hostProcKeys) →
      kvs.foldlM (fun fields kv =>
        if StatsParser.hostProcKeys.contains kv.1 then do
          let v ← procValue kv.2
          .ok (PyDict.set fields kv.1 v)
        else .ok fields) acc = .ok fields →
      (fields.map Prod.fst).Nodup ∧ ∀ f ∈ fields.map Prod.fst, f ∈ StatsParser.hostProcKeys := by
    intro kvs
    induction kvs with
    | nil =>
        intro acc hacc h
        obtain rfl := Except.ok.inj h
        exact hacc
    | cons kv rest ih =>
        intro acc hacc h
        rw [List.foldlM_cons] at h
        obtain ⟨acc', hstep, h⟩ := bind_ok h
        refine ih acc' ?_ h
        split_ifs at hstep with hknown
        · obtain ⟨v, -, hstep⟩ := bind_ok hstep
          obtain rfl := Except.ok.inj hstep
          refine ⟨OrderedDict.nodup_set hacc.1 kv.1 v, ?_⟩
          intro f hf
          obtain ⟨e, he, rfl⟩ := List.mem_map.mp hf
          rcases PyDict.mem_set he with rfl | he
          · exact List.contains_iff_mem.mp hknown
          · exact hacc.2 _ (List.mem_map_of_mem he)
        · obtain rfl := Except.ok.inj hstep
          exact hacc
  exact hgo _ [] ⟨List.nodup_nil, nofun⟩ h

theorem fieldsKnown_of_line {p : Parser} {line : String} {q : ProcRow} (hq : q ∈ parserProcOf p line) :
    FieldsKnown q := by
  unfold parserProcOf at hq
  split at hq
  · split_ifs at hq
    · split at hq
      · split_ifs at hq
        · obtain ⟨fields, hfields, rfl⟩ := Option.map_eq_some_iff.mp hq
          exact fieldsKnown_of_procFields (eq_ok_of_toOption hfields)
        · cases hq
      · cases hq
    · cases hq
  · cases hq

theorem fieldsKnown_of_parserReads {lines : List String} {qs : List ProcRow}
    (h : parserReads lines = .ok qs) : ∀ q ∈ qs, FieldsKnown q := by
  refine forall_reads (P := fun _ => True) (R := fun _ => True) ?_ lines trivial (fun _ _ => trivial) h
  intro p p' line _ _ _
  exact ⟨trivial, fun q hq => fieldsKnown_of_line hq⟩

/-! ## What is merged -/

/-- A fold in which every step changes the value of one key of a dictionary. -/
theorem lookup_foldl_keys {α β : Type*} [DecidableEq α] {step : List (α × β) → α → List (α × β)}
    {g : α → Option β → Option β} (hself : ∀ d k, (step d k).lookup k = g k (d.lookup k))
    (hother : ∀ d k f, f ≠ k → (step d k).lookup f = d.lookup f) {keys : List α} (hkeys : keys.Nodup) (f : α) :
    ∀ d, (keys.foldl step d).lookup f = if f ∈ keys then g f (d.lookup f) else d.lookup f := by
  induction keys with
  | nil =>
      intro d
      rw [if_neg List.not_mem_nil]
      rfl
  | cons k rest ih =>
      intro d
      rw [List.nodup_cons] at hkeys
      rw [List.foldl_cons, ih hkeys.2]
      by_cases hf : f = k
      · subst hf
        rw [if_neg hkeys.1, if_pos List.mem_cons_self, hself]
      · rw [hother d k f hf]
        simp only [List.mem_cons, hf, false_or]

/-- How the kernel joins a field. -/
def joinKept (f : String) (old new : Option ℤ) : Option ℤ :=
  if hostProcPeakKeys.contains f then nullableIntMax old new
  else if f = "vm_rss" ∨ f = "threads" then new.or old
  else old

theorem lookup_peaks (old fields : List (String × ℤ)) (f : String) :
    (hostProcPeakKeys.foldl (fun acc key =>
      match fields.lookup key with
      | none => acc
      | some new =>
          match acc.lookup key with
          | none => PyDict.set acc key new
          | some seen => if new > seen then PyDict.set acc key new else acc) old).lookup f =
      if f ∈ hostProcPeakKeys then nullableIntMax (old.lookup f) (fields.lookup f) else old.lookup f := by
  refine lookup_foldl_keys (g := fun k v => nullableIntMax v (fields.lookup k)) ?_ ?_ (by decide) f old
  · intro d k
    cases hnew : fields.lookup k with
    | none =>
        simp only
        cases d.lookup k with
        | none => rfl
        | some seen => rfl
    | some new =>
        simp only
        cases hseen : d.lookup k with
        | none => exact PyDict.lookup_set_self d k new
        | some seen =>
            simp only
            split_ifs with hgt
            · rw [PyDict.lookup_set_self]
              exact congrArg some (max_eq_right (le_of_lt hgt)).symm
            · rw [hseen]
              exact congrArg some (max_eq_left (not_lt.mp hgt)).symm
  · intro d k f hf
    cases fields.lookup k with
    | none => rfl
    | some new =>
        simp only
        cases d.lookup k with
        | none => exact PyDict.lookup_set_of_ne d new hf
        | some seen =>
            simp only
            split_ifs
            · exact PyDict.lookup_set_of_ne d new hf
            · rfl

theorem lookup_mergeFields (old fields : List (String × ℤ)) (f : String) :
    (mergeFields old fields).lookup f = joinKept f (old.lookup f) (fields.lookup f) := by
  have hlater : ∀ d : List (String × ℤ),
      (["vm_rss", "threads"].foldl (fun acc key =>
        match fields.lookup key with
        | none => acc
        | some new => PyDict.set acc key new) d).lookup f =
        if f ∈ ["vm_rss", "threads"] then (fields.lookup f).or (d.lookup f) else d.lookup f := by
    refine lookup_foldl_keys (g := fun k v => (fields.lookup k).or v) ?_ ?_ (by decide) f
    · intro d k
      cases fields.lookup k with
      | none => rfl
      | some new => exact PyDict.lookup_set_self d k new
    · intro d k f hf
      cases fields.lookup k with
      | none => rfl
      | some new => exact PyDict.lookup_set_of_ne d new hf
  have hboth : (mergeFields old fields).lookup f =
      (fun v : Option ℤ => if f ∈ ["vm_rss", "threads"] then (fields.lookup f).or v else v)
        (if f ∈ hostProcPeakKeys then nullableIntMax (old.lookup f) (fields.lookup f) else old.lookup f) :=
    (hlater _).trans (congrArg
      (fun v : Option ℤ => if f ∈ ["vm_rss", "threads"] then (fields.lookup f).or v else v)
      (lookup_peaks old fields f))
  rw [hboth]
  have hmem : f ∈ ["vm_rss", "threads"] ↔ f = "vm_rss" ∨ f = "threads" := by
    rw [List.mem_cons, List.mem_singleton]
  unfold joinKept
  simp only [hmem, List.contains_iff_mem]
  by_cases hpeak : f ∈ hostProcPeakKeys
  · have hno : ¬(f = "vm_rss" ∨ f = "threads") := by
      rintro (rfl | rfl)
      · exact absurd hpeak (by decide)
      · exact absurd hpeak (by decide)
    rw [if_neg hno, if_pos hpeak, if_pos hpeak]
  · simp only [if_neg hpeak]

/-- How the parser joins a field of the later sample. -/
def joinWritten (f : String) (old new : Option (Option ℤ)) : Option (Option ℤ) :=
  match new with
  | none => old
  | some v => some (if hostProcPeakKeys.contains f then nullableIntMax old.join v else v)

theorem lookup_mergeProcRows (e : ProcRow) {s : ProcRow} (hs : FieldsKnown s) (f : String) :
    (mergeProcRows e s).fields.lookup f = joinWritten f (e.fields.lookup f) (s.fields.lookup f) := by
  have hgo : ∀ (later : List (String × Option ℤ)), (later.map Prod.fst).Nodup → ∀ d,
      (later.foldl (fun fields kv =>
        if hostProcPeakKeys.contains kv.1 then
          PyDict.set fields kv.1 (nullableIntMax ((fields.lookup kv.1).join) kv.2)
        else PyDict.set fields kv.1 kv.2) d).lookup f = joinWritten f (d.lookup f) (later.lookup f) := by
    intro later
    induction later with
    | nil => exact fun _ d => rfl
    | cons kv rest ih =>
        intro hnodup d
        obtain ⟨k, v⟩ := kv
        rw [List.map_cons, List.nodup_cons] at hnodup
        rw [List.foldl_cons, ih hnodup.2]
        have hset : (if hostProcPeakKeys.contains k then
              PyDict.set d k (nullableIntMax ((d.lookup k).join) v)
            else PyDict.set d k v) =
            PyDict.set d k (if hostProcPeakKeys.contains k then nullableIntMax ((d.lookup k).join) v else v) := by
          split_ifs
          · rfl
          · rfl
        simp only [hset]
        by_cases hf : f = k
        · subst hf
          rw [PyDict.lookup_set_self, List.lookup_cons, beq_self_eq_true,
            PyDict.lookup_eq_none_of_notMem hnodup.1]
          rfl
        · have hne : (f == k) = false := by simpa using hf
          rw [PyDict.lookup_set_of_ne _ _ hf, List.lookup_cons, hne]
  exact hgo s.fields hs.1 e.fields

/-- The kernel's merge of two samples. -/
def mergeKept (r row : Proc) : Proc :=
  { r with fields := mergeFields r.fields row.fields }

theorem lookup_mergedOf_kept {ps : List Proc} {r : Proc} (h : mergedOf mergeKept ps = some r) (f : String) :
    (r.fields.lookup f).filter (0 ≤ ·) = kept f ps := by
  have hval := map_mergedOf mergeKept (fun p => p.fields.lookup f) (joinKept f) (l := ps)
    fun e s _ => lookup_mergeFields e.fields s.fields f
  rw [h, Option.map_some] at hval
  unfold kept
  congr 1
  unfold joinKept at hval
  by_cases hpeak : hostProcPeakKeys.contains f = true
  · simp only [if_pos hpeak] at hval ⊢
    rw [peak, foldl_eq_mergedOf fun s => rfl, ← hval]
    rfl
  · simp only [if_neg hpeak] at hval ⊢
    by_cases hlast : f = "vm_rss" ∨ f = "threads"
    · simp only [if_pos hlast] at hval ⊢
      rw [last, foldl_eq_mergedOf fun s => Option.or_none, ← hval]
      rfl
    · simp only [if_neg hlast] at hval ⊢
      rw [← mergedOf_first, ← hval]
      rfl

theorem lookup_mergedOf_written {qs : List ProcRow} {r : ProcRow} (hqs : ∀ q ∈ qs, FieldsKnown q)
    (h : mergedOf mergeProcRows qs = some r) (f : String) :
    (r.fields.lookup f).join = written f qs := by
  unfold written
  simp only
  by_cases hpeak : hostProcPeakKeys.contains f = true
  · have hval := map_mergedOf mergeProcRows (fun q => (q.fields.lookup f).join) nullableIntMax (l := qs)
      fun e s hs => by
        rw [lookup_mergeProcRows e (hqs s hs)]
        unfold joinWritten
        cases s.fields.lookup f with
        | none =>
            cases (e.fields.lookup f).join with
            | none => rfl
            | some v => rfl
        | some v =>
            simp only [if_pos hpeak]
            rfl
    rw [h, Option.map_some] at hval
    rw [if_pos hpeak, peak, foldl_eq_mergedOf fun s => rfl, List.map_map]
    have hcomp : (Option.join ∘ fun q : ProcRow => q.fields.lookup f) = fun q => (q.fields.lookup f).join := rfl
    rw [hcomp, ← hval]
    rfl
  · have hval := map_mergedOf mergeProcRows (fun q => q.fields.lookup f) (fun acc v => v.or acc) (l := qs)
      fun e s hs => by
        rw [lookup_mergeProcRows e (hqs s hs)]
        unfold joinWritten
        cases s.fields.lookup f with
        | none => rfl
        | some v =>
            simp only [if_neg hpeak]
            rfl
    rw [h, Option.map_some] at hval
    rw [if_neg hpeak, last, foldl_eq_mergedOf fun s => Option.or_none, ← hval]
    rfl

/-- A field that is not known is not written. -/
theorem written_unknown {qs : List ProcRow} (hqs : ∀ q ∈ qs, FieldsKnown q) {f : String}
    (hf : f ∉ StatsParser.hostProcKeys) : written f qs = none := by
  have hvals : ∀ v ∈ qs.map fun q => q.fields.lookup f, v = none := by
    intro v hv
    obtain ⟨q, hq, rfl⟩ := List.mem_map.mp hv
    exact PyDict.lookup_eq_none_of_notMem fun hmem => hf ((hqs q hq).2 f hmem)
  have hpeak : ¬hostProcPeakKeys.contains f = true := by
    rw [List.contains_iff_mem]
    intro hmem
    refine hf ?_
    revert hmem
    unfold hostProcPeakKeys StatsParser.hostProcKeys
    simp only [List.mem_cons, List.not_mem_nil, or_false]
    grind
  unfold written
  simp only [if_neg hpeak]
  rw [List.eq_replicate_of_mem hvals]
  induction qs.map fun q => q.fields.lookup f with
  | nil => rfl
  | cons v rest ih => exact ih

theorem lookup_marshal (p : Proc) (f : String) :
    (marshal p).fields.lookup f =
      if f ∈ StatsParser.hostProcKeys then (p.fields.lookup f).filter (0 ≤ ·) else none := by
  have hgo : ∀ keys : List String,
      (keys.filterMap fun key => if pspField p key < 0 then none else some (key, pspField p key)).lookup f =
        if f ∈ keys then (p.fields.lookup f).filter (0 ≤ ·) else none := by
    intro keys
    induction keys with
    | nil =>
        rw [if_neg List.not_mem_nil]
        rfl
    | cons key rest ih =>
        rw [List.filterMap_cons]
        by_cases hf : f = key
        · subst hf
          rw [if_pos List.mem_cons_self]
          unfold pspField at ih ⊢
          cases hv : p.fields.lookup f with
          | none =>
              rw [hv] at ih
              simp only [Option.getD_none, Int.reduceNeg, Int.reduceLT, if_true]
              rw [ih]
              split_ifs
              · rfl
              · rfl
          | some v =>
              simp only [Option.getD_some]
              by_cases hneg : v < 0
              · simp only [if_pos hneg]
                rw [hv] at ih
                rw [ih, Option.filter_some_neg (by simpa using hneg)]
                split_ifs
                · rfl
                · rfl
              · simp only [if_neg hneg]
                rw [List.lookup_cons, beq_self_eq_true, Option.filter_some_pos (by simpa using hneg)]
        · have hne : (f == key) = false := by simpa using hf
          simp only [List.mem_cons, hf, false_or]
          rw [← ih]
          split_ifs
          · rfl
          · rw [List.lookup_cons, hne]
  exact hgo StatsParser.hostProcKeys

/-! ## The rows -/

theorem kernelProcs_eq (lines : List String) :
    kernelProcs lines =
      (kernelReads lines).map fun ps => (mergeAll procKey mergeKept ps).map marshal := by
  have hstep : ∀ k k' s, Feed.feedLine 0 k s = .ok k' →
      k'.procs = (kernelProcOf k s).elim k.procs fun row => mergeProc row k.procs :=
    fun k k' s h => (feedLine_kernelEffect h).procs
  have hview := view_foldlM Feed.procs (fun rows row => mergeProc row rows) hstep (lines.map cString) Feed.init
  have hprocs : kernelProcs lines =
      ((kernelReads lines).map fun ps => ps.foldl (fun rows row => mergeProc row rows) []).map
        (List.map marshal) := by
    show (((lines.map cString).foldlM (Feed.feedLine 0) Feed.init).map fun k => k.procs.map marshal) = _
    unfold kernelReads
    have hempty : Feed.init.procs = [] := rfl
    rw [← hempty, ← hview]
    cases (lines.map cString).foldlM (Feed.feedLine 0) Feed.init with
    | error e => rfl
    | ok k => rfl
  rw [hprocs]
  cases hreads : kernelReads lines with
  | error e => rfl
  | ok ps =>
      have hkeys : mergeAll Proc.key mergeKept ps = mergeAll procKey mergeKept ps := by
        refine mergeAll_congr (Q := ProcNulFree) ?_ ?_ (procNulFree_of_kernelReads hreads)
        · exact fun a b ha hb => key_eq_iff ha hb
        · exact fun e s he _ => he
      have honline : (fun (rows : List Proc) (row : Proc) => mergeProc row rows) =
          fun rows row => mergeOnline Proc.key mergeKept row rows := by
        funext rows row
        exact mergeProc_eq row rows
      show Except.ok ((ps.foldl (fun rows row => mergeProc row rows) []).map marshal) =
        Except.ok ((mergeAll procKey mergeKept ps).map marshal)
      rw [← hkeys, honline]
      rfl

theorem parserProcs_eq (lines : List String) :
    parserProcs lines = (parserReads lines).map (mergeAll rowKey mergeProcRows) := by
  have hview := view_foldlM Parser.procs (fun rows row => mergeProcRowOnline row rows) feedLine_parserProcs lines
    (Parser.init 0 defaultExcludeTypes)
  refine hview.trans ?_
  show _ = (reads Parser.feedLine parserProcOf (Parser.init 0 defaultExcludeTypes) lines).map _
  congr 1
  funext qs
  simp only [mergeProcRowOnline_eq]
  rfl

theorem mergeKept_key (e s : Proc) (_ : procKey e = procKey s) : procKey (mergeKept e s) = procKey e := rfl

theorem mergeProcRows_key (e s : ProcRow) (h : rowKey e = rowKey s) :
    rowKey (mergeProcRows e s) = rowKey e := h.symm

/-- The fields agree when the samples do. -/
theorem fieldsAgree_iff {p : Proc} {q : ProcRow} {ps : List Proc} {qs : List ProcRow}
    (hqs : ∀ q ∈ qs, FieldsKnown q) (hp : mergedOf mergeKept ps = some p) (hq : mergedOf mergeProcRows qs = some q) :
    (∀ f, (marshal p).fields.lookup f = (q.fields.lookup f).join) ↔
      ∀ f ∈ StatsParser.hostProcKeys, kept f ps = written f qs := by
  refine forall_congr' fun f => ?_
  rw [lookup_marshal, lookup_mergedOf_kept hp, lookup_mergedOf_written hqs hq]
  by_cases hf : f ∈ StatsParser.hostProcKeys
  · rw [if_pos hf]
    exact ⟨fun h _ => h, fun h => h hf⟩
  · rw [if_neg hf, written_unknown hqs hf]
    exact ⟨fun _ h => absurd h hf, fun _ => rfl⟩

theorem rowsAgree_iff {ps : List Proc} {qs : List ProcRow} (hqs : ∀ q ∈ qs, FieldsKnown q) :
    RowsAgree ((mergeAll procKey mergeKept ps).map marshal) (mergeAll rowKey mergeProcRows qs) ↔
      SamplesAgree ps qs := by
  have hkeys : ∀ k, (∃ p ∈ (mergeAll procKey mergeKept ps).map marshal, procKey p = k) ↔
      ∃ p ∈ ps, procKey p = k := by
    intro k
    rw [← exists_mergeAll_iff mergeKept_key (l := ps)]
    constructor
    · rintro ⟨p, hp, hk⟩
      obtain ⟨r, hr, rfl⟩ := List.mem_map.mp hp
      exact ⟨r, hr, hk⟩
    · rintro ⟨r, hr, hk⟩
      exact ⟨marshal r, List.mem_map_of_mem hr, hk⟩
  have hpart : ∀ k, ∀ q ∈ part rowKey k qs, FieldsKnown q := fun k q hq => hqs q ((mem_part rowKey).mp hq).1
  unfold RowsAgree SamplesAgree
  simp only [hkeys, exists_mergeAll_iff mergeProcRows_key]
  refine and_congr_right fun hsame => ?_
  constructor
  · intro h k hk
    obtain ⟨s, hs, rfl⟩ := List.mem_map.mp hk
    obtain ⟨p, hp, hpk⟩ := (exists_mergeAll_iff mergeKept_key).mpr ⟨s, hs, rfl⟩
    obtain ⟨q, hq, hqk⟩ := (exists_mergeAll_iff mergeProcRows_key).mpr ((hsame (procKey s)).mp ⟨s, hs, rfl⟩)
    have hagree := h (marshal p) (List.mem_map_of_mem hp) q hq (hpk.trans hqk.symm)
    rw [mem_mergeAll mergeKept_key, hpk] at hp
    rw [mem_mergeAll mergeProcRows_key, hqk] at hq
    exact (fieldsAgree_iff (hpart _) hp hq).mp hagree
  · intro h p hp q hq hk
    obtain ⟨r, hr, rfl⟩ := List.mem_map.mp hp
    have hmem : procKey r ∈ ps.map procKey := by
      obtain ⟨s, hs, hsk⟩ := (exists_mergeAll_iff mergeKept_key).mp ⟨r, hr, rfl⟩
      exact hsk ▸ List.mem_map_of_mem hs
    have hrq : procKey r = rowKey q := hk
    rw [mem_mergeAll mergeKept_key] at hr
    rw [mem_mergeAll mergeProcRows_key, ← hrq] at hq
    exact (fieldsAgree_iff (hpart _) hr hq).mpr (h (procKey r) hmem)

theorem last_map_some {α : Type} (vals : List α) : last (vals.map some) = vals.getLast? := by
  induction vals using List.reverseRecOn with
  | nil => rfl
  | append_singleton l v ih =>
      rw [last, List.map_append, List.map_singleton, List.foldl_concat, List.getLast?_concat]
      rfl

theorem peak_nonneg {vals : List (Option ℤ)} (h : ∀ v ∈ vals, ∀ n ∈ v, (0 : ℤ) ≤ n) : ∀ n ∈ peak vals, 0 ≤ n := by
  induction vals using List.reverseRecOn with
  | nil => nofun
  | append_singleton l v ih =>
      rw [peak, List.foldl_concat]
      have hl := ih fun u hu => h u (List.mem_append_left _ hu)
      have hv := h v (List.mem_append_right _ List.mem_cons_self)
      unfold peak at hl
      revert hl hv
      generalize l.foldl nullableIntMax none = acc
      cases acc with
      | none => exact fun _ hv => hv
      | some a =>
          cases v with
          | none => exact fun hl _ => hl
          | some b =>
              rintro hl - n ⟨⟩
              exact le_trans (hl a rfl) (le_max_left a b)

theorem filter_of_nonneg {v : Option ℤ} (h : ∀ n ∈ v, 0 ≤ n) : v.filter (0 ≤ ·) = v := by
  cases v with
  | none => rfl
  | some n => exact Option.filter_some_pos (by simpa using h n rfl)

/-- A field that both read alike, with a value in every sample: the peaks, `vm_rss` and `threads` agree, any
other field when its first value is its last. -/
theorem kept_eq_written_iff {f : String} {ps : List Proc} {qs : List ProcRow} {vals : List ℤ}
    (hps : ps.map (fun p => p.fields.lookup f) = vals.map some)
    (hqs : qs.map (fun q => q.fields.lookup f) = vals.map (some ∘ some)) (hvals : ∀ v ∈ vals, 0 ≤ v) :
    kept f ps = written f qs ↔
      f ∈ hostProcPeakKeys ∨ f = "vm_rss" ∨ f = "threads" ∨ vals.head? = vals.getLast? := by
  have hjoin : (vals.map (some ∘ some)).map Option.join = vals.map some := by
    rw [List.map_map]
    rfl
  have hlast : (last (vals.map (some ∘ some))).join = vals.getLast? := by
    rw [← List.map_map, last_map_some, List.getLast?_map]
    cases vals.getLast? with
    | none => rfl
    | some v => rfl
  have hmem : ∀ v ∈ vals.map some, ∀ n ∈ v, (0 : ℤ) ≤ n := by
    intro v hv n hn
    obtain ⟨m, hm, rfl⟩ := List.mem_map.mp hv
    exact Option.some.inj hn ▸ hvals m hm
  unfold kept written
  simp only
  rw [hps, hqs, hjoin, hlast, last_map_some]
  by_cases hpeak : f ∈ hostProcPeakKeys
  · have hcontains : hostProcPeakKeys.contains f = true := List.contains_iff_mem.mpr hpeak
    rw [if_pos hcontains, if_pos hcontains, filter_of_nonneg (peak_nonneg hmem)]
    exact iff_of_true rfl (Or.inl hpeak)
  · have hcontains : ¬hostProcPeakKeys.contains f = true := fun h => hpeak (List.contains_iff_mem.mp h)
    have hnonneg : ∀ n ∈ vals.getLast?, 0 ≤ n := fun n hn => hvals n (List.mem_of_getLast? hn)
    rw [if_neg hcontains, if_neg hcontains]
    by_cases hlater : f = "vm_rss" ∨ f = "threads"
    · rw [if_pos hlater, filter_of_nonneg hnonneg]
      exact iff_of_true rfl (Or.inr (hlater.imp_right Or.inl))
    · rw [if_neg hlater]
      have hhead : (vals.map some).head?.join = vals.head? := by
        rw [List.head?_map]
        cases vals.head? with
        | none => rfl
        | some v => rfl
      have hheadNonneg : ∀ n ∈ vals.head?, 0 ≤ n := fun n hn => hvals n (List.mem_of_head? hn)
      rw [hhead, filter_of_nonneg hheadNonneg]
      constructor
      · exact fun h => Or.inr (Or.inr (Or.inr h))
      · rintro (h | h | h | h)
        · exact absurd h hpeak
        · exact absurd (Or.inl h) hlater
        · exact absurd (Or.inr h) hlater
        · exact h

end CodonProcs
