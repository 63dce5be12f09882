/-
# Three readers of a schema entry

The monitor defines an entry by a text such as `rx_bytes,E,W=48,U=KB,R=S` (`parse_schema_entry`), prints it
behind `!` (`stats_format_schema_entry_suffix`), and the loader reads what was printed
(`_compile_schema_token`, `_fast_schema_keys`).

* `parseSchemaEntry` reads an `Entry`, whose unit and width are any; `Entry.print` is what is printed, when it
  fits the buffer of 96 bytes;
* `unitMult` and `unitName` are the digits and the letters of a unit, which is how the loader takes it;
* `UnitRead` says that the loader finds the unit behind its `U=`.

The main result is `printed_entry_read`: a printed entry is read back by the monitor as it was, and by the
loader with its key, width, multiplier, unit and tier.  The loader has no place for the kind of an entry.
-/
import HpcPerfStats.MonitorText
import HpcPerfStats.SchemaRoundTrip

namespace SchemaEntryParse

open PyText TokenText StatsSchema
open MonitorText (EntryKind RowTier kindOptions entryOptions formatSchemaEntrySuffix)

/-! ## Reading a definition -/

/-- `isspace` in the C locale. -/
def cIsSpace (c : Char) : Bool :=
  c == ' ' || (9 ≤ c.toNat && c.toNat ≤ 13)

/-- The value of a digit in some base. -/
def digitValue (c : Char) : ℕ :=
  if c.isDigit then c.toNat - 48
  else if c.toLower.toNat ≥ 97 ∧ c.toLower.toNat ≤ 122 then c.toLower.toNat - 87
  else 36

/-- The number that the leading digits write. -/
def strtoulDigits (base : ℕ) (cs : List Char) : ℕ :=
  (cs.takeWhile fun c => digitValue c < base).foldl (fun n c => n * base + digitValue c) 0

/-- The base of a number and the text behind its prefix. -/
def strtoulBase : List Char → ℕ × List Char
  | '0' :: x :: c :: cs =>
      if (x = 'x' ∨ x = 'X') ∧ digitValue c < 16 then (16, c :: cs) else (8, '0' :: x :: c :: cs)
  | '0' :: cs => (8, '0' :: cs)
  | cs => (10, cs)

/-- `strtoul(arg, NULL, 0)`, cut to an `unsigned int`. -/
def strtoul (arg : String) : ℕ :=
  let cs := arg.toList.dropWhile cIsSpace
  let (negative, cs) :=
    match cs with
    | '-' :: cs => (true, cs)
    | '+' :: cs => (false, cs)
    | cs => (false, cs)
  let (base, cs) := strtoulBase cs
  let n := strtoulDigits base cs
  let n := if n ≥ 2 ^ 64 then 2 ^ 64 - 1 else if negative then (2 ^ 64 - n) % 2 ^ 64 else n
  n % 2 ^ 32

example : strtoul "0x10" = 16 := by decide

/-- `struct schema_entry`, as it is parsed. -/
structure Entry where
  key : String
  kind : EntryKind
  unit : Option String
  width : ℕ
  slow : Bool
  deriving DecidableEq

/-- What stands behind the first `=` of an option. -/
def optionArg (opt : String) : Option String :=
  if '=' ∈ opt.toList then some (afterSep '=' opt) else none

/-- The letter of an option: the first of its name, in either case. -/
def optionLetter (opt : String) : Option Char :=
  (beforeSep '=' opt).toList.head?.map Char.toUpper

/-- `schema_apply_one_option`. -/
def schemaApplyOneOption (se : Entry) (opt : String) : Entry :=
  match optionLetter opt, optionArg opt with
  | some 'C', _ => { se with kind := .control }
  | some 'E', _ => { se with kind := .event }
  | some 'U', some arg => { se with unit := some arg }
  | some 'W', some arg => { se with width := strtoul arg }
  | some 'R', arg =>
      { se with slow := (arg.bind fun arg => arg.toList.head?.map Char.toUpper) == some 'S' }
  | _, _ => se

/-- The options of an entry; only the last may be empty. -/
def parseOptions (se : Entry) : List String → Option Entry
  | [] => some se
  | [opt] => if opt = "" then some se else some (schemaApplyOneOption se opt)
  | opt :: rest => if opt = "" then none else parseOptions (schemaApplyOneOption se opt) rest

/-- The text from which an entry is parsed: up to the terminating zero, without leading blanks. -/
def definitionText (str : String) : String :=
  String.ofList ((str.toList.takeWhile (· != Char.ofNat 0)).dropWhile cIsSpace)

/-- `parse_schema_entry`. -/
def parseSchemaEntry (str : String) : Option Entry :=
  match splitSep ',' (definitionText str) with
  | [] => none
  | key :: opts => if key = "" then none else parseOptions ⟨key, .plain, none, 0, false⟩ opts

example : parseSchemaEntry " rx_bytes,event,U=KB,W=0x30,R=slow," =
    some ⟨"rx_bytes", .event, some "KB", 48, true⟩ := by
  decide

/-! ## Printing an entry -/

/-- A piece behind what is in the buffer of 96 bytes; `none` once the end of the buffer is reached. -/
def appendPiece (p : Option String) (piece : String) : Option String :=
  p.bind fun text => if piece.utf8ByteSize < 96 - text.utf8ByteSize then some (text ++ piece) else none

/-- The options that are printed behind the flag of the kind. -/
def Entry.laterOptions (se : Entry) : List String :=
  se.unit.toList.map ("U=" ++ ·) ++ (if se.width ≠ 0 then ["W=" ++ toString se.width] else []) ++
    if se.slow = true then ["R=S"] else []

/-- `stats_format_schema_entry_suffix`, for the buffers of 96 bytes of its callers: what is written, if
anything.  The flag of the kind always fits. -/
def Entry.suffix (se : Entry) : Option String :=
  se.laterOptions.foldl (fun p opt => appendPiece p ("," ++ opt)) (some (ledBy ',' (kindOptions se.kind)))

/-- What is printed for an entry, without the blank in front. -/
def Entry.print (se : Entry) : Option String :=
  se.suffix.map (se.key ++ ·)

/-- `stats_format_row_key_emitted`. -/
def Entry.keyEmitted (se : Entry) : RowTier → Bool
  | .fast => !se.slow
  | _ => true

/-! ## What the loader takes from a unit -/

/-- The multiplier that the digits of a unit write, 1 without any. -/
def unitMult (unit : Option String) : ℚ :=
  match (filterChars Char.isDigit (unit.getD "")).toList with
  | [] => 1
  | ds => (Nat.ofDigitChars 10 ds 0 : ℚ)

/-- The letters of a unit, `#` when there is no unit. -/
def unitName : Option String → String
  | none => "#"
  | some unit => filterChars Char.isAlpha unit

/-- The loader finds the unit behind `U=`: stripping `U` and `=` leaves it as it is, and no part of it looks
like a width. -/
def UnitRead (unit : Option String) : Prop :=
  ∀ u, unit = some u → contains "W=" u = false ∧ u.toList.head? ≠ some 'U' ∧ u.toList.head? ≠ some '='

/-- The column of an entry. -/
def Entry.column (se : Entry) : SchemaColumn :=
  ⟨se.key, if se.width = 0 then 64 else se.width, unitMult se.unit, unitName se.unit⟩

/-! ## What is accepted -/

/-- No comma and no zero. -/
def Plain (s : String) : Prop :=
  ∀ c ∈ s.toList, c ≠ ',' ∧ c ≠ Char.ofNat 0

/-- The entries that `parse_schema_entry` returns. -/
structure Accepted (se : Entry) : Prop where
  key_ne : se.key ≠ ""
  key_head : ∀ c, se.key.toList.head? = some c → cIsSpace c = false
  key_plain : Plain se.key
  unit_plain : ∀ u, se.unit = some u → Plain u
  width_lt : se.width < 2 ^ 32

theorem strtoul_lt (arg : String) : strtoul arg < 2 ^ 32 :=
  Nat.mod_lt _ (by decide)

/-- The parts of a text have its characters. -/
theorem mem_of_mem_splitSepChars {sep c : Char} {part : List Char} (hc : c ∈ part) :
    ∀ {cs : List Char}, part ∈ splitSepChars sep cs → c ∈ cs := by
  intro cs
  induction cs generalizing part with
  | nil =>
      intro h
      rw [splitSepChars, List.mem_singleton] at h
      rw [h] at hc
      exact hc
  | cons d ds ih =>
      intro h
      rw [splitSepChars] at h
      split_ifs at h
      · rcases List.mem_cons.mp h with rfl | h
        · cases hc
        · exact List.mem_cons_of_mem d (ih hc h)
      · obtain ⟨p, ps, hps⟩ := List.exists_cons_of_ne_nil (splitSepChars_ne_nil sep ds)
        rw [hps] at h ih
        rcases List.mem_cons.mp h with rfl | h
        · rcases List.mem_cons.mp hc with rfl | hc
          · exact List.mem_cons_self
          · exact List.mem_cons_of_mem d (ih hc List.mem_cons_self)
        · exact List.mem_cons_of_mem d (ih hc (List.mem_cons_of_mem p h))

/-- The first part of a text begins as the text, unless it is empty. -/
theorem head?_splitSepChars {sep c : Char} {part cs : List Char} {parts : List (List Char)}
    (h : splitSepChars sep cs = part :: parts) (hc : part.head? = some c) : cs.head? = some c := by
  cases cs with
  | nil =>
      rw [splitSepChars, List.cons.injEq] at h
      rw [← h.1] at hc
      cases hc
  | cons d ds =>
      rw [splitSepChars] at h
      split_ifs at h
      · rw [List.cons.injEq] at h
        rw [← h.1] at hc
        cases hc
      · obtain ⟨p, ps, hps⟩ := List.exists_cons_of_ne_nil (splitSepChars_ne_nil sep ds)
        rw [hps] at h
        obtain ⟨rfl, -⟩ := List.cons.inj h
        exact hc

/-- The parts of a definition are plain. -/
theorem plain_of_mem_splitSep {str part : String} (h : part ∈ splitSep ',' (definitionText str)) :
    Plain part := by
  intro c hc
  constructor
  · rintro rfl
    exact not_mem_of_mem_splitSep h hc
  · rintro rfl
    obtain ⟨cs, hcs, rfl⟩ := List.mem_map.mp h
    rw [String.toList_ofList] at hc
    have hmem := mem_of_mem_splitSepChars hc hcs
    rw [definitionText, String.toList_ofList] at hmem
    have htake := (List.dropWhile_suffix _).subset hmem
    have hne := List.mem_takeWhile_imp htake
    exact absurd hne (by simp)

/-- An option leaves an accepted entry accepted. -/
theorem Accepted.apply {se : Entry} (h : Accepted se) {opt : String} (hopt : Plain opt) :
    Accepted (schemaApplyOneOption se opt) := by
  have hunit : ∀ arg : String, optionArg opt = some arg → Plain arg := by
    intro arg harg c hc
    unfold optionArg at harg
    split_ifs at harg
    rw [Option.some.injEq] at harg
    rw [← harg, afterSep, String.toList_ofList] at hc
    exact hopt c ((List.dropWhile_suffix _).subset (List.mem_of_mem_tail hc))
  unfold schemaApplyOneOption
  generalize optionArg opt = arg at hunit ⊢
  generalize optionLetter opt = letter
  obtain ⟨hne, hhead, hplain, hunits, hwidth⟩ := h
  split
  · exact ⟨hne, hhead, hplain, hunits, hwidth⟩
  · exact ⟨hne, hhead, hplain, hunits, hwidth⟩
  · next arg =>
      refine ⟨hne, hhead, hplain, ?_, hwidth⟩
      intro u hu
      rw [← Option.some.inj hu]
      exact hunit arg rfl
  · next arg => exact ⟨hne, hhead, hplain, hunits, strtoul_lt arg⟩
  · exact ⟨hne, hhead, hplain, hunits, hwidth⟩
  · exact ⟨hne, hhead, hplain, hunits, hwidth⟩

theorem Accepted.parseOptions {se se' : Entry} (h : Accepted se) {opts : List String}
    (hopts : ∀ opt ∈ opts, Plain opt) (hparse : parseOptions se opts = some se') : Accepted se' := by
  induction opts generalizing se with
  | nil => exact Option.some.inj hparse ▸ h
  | cons opt rest ih =>
      have hhead := h.apply (hopts opt List.mem_cons_self)
      cases rest with
      | nil =>
          unfold SchemaEntryParse.parseOptions at hparse
          split_ifs at hparse
          · exact Option.some.inj hparse ▸ h
          · exact Option.some.inj hparse ▸ hhead
      | cons opt' rest =>
          unfold SchemaEntryParse.parseOptions at hparse
          split_ifs at hparse
          exact ih hhead (fun o ho => hopts o (List.mem_cons_of_mem opt ho)) hparse

/-- **What is accepted is well formed.** -/
theorem accepted_of_parse {str : String} {se : Entry} (h : parseSchemaEntry str = some se) : Accepted se := by
  unfold parseSchemaEntry at h
  cases hsplit : splitSep ',' (definitionText str) with
  | nil =>
      rw [hsplit] at h
      cases h
  | cons key opts =>
      rw [hsplit] at h
      dsimp only at h
      split_ifs at h with hkey
      have hplain : ∀ part ∈ key :: opts, Plain part := fun part hpart =>
        plain_of_mem_splitSep (hsplit ▸ hpart)
      refine Accepted.parseOptions ⟨hkey, ?_, hplain key List.mem_cons_self, ?_, Nat.two_pow_pos 32⟩
        (fun opt hopt => hplain opt (List.mem_cons_of_mem key hopt)) h
      rotate_left
      · intro u hu
        cases hu
      intro c hc
      obtain ⟨part, parts, hparts⟩ :=
        List.exists_cons_of_ne_nil (splitSepChars_ne_nil ',' (definitionText str).toList)
      rw [splitSep, hparts, List.map_cons, List.cons.injEq] at hsplit
      have hhead := head?_splitSepChars hparts (c := c) (by rw [← hc, ← hsplit.1, String.toList_ofList])
      rw [definitionText, String.toList_ofList] at hhead
      have hnot := List.head?_dropWhile_not cIsSpace (str.toList.takeWhile (· != Char.ofNat 0))
      rw [hhead] at hnot
      simpa using hnot

/-! ## What is printed -/

def Entry.options (se : Entry) : List String :=
  entryOptions se.kind se.unit se.width se.slow

/-- The pieces are appended as long as they fit. -/
theorem foldl_appendPiece (opts : List String) {front : String} (hfront : front.utf8ByteSize < 96) :
    opts.foldl (fun p opt => appendPiece p ("," ++ opt)) (some front) =
      if (front ++ ledBy ',' opts).utf8ByteSize < 96 then some (front ++ ledBy ',' opts) else none := by
  have hnone : ∀ opts : List String,
      opts.foldl (fun p opt => appendPiece p ("," ++ opt)) none = none := by
    intro opts
    induction opts with
    | nil => rfl
    | cons opt rest ih => exact ih
  induction opts generalizing front with
  | nil =>
      have htext : front ++ ledBy ',' [] = front := String.append_empty
      rw [htext, if_pos hfront]
      rfl
  | cons opt rest ih =>
      have htext : front ++ ledBy ',' (opt :: rest) = front ++ ("," ++ opt) ++ ledBy ',' rest := by
        rw [ledBy, ← String.append_assoc, ← String.append_assoc, ← String.append_assoc]
        rfl
      have hsize := String.utf8ByteSize_append (s := front) (t := "," ++ opt)
      rw [List.foldl_cons, htext]
      by_cases hfits : ("," ++ opt).utf8ByteSize < 96 - front.utf8ByteSize
      · have happend : appendPiece (some front) ("," ++ opt) = some (front ++ ("," ++ opt)) := if_pos hfits
        rw [happend]
        exact ih (by omega)
      · have happend : appendPiece (some front) ("," ++ opt) = none := if_neg hfits
        have htotal := String.utf8ByteSize_append (s := front ++ ("," ++ opt)) (t := ledBy ',' rest)
        rw [happend, hnone, if_neg (by omega)]

/-- **The options are printed, each behind a comma, exactly when they have less than 96 bytes.** -/
theorem suffix_eq (se : Entry) :
    se.suffix = if (ledBy ',' se.options).utf8ByteSize < 96 then some (ledBy ',' se.options) else none := by
  have hkind : (ledBy ',' (kindOptions se.kind)).utf8ByteSize < 96 := by
    cases se.kind <;> decide
  have hoptions : se.options = kindOptions se.kind ++ se.laterOptions := by
    unfold Entry.options entryOptions Entry.laterOptions
    rw [List.append_assoc, List.append_assoc, List.append_assoc]
  unfold Entry.suffix
  rw [foldl_appendPiece _ hkind, hoptions, ledBy_append]

theorem print_eq {se : Entry} {text : String} (h : se.print = some text) :
    text = se.key ++ ledBy ',' se.options := by
  unfold Entry.print at h
  rw [suffix_eq] at h
  split_ifs at h
  · exact (Option.some.inj h).symm
  · cases h

/-! ## Reading back what was printed -/

theorem plain_of_all {s : String} (h : (s.toList.all fun c => c != ',' && c != Char.ofNat 0) = true) :
    Plain s := by
  intro c hc
  simpa using List.all_eq_true.mp h c hc

/-- An option with an argument. -/
theorem plain_append {lead arg : String} (hne : lead ≠ "") (hlead : Plain lead) (harg : Plain arg) :
    lead ++ arg ≠ "" ∧ Plain (lead ++ arg) := by
  constructor
  · intro h
    have htext := congrArg String.toList h
    rw [String.toList_append] at htext
    exact hne (String.toList_injective (List.append_eq_nil_iff.mp htext).1)
  · intro c hc
    rw [String.toList_append] at hc
    rcases List.mem_append.mp hc with hc | hc
    · exact hlead c hc
    · exact harg c hc

theorem plain_toString (n : ℕ) : Plain (toString n) := by
  intro c hc
  have hdigit := isDigit_of_mem_toString hc
  constructor
  · rintro rfl
    exact absurd hdigit (by decide)
  · rintro rfl
    exact absurd hdigit (by decide)

/-- The options of an accepted entry are plain and not empty. -/
theorem Accepted.options_plain {se : Entry} (h : Accepted se) {opt : String} (hopt : opt ∈ se.options) :
    opt ≠ "" ∧ Plain opt := by
  unfold Entry.options entryOptions at hopt
  rw [List.mem_append, List.mem_append, List.mem_append] at hopt
  rcases hopt with ((hopt | hopt) | hopt) | hopt
  · cases hkind : se.kind with
    | plain =>
        rw [hkind] at hopt
        cases hopt
    | control =>
        rw [hkind] at hopt
        rw [List.mem_singleton.mp hopt]
        exact ⟨by decide, plain_of_all (by decide)⟩
    | event =>
        rw [hkind] at hopt
        rw [List.mem_singleton.mp hopt]
        exact ⟨by decide, plain_of_all (by decide)⟩
  · obtain ⟨u, hu, rfl⟩ := List.mem_map.mp hopt
    exact plain_append (by decide) (plain_of_all (by decide)) (h.unit_plain u (Option.mem_toList.mp hu))
  · split_ifs at hopt
    · rw [List.mem_singleton.mp hopt]
      exact plain_append (by decide) (plain_of_all (by decide)) (plain_toString se.width)
    · cases hopt
  · split_ifs at hopt
    · rw [List.mem_singleton.mp hopt]
      exact ⟨by decide, plain_of_all (by decide)⟩
    · cases hopt

/-- Options that are not empty are applied one after another. -/
theorem parseOptions_eq {opts : List String} (hopts : ∀ opt ∈ opts, opt ≠ "") (se : Entry) :
    parseOptions se opts = some (opts.foldl schemaApplyOneOption se) := by
  induction opts generalizing se with
  | nil => rfl
  | cons opt rest ih =>
      have hne := hopts opt List.mem_cons_self
      cases rest with
      | nil => exact if_neg hne
      | cons opt' rest =>
          rw [List.foldl_cons, ← ih (fun o ho => hopts o (List.mem_cons_of_mem opt ho))]
          exact if_neg hne

theorem optionArg_eq {opt arg : String} {c : Char} (h : opt.toList = c :: '=' :: arg.toList) (hc : c ≠ '=') :
    optionArg opt = some arg := by
  unfold optionArg afterSep
  have hmem : '=' ∈ c :: '=' :: arg.toList := List.mem_cons_of_mem c List.mem_cons_self
  rw [h, if_pos hmem, List.dropWhile_cons_of_pos (by simpa using hc), List.dropWhile_cons_of_neg (by simp),
    List.tail_cons, String.ofList_toList]

theorem optionLetter_eq {opt arg : String} {c : Char} (h : opt.toList = c :: '=' :: arg.toList)
    (hc : c ≠ '=') : optionLetter opt = some c.toUpper := by
  unfold optionLetter beforeSep
  rw [h, List.takeWhile_cons_of_pos (by simpa using hc), String.toList_ofList]
  rfl

/-- The first digit of a number that is not zero is not zero. -/
theorem head?_toDigits {n : ℕ} (hn : 0 < n) : (Nat.toDigits 10 n).head? ≠ some '0' := by
  have hdigit : ∀ m < 10, 0 < m → m.digitChar ≠ '0' := by decide
  induction n using Nat.strongRecOn with
  | _ n ih =>
      by_cases hlt : n < 10
      · rw [Nat.toDigits_of_lt_base hlt, List.head?_cons]
        intro heq
        exact hdigit n hlt hn (Option.some.inj heq)
      · have hdiv : 0 < n / 10 := by omega
        have hhead := ih (n / 10) (by omega) hdiv
        obtain ⟨d, ds, hds⟩ := List.exists_cons_of_ne_nil (Nat.toDigits_ne_nil (n := n / 10) (b := 10))
        rw [Nat.toDigits_of_base_le (by decide) (Nat.le_of_not_lt hlt), hds]
        rw [hds] at hhead
        exact hhead

theorem digitValue_of_isDigit {c : Char} (hc : c.isDigit = true) : digitValue c = c.toNat - 48 :=
  if_pos hc

theorem strtoulDigits_eq {cs : List Char} (h : ∀ c ∈ cs, c.isDigit = true) :
    strtoulDigits 10 cs = Nat.ofDigitChars 10 cs 0 := by
  have hall : ∀ c ∈ cs, (decide (digitValue c < 10)) = true := by
    intro c hc
    have hbounds := toNat_of_isDigit (h c hc)
    rw [digitValue_of_isDigit (h c hc), decide_eq_true_eq]
    omega
  have hfold : ∀ (cs : List Char), (∀ c ∈ cs, c.isDigit = true) → ∀ n : ℕ,
      cs.foldl (fun n c => n * 10 + digitValue c) n = Nat.ofDigitChars 10 cs n := by
    intro cs
    induction cs with
    | nil => exact fun _ _ => rfl
    | cons c cs ih =>
        intro hcs n
        rw [List.foldl_cons, ih (fun d hd => hcs d (List.mem_cons_of_mem c hd)), Nat.ofDigitChars_cons,
          digitValue_of_isDigit (hcs c List.mem_cons_self), Nat.mul_comm n 10]
        rfl
  unfold strtoulDigits
  rw [List.takeWhile_eq_self_iff.mpr hall, hfold cs h 0]

/-- **A printed width is read back.** -/
theorem strtoul_toString {n : ℕ} (hn : 0 < n) (hlt : n < 2 ^ 32) : strtoul (toString n) = n := by
  have hdigit : ∀ c ∈ (toString n).toList, c.isDigit = true := fun c hc => isDigit_of_mem_toString hc
  have hvalue := ofDigitChars_toString n
  obtain ⟨d, ds, hds⟩ := List.exists_cons_of_ne_nil (toString_ne_nil n)
  have hfirst : d ≠ '0' := by
    rintro rfl
    have hhead := head?_toDigits hn
    rw [Nat.toString_eq_ofList_toDigits, String.toList_ofList] at hds
    rw [hds] at hhead
    exact hhead rfl
  rw [hds] at hdigit hvalue
  have hd : d.isDigit = true := hdigit d List.mem_cons_self
  have hspace : cIsSpace d = false := by
    have hbounds := toNat_of_isDigit hd
    have hne : (d == ' ') = false := by
      rw [beq_eq_false_iff_ne]
      rintro rfl
      exact absurd hd (by decide)
    unfold cIsSpace
    rw [hne, Bool.false_or, Bool.and_eq_false_iff, decide_eq_false_iff_not, decide_eq_false_iff_not]
    omega
  have hbase : strtoulBase (d :: ds) = (10, d :: ds) := by
    rw [strtoulBase.eq_def]
    split
    · next heq => exact absurd (List.cons.inj heq).1 hfirst
    · next heq => exact absurd (List.cons.inj heq).1 hfirst
    · rfl
  have hsign : (match d :: ds with
      | '-' :: cs => (true, cs)
      | '+' :: cs => (false, cs)
      | cs => (false, cs)) = (false, d :: ds) := by
    split
    · next heq =>
        rw [(List.cons.inj heq).1] at hd
        exact absurd hd (by decide)
    · next heq =>
        rw [(List.cons.inj heq).1] at hd
        exact absurd hd (by decide)
    · rfl
  unfold strtoul
  rw [hds, List.dropWhile_cons_of_neg (by rw [hspace]; exact Bool.false_ne_true)]
  dsimp only
  rw [hsign]
  dsimp only
  rw [hbase]
  dsimp only
  rw [strtoulDigits_eq hdigit, hvalue, if_neg (by omega), if_neg Bool.false_ne_true]
  exact Nat.mod_eq_of_lt hlt

theorem apply_unit (se : Entry) (u : String) :
    schemaApplyOneOption se ("U=" ++ u) = { se with unit := some u } := by
  have h : ("U=" ++ u).toList = 'U' :: '=' :: u.toList := String.toList_append
  unfold schemaApplyOneOption
  rw [optionLetter_eq h (by decide), optionArg_eq h (by decide)]
  rfl

theorem apply_width (se : Entry) {n : ℕ} (hn : 0 < n) (hlt : n < 2 ^ 32) :
    schemaApplyOneOption se ("W=" ++ toString n) = { se with width := n } := by
  have h : ("W=" ++ toString n).toList = 'W' :: '=' :: (toString n).toList := String.toList_append
  unfold schemaApplyOneOption
  rw [optionLetter_eq h (by decide), optionArg_eq h (by decide)]
  show { se with width := strtoul (toString n) } = _
  rw [strtoul_toString hn hlt]

/-- The options of an entry make it up again. -/
theorem foldl_options {se : Entry} (h : Accepted se) :
    se.options.foldl schemaApplyOneOption ⟨se.key, .plain, none, 0, false⟩ = se := by
  obtain ⟨key, kind, unit, width, slow⟩ := se
  have hkind : (kindOptions kind).foldl schemaApplyOneOption ⟨key, .plain, none, 0, false⟩ =
      ⟨key, kind, none, 0, false⟩ := by
    cases kind with
    | plain => rfl
    | control => rfl
    | event => rfl
  have hunit : (unit.toList.map ("U=" ++ ·)).foldl schemaApplyOneOption ⟨key, kind, none, 0, false⟩ =
      ⟨key, kind, unit, 0, false⟩ := by
    cases unit with
    | none => rfl
    | some u =>
        rw [Option.toList_some, List.map_singleton, List.foldl_cons, List.foldl_nil, apply_unit]
  have hwidth : (if width ≠ 0 then ["W=" ++ toString width] else []).foldl schemaApplyOneOption
      ⟨key, kind, unit, 0, false⟩ = ⟨key, kind, unit, width, false⟩ := by
    by_cases hw : width = 0
    · rw [if_neg (not_not.mpr hw), hw, List.foldl_nil]
    · rw [if_pos hw, List.foldl_cons, List.foldl_nil, apply_width _ (Nat.pos_of_ne_zero hw) h.width_lt]
  have hslow : (if slow = true then ["R=S"] else []).foldl schemaApplyOneOption
      ⟨key, kind, unit, width, false⟩ = ⟨key, kind, unit, width, slow⟩ := by
    cases slow with
    | false => rfl
    | true => rfl
  unfold Entry.options entryOptions
  rw [List.foldl_append, List.foldl_append, List.foldl_append, hkind, hunit, hwidth, hslow]

/-- The parts of a printed entry. -/
theorem splitSep_print {se : Entry} (h : Accepted se) :
    splitSep ',' (se.key ++ ledBy ',' se.options) = se.key :: se.options := by
  apply splitSep_append_ledBy
  · exact fun hc => (h.key_plain ',' hc).1 rfl
  · exact fun opt hopt hc => ((h.options_plain hopt).2 ',' hc).1 rfl

/-- A printed entry is its own definition text. -/
theorem definitionText_print {se : Entry} (h : Accepted se) :
    definitionText (se.key ++ ledBy ',' se.options) = se.key ++ ledBy ',' se.options := by
  have hled : ∀ opts : List String, (∀ opt ∈ opts, Plain opt) →
      ∀ c ∈ (ledBy ',' opts).toList, c ≠ Char.ofNat 0 := by
    intro opts
    induction opts with
    | nil =>
        intro _ c hc
        exact absurd hc (by simp [ledBy])
    | cons opt rest ih =>
        intro hopts c hc
        rw [toList_ledBy_cons] at hc
        rcases List.mem_cons.mp hc with rfl | hc
        · decide
        · rcases List.mem_append.mp hc with hc | hc
          · exact (hopts opt List.mem_cons_self c hc).2
          · exact ih (fun o ho => hopts o (List.mem_cons_of_mem opt ho)) c hc
  have hchars : ∀ c ∈ (se.key ++ ledBy ',' se.options).toList, (c != Char.ofNat 0) = true := by
    intro c hc
    rw [bne_iff_ne]
    rw [String.toList_append] at hc
    rcases List.mem_append.mp hc with hc | hc
    · exact (h.key_plain c hc).2
    · exact hled se.options (fun opt hopt => (h.options_plain hopt).2) c hc
  obtain ⟨d, ds, hds⟩ := List.exists_cons_of_ne_nil
    (fun heq => h.key_ne (String.toList_injective heq) : se.key.toList ≠ [])
  have hd : cIsSpace d = false := h.key_head d (by rw [hds]; rfl)
  unfold definitionText
  rw [List.takeWhile_eq_self_iff.mpr hchars, String.toList_append, hds, List.cons_append,
    List.dropWhile_cons_of_neg (by rw [hd]; exact Bool.false_ne_true), ← List.cons_append, ← hds,
    ← String.toList_append, String.ofList_toList]

/-- **The monitor reads back what it prints.** -/
theorem parse_print {se : Entry} (h : Accepted se) {text : String} (hprint : se.print = some text) :
    parseSchemaEntry text = some se := by
  unfold parseSchemaEntry
  rw [print_eq hprint, definitionText_print h, splitSep_print h]
  show (if se.key = "" then none else parseOptions ⟨se.key, .plain, none, 0, false⟩ se.options) = some se
  rw [if_neg h.key_ne, parseOptions_eq (fun opt hopt => (h.options_plain hopt).1), foldl_options h]

/-! ## What the loader reads -/

/-- The loader reads the tier. -/
theorem slowTier_print {se : Entry} (h : Accepted se) {text : String} (hprint : se.print = some text) :
    schemaTokenIsSlowTier text = se.slow := by
  unfold schemaTokenIsSlowTier
  rw [print_eq hprint, splitSep_print h, List.tail_cons]
  exact MonitorRoundTrip.contains_slow se.kind se.unit se.width se.slow

/-- The digits of a unit, as a number. -/
theorem pyFloat_digits (u : String) :
    (pyFloat (filterChars Char.isDigit u) = none ∧ unitMult (some u) = 1) ∨
      pyFloat (filterChars Char.isDigit u) = some (.fin (unitMult (some u))) := by
  have hdigit : ∀ c ∈ (filterChars Char.isDigit u).toList, c.isDigit = true := by
    intro c hc
    rw [filterChars, String.toList_ofList] at hc
    exact (List.mem_filter.mp hc).2
  have hmult : unitMult (some u) = match (filterChars Char.isDigit u).toList with
    | [] => (1 : ℚ)
    | ds => (Nat.ofDigitChars 10 ds 0 : ℚ) := rfl
  rw [hmult]
  generalize filterChars Char.isDigit u = digits at hdigit ⊢
  cases hds : digits.toList with
  | nil =>
      left
      obtain rfl : digits = "" := String.toList_injective hds
      exact ⟨by decide, rfl⟩
  | cons d ds =>
      right
      have hne : digits.toList ≠ [] := by
        rw [hds]
        exact List.cons_ne_nil d ds
      rw [pyFloat_of_digits hne hdigit, hds]

/-- A unit is read as its digits and letters. -/
theorem applyOption_unit {u : String} (h : UnitRead (some u)) (event : String) :
    applyOption ⟨event, 64, 1, "#"⟩ ("U=" ++ u) = .ok ⟨event, 64, unitMult (some u), unitName (some u)⟩ := by
  obtain ⟨hwidth, hU, heq⟩ := h u rfl
  have hw : contains "W=" ("U=" ++ u) = false := by
    rw [MonitorRoundTrip.contains_width_unit, hwidth]
  have hu : contains "U=" ("U=" ++ u) = true := by
    unfold contains
    rw [String.toList_append]
    show containsChars ['U', '='] ('U' :: '=' :: u.toList) = true
    rw [containsChars]
    rfl
  have hstrip : lstripChars ['U', '='] ("U=" ++ u) = u := by
    have hhead : u.toList.dropWhile (fun c => ['U', '='].contains c) = u.toList := by
      cases hchars : u.toList with
      | nil => rfl
      | cons c cs =>
          rw [hchars] at hU heq
          have hc : ['U', '='].contains c = false := by
            rw [Bool.eq_false_iff]
            intro hmem
            rcases List.mem_cons.mp (List.contains_iff_mem.mp hmem) with rfl | hmem
            · exact hU rfl
            · rw [List.mem_singleton.mp hmem] at heq
              exact heq rfl
          rw [List.dropWhile_cons_of_neg (by rw [hc]; exact Bool.false_ne_true)]
    apply String.toList_injective
    unfold lstripChars
    rw [String.toList_ofList, String.toList_append]
    show ('U' :: '=' :: u.toList).dropWhile _ = _
    rw [List.dropWhile_cons_of_pos (by decide), List.dropWhile_cons_of_pos (by decide), hhead]
  unfold applyOption
  rw [hw, hu, hstrip]
  simp only [Bool.false_eq_true, if_false, if_true]
  rcases pyFloat_digits u with ⟨hnone, hone⟩ | hsome
  · simp only [hnone, hone]
    rfl
  · simp only [hsome]
    rfl

/-- **The loader reads the key, the width, the multiplier and the unit.** -/
theorem compile_print {se : Entry} (h : Accepted se) (hunit : UnitRead se.unit) {text : String}
    (hprint : se.print = some text) : compileSchemaToken text = .ok se.column := by
  obtain ⟨key, kind, unit, width, slow⟩ := se
  have hkind : (kindOptions kind).foldlM applyOption ⟨key, 64, 1, "#"⟩ = .ok ⟨key, 64, 1, "#"⟩ := by
    cases kind with
    | plain => rfl
    | control => rfl
    | event => rfl
  have hunits : (unit.toList.map ("U=" ++ ·)).foldlM applyOption ⟨key, 64, 1, "#"⟩ =
      .ok ⟨key, 64, unitMult unit, unitName unit⟩ := by
    cases unit with
    | none => rfl
    | some u =>
        rw [Option.toList_some, List.map_singleton, List.foldlM_cons, applyOption_unit hunit]
        rfl
  have hwidth : (if width ≠ 0 then ["W=" ++ toString width] else []).foldlM applyOption
      ⟨key, 64, unitMult unit, unitName unit⟩ =
      .ok ⟨key, if width = 0 then 64 else width, unitMult unit, unitName unit⟩ := by
    by_cases hw : width = 0
    · rw [if_neg (not_not.mpr hw), if_pos hw]
      rfl
    · rw [if_pos hw, if_neg hw, List.foldlM_cons, MonitorRoundTrip.applyOption_width]
      rfl
  have hslow : ∀ col : SchemaColumn, (if slow = true then ["R=S"] else []).foldlM applyOption col =
      .ok col := by
    intro col
    cases slow with
    | false => rfl
    | true =>
        rw [if_pos rfl, List.foldlM_cons, MonitorRoundTrip.applyOption_plain (by decide) (by decide)]
        rfl
  unfold compileSchemaToken
  rw [print_eq hprint, splitSep_print h]
  show (entryOptions kind unit width slow).foldlM applyOption ⟨key, 64, 1, "#"⟩ = _
  unfold entryOptions
  rw [List.foldlM_append, List.foldlM_append, List.foldlM_append, hkind]
  show (((unit.toList.map ("U=" ++ ·)).foldlM applyOption ⟨key, 64, 1, "#"⟩ >>= fun col =>
    (if width ≠ 0 then ["W=" ++ toString width] else []).foldlM applyOption col) >>= fun col =>
    (if slow = true then ["R=S"] else []).foldlM applyOption col) = _
  rw [hunits]
  show ((if width ≠ 0 then ["W=" ++ toString width] else []).foldlM applyOption
    ⟨key, 64, unitMult unit, unitName unit⟩ >>= fun col =>
    (if slow = true then ["R=S"] else []).foldlM applyOption col) = _
  rw [hwidth]
  exact hslow _

/-- **A printed entry is read as it was defined**: by the monitor as a whole, by the loader with its key, its
width, the multiplier and the letters of its unit, and its tier. -/
theorem printed_entry_read {str : String} {se : Entry} (h : parseSchemaEntry str = some se)
    (hfits : (ledBy ',' se.options).utf8ByteSize < 96) :
    ∃ text, se.print = some text ∧ parseSchemaEntry text = some se ∧
      (UnitRead se.unit → compileSchemaToken text = .ok se.column) ∧
      ∀ events, text ∈ fastSchemaKeys events ↔ text ∈ events ∧ se.keyEmitted .fast = true := by
  have haccepted := accepted_of_parse h
  have hprint : se.print = some (se.key ++ ledBy ',' se.options) := by
    unfold Entry.print
    rw [suffix_eq, if_pos hfits]
    rfl
  refine ⟨_, hprint, parse_print haccepted hprint, fun hunit => compile_print haccepted hunit hprint, ?_⟩
  intro events
  unfold fastSchemaKeys
  rw [List.mem_filter, slowTier_print haccepted hprint]
  exact Iff.rfl

theorem printed_entry_read_rxBytes :
    ∃ text, parseSchemaEntry text = some ⟨"rx_bytes", .event, some "512B", 48, true⟩ ∧
      compileSchemaToken text = .ok ⟨"rx_bytes", 48, 512, "B"⟩ := by
  have hparse : parseSchemaEntry " rx_bytes,E,R=S,W=0x30,U=512B" =
      some ⟨"rx_bytes", .event, some "512B", 48, true⟩ := by
    decide +kernel
  obtain ⟨text, -, hback, hcompile, -⟩ := printed_entry_read hparse (by decide +kernel)
  refine ⟨text, hback, ?_⟩
  rw [hcompile (by
    intro u hu
    rw [← Option.some.inj hu]
    decide +kernel)]
  decide +kernel

/-- The loader does not read the kind of an entry; a unit that is too long is not printed; and a unit that
begins with `U` loses it. -/
theorem not_all_read :
    (¬ ∃ kindOf : SchemaColumn → EntryKind, ∀ str se text col, parseSchemaEntry str = some se →
      se.print = some text → compileSchemaToken text = .ok col → kindOf col = se.kind) ∧
    (¬ ∀ str se, parseSchemaEntry str = some se → ∃ text, se.print = some text) ∧
    ¬ ∀ str se text col, parseSchemaEntry str = some se → se.print = some text →
      compileSchemaToken text = .ok col → col.unit = unitName se.unit := by
  refine ⟨?_, ?_, ?_⟩
  · rintro ⟨kindOf, h⟩
    have hevent := h "user,E" ⟨"user", .event, none, 0, false⟩ "user,E" ⟨"user", 64, 1, "#"⟩
      (by decide +kernel) (by decide +kernel) (by decide +kernel)
    have hcontrol := h "user,C" ⟨"user", .control, none, 0, false⟩ "user,C" ⟨"user", 64, 1, "#"⟩
      (by decide +kernel) (by decide +kernel) (by decide +kernel)
    rw [hevent] at hcontrol
    cases hcontrol
  · intro h
    obtain ⟨text, htext⟩ := h ("k,U=" ++ String.ofList (List.replicate 93 'B'))
      ⟨"k", .plain, some (String.ofList (List.replicate 93 'B')), 0, false⟩ (by decide +kernel)
    unfold Entry.print at htext
    rw [suffix_eq, if_neg (by decide +kernel)] at htext
    cases htext
  · intro h
    have hunit := h "cost,U=USD" ⟨"cost", .plain, some "USD", 0, false⟩ "cost,U=USD" ⟨"cost", 64, 1, "SD"⟩
      (by decide +kernel) (by decide +kernel) (by decide +kernel)
    revert hunit
    decide +kernel

end SchemaEntryParse
