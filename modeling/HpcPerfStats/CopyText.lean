/-
# Rows as COPY text

The text format of `COPY ... FROM STDIN`: a line for each row, a tab between the columns, `\N` for NULL and
a backslash in front of what would end a column or a line.  `copyText` writes rows as both serializers of the
repository do, `readCopy` reads them as the database does, and `readCopy_copyText` is the round trip.
-/
import HpcPerfStats.TokenText

namespace CopyText

open PyText TokenText

/-! ## Writing -/

/-- `cs.replace(c, w)`, for one character. -/
def replaceChar (c : Char) (w cs : List Char) : List Char :=
  cs.flatMap fun x => if x = c then w else [x]

/-- `_sql_literal`, of a value that was turned to a text or is `None`. -/
def sqlLiteral : Option String → String
  | none => "\\N"
  | some text => String.ofList (replaceChar '\r' ['\\', 'r'] (replaceChar '\n' ['\\', 'n']
      (replaceChar '\t' ['\\', 't'] (replaceChar '\\' ['\\', '\\'] text.toList))))

/-- `"\t".join(fields)`. -/
def copyLine (fields : List (Option String)) : String :=
  match fields.map sqlLiteral with
  | [] => ""
  | f :: fs => f ++ ledBy '\t' fs

/-- `"\n".join(lines) + "\n"`, and no text for no rows. -/
def copyText (rows : List (List (Option String))) : String := unlines (rows.map copyLine)

/-! ## Reading -/

/-- Behind a backslash; octal and hexadecimal codes, which no serializer writes, are not read. -/
def unescapeChar (c : Char) : Option Char :=
  if c = 'b' then some '\x08'
  else if c = 'f' then some '\x0c'
  else if c = 'n' then some '\n'
  else if c = 'r' then some '\r'
  else if c = 't' then some '\t'
  else if c = 'v' then some '\x0b'
  else if c.isDigit ∨ c = 'x' then none
  else some c

def unescape : List Char → Option (List Char)
  | [] => some []
  | '\\' :: c :: cs => (unescapeChar c).bind fun u => (unescape cs).map fun us => u :: us
  | ['\\'] => none
  | c :: cs => (unescape cs).map fun us => c :: us

/-- One column; NULL is looked for before anything else. -/
def readField (field : String) : Option (Option String) :=
  if field = "\\N" then some none else (unescape field.toList).map fun cs => some (String.ofList cs)

def readLine (line : String) : Option (List (Option String)) := (splitSep '\t' line).mapM readField

/-- The rows of a text; every line ends with a newline. -/
def readCopy (text : String) : Option (List (List (Option String))) :=
  (splitSep '\n' text).dropLast.mapM readLine

/-! ## The round trip -/

/-- The four replacements as one. -/
def escapeChar (c : Char) : List Char :=
  if c = '\\' then ['\\', '\\']
  else if c = '\t' then ['\\', 't']
  else if c = '\n' then ['\\', 'n']
  else if c = '\r' then ['\\', 'r']
  else [c]

theorem replaceChar_flatMap (c : Char) (w : List Char) (f : Char → List Char) (cs : List Char) :
    replaceChar c w (cs.flatMap f) = cs.flatMap fun x => replaceChar c w (f x) := by
  unfold replaceChar
  rw [List.flatMap_assoc]

theorem toList_sqlLiteral (text : String) : (sqlLiteral (some text)).toList = text.toList.flatMap escapeChar := by
  unfold sqlLiteral
  rw [String.toList_ofList]
  show replaceChar '\r' ['\\', 'r'] (replaceChar '\n' ['\\', 'n'] (replaceChar '\t' ['\\', 't']
    (text.toList.flatMap fun x => if x = '\\' then ['\\', '\\'] else [x]))) = _
  rw [replaceChar_flatMap, replaceChar_flatMap, replaceChar_flatMap]
  -- character by character: what one replacement has written the next ones leave alone
  congr 1
  funext c
  unfold escapeChar
  by_cases hback : c = '\\'
  · rw [if_pos hback, if_pos hback]
    decide
  · rw [if_neg hback, if_neg hback]
    by_cases htab : c = '\t'
    · rw [if_pos htab, htab]
      decide
    · rw [if_neg htab]
      by_cases hline : c = '\n'
      · rw [if_pos hline, hline]
        decide
      · rw [if_neg hline]
        by_cases hret : c = '\r'
        · rw [if_pos hret, hret]
          decide
        · rw [if_neg hret]
          simp [replaceChar, htab, hline, hret]

/-- A written column holds no tab and no newline. -/
theorem notMem_escapeChar (c : Char) : '\t' ∉ escapeChar c ∧ '\n' ∉ escapeChar c := by
  unfold escapeChar
  split_ifs with hback htab hline hret
  · decide
  · decide
  · decide
  · decide
  · simp only [List.mem_singleton]
    exact ⟨fun h => htab h.symm, fun h => hline h.symm⟩

theorem notMem_sqlLiteral (field : Option String) :
    '\t' ∉ (sqlLiteral field).toList ∧ '\n' ∉ (sqlLiteral field).toList := by
  cases field with
  | none => decide
  | some text =>
      rw [toList_sqlLiteral]
      constructor
      · intro h
        obtain ⟨c, -, hc⟩ := List.mem_flatMap.mp h
        exact (notMem_escapeChar c).1 hc
      · intro h
        obtain ⟨c, -, hc⟩ := List.mem_flatMap.mp h
        exact (notMem_escapeChar c).2 hc

theorem unescape_escapeChar (c : Char) (cs : List Char) :
    unescape (escapeChar c ++ cs) = (unescape cs).map fun us => c :: us := by
  unfold escapeChar
  split_ifs with hback htab hline hret
  · rw [hback]
    rfl
  · rw [htab]
    rfl
  · rw [hline]
    rfl
  · rw [hret]
    rfl
  · rw [List.singleton_append]
    exact unescape.eq_4 c cs (fun _ _ h _ => hback h) (fun h _ => hback h)

theorem unescape_flatMap (cs : List Char) : unescape (cs.flatMap escapeChar) = some cs := by
  induction cs with
  | nil => rfl
  | cons c cs ih => rw [List.flatMap_cons, unescape_escapeChar, ih, Option.map_some]

/-- A written text is not the mark of NULL: its backslashes come in pairs. -/
theorem sqlLiteral_ne_null (text : String) : sqlLiteral (some text) ≠ "\\N" := by
  intro h
  have hlist := congrArg String.toList h
  rw [toList_sqlLiteral] at hlist
  have hread := unescape_flatMap text.toList
  rw [hlist] at hread
  -- read back, the mark would be the text `N`, which is written otherwise
  have htext : text.toList = ['N'] := (Option.some.inj hread).symm
  rw [htext] at hlist
  revert hlist
  decide

theorem readField_sqlLiteral (field : Option String) : readField (sqlLiteral field) = some field := by
  unfold readField
  cases field with
  | none => rfl
  | some text =>
      rw [if_neg (sqlLiteral_ne_null text), toList_sqlLiteral, unescape_flatMap, Option.map_some,
        String.ofList_toList]

theorem mapM_map_read {α β : Type} {write : α → β} {read : β → Option α} (l : List α)
    (h : ∀ a ∈ l, read (write a) = some a) : (l.map write).mapM read = some l := by
  induction l with
  | nil => rfl
  | cons a l ih =>
      rw [List.map_cons, List.mapM_cons, h a List.mem_cons_self, ih fun b hb => h b (List.mem_cons_of_mem a hb)]
      rfl

theorem readLine_copyLine {fields : List (Option String)} (h : fields ≠ []) :
    readLine (copyLine fields) = some fields := by
  obtain ⟨f, fs, rfl⟩ := List.exists_cons_of_ne_nil h
  unfold readLine copyLine
  show (splitSep '\t' (sqlLiteral f ++ ledBy '\t' (fs.map sqlLiteral))).mapM readField = _
  rw [splitSep_append_ledBy (notMem_sqlLiteral f).1]
  · exact mapM_map_read (f :: fs) fun a _ => readField_sqlLiteral a
  · intro u hu
    obtain ⟨a, -, rfl⟩ := List.mem_map.mp hu
    exact (notMem_sqlLiteral a).1

theorem newline_notMem_copyLine (fields : List (Option String)) : '\n' ∉ (copyLine fields).toList := by
  have hled : ∀ fs : List (Option String), '\n' ∉ (ledBy '\t' (fs.map sqlLiteral)).toList := by
    intro fs
    induction fs with
    | nil => simp [ledBy]
    | cons f fs ih =>
        rw [List.map_cons, toList_ledBy_cons, List.mem_cons, List.mem_append]
        rintro (h | h | h)
        · exact absurd h (by decide)
        · exact (notMem_sqlLiteral f).2 h
        · exact ih h
  cases fields with
  | nil => simp [copyLine]
  | cons f fs =>
      show '\n' ∉ (sqlLiteral f ++ ledBy '\t' (fs.map sqlLiteral)).toList
      rw [String.toList_append, List.mem_append]
      rintro (h | h)
      · exact (notMem_sqlLiteral f).2 h
      · exact hled fs h

/-- **What is written is read**, column by column. -/
theorem readCopy_copyText {rows : List (List (Option String))} (h : ∀ row ∈ rows, row ≠ []) :
    readCopy (copyText rows) = some rows := by
  unfold readCopy copyText
  rw [splitSep_unlines]
  · rw [List.dropLast_concat]
    exact mapM_map_read rows fun row hrow => readLine_copyLine (h row hrow)
  · intro l hl
    obtain ⟨row, -, rfl⟩ := List.mem_map.mp hl
    exact newline_notMem_copyLine row

end CopyText
