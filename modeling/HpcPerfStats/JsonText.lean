/-
# JSON texts

Values as `json.dumps(value, separators=(",", ":"), ensure_ascii=False)` writes them and as
`json.loads` reads them: `None`, booleans, unbounded integers, floats, texts, lists and
dictionaries with texts as keys.

* `dumps` writes no blank; only `"`, `\` and control characters are escaped
* `loads` takes blanks between tokens, all escapes, and the words `NaN` and `Infinity`
* what a finite float's text looks like is the parameter `FloatText`

`scanValue_dump` reads a written value in front of any text that does not continue a number,
one case for each kind of value, and `loads_dumps` is the round trip: a value whose
dictionaries hold no key twice comes back as it was.
-/
import HpcPerfStats.PyDict
import HpcPerfStats.TokenText

namespace JsonText

open PyText TokenText

/-! ## Number tokens -/

/-- The groups of a number: `-?(0|[1-9][0-9]*)`, `(\.[0-9]+)?` and `([eE][-+]?[0-9]+)?`. -/
structure NumberToken where
  whole : List Char
  frac : List Char
  exp : List Char
  deriving DecidableEq

def NumberToken.text (t : NumberToken) : List Char :=
  t.whole ++ t.frac ++ t.exp

/-- A fraction or an exponent makes a float. -/
def NumberToken.isFloat (t : NumberToken) : Bool :=
  !t.frac.isEmpty || !t.exp.isEmpty

/-- `0|[1-9][0-9]*` and the text behind it. -/
def scanNatural (cs : List Char) : Option (List Char × List Char) :=
  match cs.takeWhile Char.isDigit with
  | [] => none
  | '0' :: _ => some (['0'], cs.tail)
  | ds => some (ds, cs.dropWhile Char.isDigit)

def scanWhole (cs : List Char) : Option (List Char × List Char) :=
  if cs.head? = some '-' then (scanNatural cs.tail).map fun p => ('-' :: p.1, p.2)
  else scanNatural cs

def scanFrac (cs : List Char) : List Char × List Char :=
  if cs.head? = some '.' ∧ cs.tail.takeWhile Char.isDigit ≠ [] then
    ('.' :: cs.tail.takeWhile Char.isDigit, cs.tail.dropWhile Char.isDigit)
  else ([], cs)

/-- An optional sign. -/
def scanSign (cs : List Char) : List Char × List Char :=
  if cs.head? = some '+' ∨ cs.head? = some '-' then (cs.take 1, cs.tail) else ([], cs)

def scanExp (cs : List Char) : List Char × List Char :=
  let signed := scanSign cs.tail
  if (cs.head? = some 'e' ∨ cs.head? = some 'E') ∧ signed.2.takeWhile Char.isDigit ≠ [] then
    (cs.take 1 ++ signed.1 ++ signed.2.takeWhile Char.isDigit, signed.2.dropWhile Char.isDigit)
  else ([], cs)

/-- The longest number in front of a text. -/
def scanNumber (cs : List Char) : Option (NumberToken × List Char) :=
  (scanWhole cs).map fun whole =>
    let frac := scanFrac whole.2
    let exp := scanExp frac.2
    (⟨whole.1, frac.1, exp.1⟩, exp.2)

/-! ## Values -/

/-- What the codec uses of finite floats: the text `repr` writes, and what `float` reads. -/
structure FloatText (F : Type) where
  repr : F → List Char
  ofText : List Char → F
  /-- The text of a finite float is a number with a fraction or an exponent. -/
  repr_form : ∀ x, ∃ t : NumberToken, t.isFloat = true ∧ t.text = repr x
    ∧ scanNumber (repr x) = some (t, [])
  /-- `float(repr(x)) == x`. -/
  ofText_repr : ∀ x, ofText (repr x) = x

inductive JsonFloat (F : Type) where
  | fin (x : F)
  | inf (negative : Bool)
  | nan
  deriving DecidableEq

inductive Json (F : Type) where
  | null
  | bool (b : Bool)
  | int (n : ℤ)
  | float (x : JsonFloat F)
  | str (s : String)
  | list (vs : List (Json F))
  | dict (members : List (String × Json F))

variable {F : Type} (fl : FloatText F)

mutual

/-- No dictionary holds a key twice. -/
def Json.KeysDistinct : Json F → Prop
  | .list vs => itemsDistinct vs
  | .dict members => (members.map Prod.fst).Nodup ∧ membersDistinct members
  | _ => True

def itemsDistinct : List (Json F) → Prop
  | [] => True
  | v :: vs => v.KeysDistinct ∧ itemsDistinct vs

def membersDistinct : List (String × Json F) → Prop
  | [] => True
  | (_, v) :: members => v.KeysDistinct ∧ membersDistinct members

end

theorem itemsDistinct_iff {vs : List (Json F)} :
    itemsDistinct vs ↔ ∀ v ∈ vs, v.KeysDistinct := by
  induction vs with
  | nil => simp [itemsDistinct]
  | cons v vs ih => simp [itemsDistinct, ih]

theorem membersDistinct_iff {members : List (String × Json F)} :
    membersDistinct members ↔ ∀ p ∈ members, p.2.KeysDistinct := by
  induction members with
  | nil => simp [membersDistinct]
  | cons p members ih => simp [membersDistinct, ih]

/-! ## Writing -/

def hexDigit (n : ℕ) : Char :=
  ['0', '1', '2', '3', '4', '5', '6', '7', '8', '9', 'a', 'b', 'c', 'd', 'e', 'f'].getD n '0'

/-- `ESCAPE_DCT`: the short escapes, and `\u00XX` for the other control characters. -/
def escapeChar (c : Char) : List Char :=
  if c = '"' then ['\\', '"']
  else if c = '\\' then ['\\', '\\']
  else if c = '\n' then ['\\', 'n']
  else if c = '\r' then ['\\', 'r']
  else if c = '\t' then ['\\', 't']
  else if c = '\x0c' then ['\\', 'f']
  else if c = '\x08' then ['\\', 'b']
  else if c.toNat < 32 then
    ['\\', 'u', '0', '0', hexDigit (c.toNat / 16), hexDigit (c.toNat % 16)]
  else [c]

def dumpString (s : String) : List Char :=
  '"' :: (s.toList.flatMap escapeChar ++ ['"'])

def dumpInt (n : ℤ) : List Char :=
  if n < 0 then '-' :: (toString n.natAbs).toList else (toString n.natAbs).toList

def dumpFloat : JsonFloat F → List Char
  | .fin x => fl.repr x
  | .inf false => "Infinity".toList
  | .inf true => "-Infinity".toList
  | .nan => "NaN".toList

mutual

def dumpValue : Json F → List Char
  | .null => "null".toList
  | .bool true => "true".toList
  | .bool false => "false".toList
  | .int n => dumpInt n
  | .float x => dumpFloat fl x
  | .str s => dumpString s
  | .list vs => '[' :: dumpItems vs
  | .dict members => '{' :: dumpMembers members

/-- The items of a list and the closing bracket. -/
def dumpItems : List (Json F) → List Char
  | [] => [']']
  | v :: vs => dumpValue v ++ (if vs.isEmpty then [']'] else ',' :: dumpItems vs)

/-- The members of a dictionary and the closing brace. -/
def dumpMembers : List (String × Json F) → List Char
  | [] => ['}']
  | (key, v) :: members =>
      dumpString key ++ ':' :: dumpValue v
        ++ (if members.isEmpty then ['}'] else ',' :: dumpMembers members)

end

/-- `json.dumps(v, separators=(",", ":"), ensure_ascii=False)`. -/
def dumps (v : Json F) : String :=
  String.ofList (dumpValue fl v)

/-! ## Reading -/

/-- The blanks between tokens. -/
def isBlank (c : Char) : Bool :=
  c == ' ' || c == '\t' || c == '\n' || c == '\r'

def skipBlanks (cs : List Char) : List Char :=
  cs.dropWhile isBlank

def hexVal (c : Char) : Option ℕ :=
  if c.isDigit then some (c.toNat - 48)
  else if 97 ≤ c.toNat ∧ c.toNat ≤ 102 then some (c.toNat - 87)
  else if 65 ≤ c.toNat ∧ c.toNat ≤ 70 then some (c.toNat - 55)
  else none

/-- Four hexadecimal digits. -/
def scanHex : List Char → Option (ℕ × List Char)
  | a :: b :: c :: d :: cs => do
      some ((((← hexVal a) * 16 + (← hexVal b)) * 16 + (← hexVal c)) * 16 + (← hexVal d), cs)
  | _ => none

/-- The second half of a surrogate pair. -/
def scanLowSurrogate (high : ℕ) : List Char → Option (Char × List Char)
  | '\\' :: 'u' :: cs => do
      let (low, rest) ← scanHex cs
      if 0xDC00 ≤ low ∧ low ≤ 0xDFFF then
        some (Char.ofNat (0x10000 + (high - 0xD800) * 0x400 + (low - 0xDC00)), rest)
      else none
  | _ => none

/-- `BACKSLASH`. -/
def unescape (c : Char) : Option Char :=
  [('"', '"'), ('\\', '\\'), ('/', '/'), ('b', '\x08'), ('f', '\x0c'), ('n', '\n'), ('r', '\r'),
    ('t', '\t')].lookup c

/-- What follows a backslash.  Half of a surrogate pair alone is no character. -/
def scanEscape : List Char → Option (Char × List Char)
  | [] => none
  | c :: cs =>
      if c = 'u' then do
        let (n, rest) ← scanHex cs
        if 0xD800 ≤ n ∧ n ≤ 0xDBFF then scanLowSurrogate n rest
        else if 0xDC00 ≤ n ∧ n ≤ 0xDFFF then none
        else some (Char.ofNat n, rest)
      else (unescape c).map fun d => (d, cs)

/-- `scanstring`, behind the opening quote. -/
def scanString : ℕ → List Char → Option (List Char × List Char)
  | 0, _ => none
  | _, [] => none
  | fuel + 1, c :: cs =>
      if c = '"' then some ([], cs)
      else if c = '\\' then do
        let (d, rest) ← scanEscape cs
        let (ds, rest) ← scanString fuel rest
        some (d :: ds, rest)
      else if c.toNat < 32 then none
      else do
        let (ds, rest) ← scanString fuel cs
        some (c :: ds, rest)

/-- The words that stand for values. -/
def words : List (List Char × Json F) :=
  [(['n', 'u', 'l', 'l'], .null), (['t', 'r', 'u', 'e'], .bool true),
    (['f', 'a', 'l', 's', 'e'], .bool false), (['N', 'a', 'N'], .float .nan),
    (['I', 'n', 'f', 'i', 'n', 'i', 't', 'y'], .float (.inf false)),
    (['-', 'I', 'n', 'f', 'i', 'n', 'i', 't', 'y'], .float (.inf true))]

/-- A number: an `int`, or a `float` when it has a fraction or an exponent. -/
def numberValue (t : NumberToken) : Option (Json F) :=
  if t.isFloat then some (.float (.fin (fl.ofText t.text)))
  else (pyInt (String.ofList t.whole)).map .int

/-- A number or a word. -/
def scanAtom (cs : List Char) : Option (Json F × List Char) :=
  match scanNumber cs with
  | some (t, rest) => (numberValue fl t).map fun v => (v, rest)
  | none => words.findSome? fun w => (cs.dropPrefix? w.1).map fun rest => (w.2, rest)

mutual

/-- `scan_once`. -/
def scanValue : ℕ → List Char → Option (Json F × List Char)
  | 0, _ => none
  | _, [] => none
  | fuel + 1, c :: cs =>
      if c = '"' then do
        let (s, rest) ← scanString (cs.length + 1) cs
        some (.str (String.ofList s), rest)
      else if c = '[' then
        if (skipBlanks cs).head? = some ']' then some (.list [], (skipBlanks cs).tail)
        else do
          let (vs, rest) ← scanItems fuel (skipBlanks cs)
          some (.list vs, rest)
      else if c = '{' then
        if (skipBlanks cs).head? = some '}' then some (.dict [], (skipBlanks cs).tail)
        else do
          let (members, rest) ← scanMembers fuel (skipBlanks cs)
          some (.dict (PyDict.ofPairs members), rest)
      else scanAtom fl (c :: cs)

/-- `JSONArray`, at an item. -/
def scanItems : ℕ → List Char → Option (List (Json F) × List Char)
  | 0, _ => none
  | fuel + 1, cs => do
      let (v, rest) ← scanValue fuel cs
      match skipBlanks rest with
      | ']' :: rest => some ([v], rest)
      | ',' :: rest => do
          let (vs, rest) ← scanItems fuel (skipBlanks rest)
          some (v :: vs, rest)
      | _ => none

/-- `JSONObject`, at a key. -/
def scanMembers : ℕ → List Char → Option (List (String × Json F) × List Char)
  | 0, _ => none
  | fuel + 1, '"' :: cs => do
      let (key, rest) ← scanString (cs.length + 1) cs
      match skipBlanks rest with
      | ':' :: rest => do
          let (v, rest) ← scanValue fuel (skipBlanks rest)
          match skipBlanks rest with
          | '}' :: rest => some ([(String.ofList key, v)], rest)
          | ',' :: rest => do
              let (members, rest) ← scanMembers fuel (skipBlanks rest)
              some ((String.ofList key, v) :: members, rest)
          | _ => none
      | _ => none
  | _, _ => none

end

/-- `json.loads(s)`; `none` is a `JSONDecodeError`.  A value takes at most two steps for each
of its characters. -/
def loads (s : String) : Option (Json F) := do
  let cs := skipBlanks s.toList
  let (v, rest) ← scanValue fl (2 * cs.length) cs
  if skipBlanks rest = [] then some v else none

/-! ## Numbers are read back -/

/-- A text that does not continue a number: it is empty, or begins with a separator or a closing
bracket. -/
def EndsValue (rest : List Char) : Prop :=
  ∀ c, rest.head? = some c → c = ',' ∨ c = ']' ∨ c = '}'

theorem endsValue_nil : EndsValue [] := by
  intro c hc
  cases hc

theorem endsValue_cons {c : Char} (hc : c = ',' ∨ c = ']' ∨ c = '}') (rest : List Char) :
    EndsValue (c :: rest) := by
  intro d hd
  rw [← Option.some.inj hd]
  exact hc

section Numbers

variable {rest : List Char} (hrest : EndsValue rest)

include hrest

theorem head?_ne_of_endsValue {c : Char} (hc : c ≠ ',' ∧ c ≠ ']' ∧ c ≠ '}') :
    rest.head? ≠ some c := by
  intro hhead
  rcases hrest c hhead with h | h | h
  · exact hc.1 h
  · exact hc.2.1 h
  · exact hc.2.2 h

/-- Digits end where the text behind a number begins. -/
theorem digits_append (cs : List Char) :
    (cs ++ rest).takeWhile Char.isDigit = cs.takeWhile Char.isDigit
      ∧ (cs ++ rest).dropWhile Char.isDigit = cs.dropWhile Char.isDigit ++ rest := by
  induction cs with
  | nil =>
      cases rest with
      | nil => exact ⟨rfl, rfl⟩
      | cons c rest =>
          have hc : c.isDigit = false := by
            rcases hrest c rfl with rfl | rfl | rfl <;> rfl
          constructor
          · exact List.takeWhile_cons_of_neg (by simp [hc])
          · exact List.dropWhile_cons_of_neg (by simp [hc])
  | cons c cs ih =>
      by_cases hc : c.isDigit = true
      · rw [List.cons_append, List.takeWhile_cons_of_pos hc, List.takeWhile_cons_of_pos hc,
          List.dropWhile_cons_of_pos hc, List.dropWhile_cons_of_pos hc, ih.1, ih.2]
        exact ⟨rfl, rfl⟩
      · rw [List.cons_append, List.takeWhile_cons_of_neg hc, List.takeWhile_cons_of_neg hc,
          List.dropWhile_cons_of_neg hc, List.dropWhile_cons_of_neg hc]
        exact ⟨rfl, rfl⟩

theorem scanNatural_append {cs t r : List Char} (h : scanNatural cs = some (t, r)) :
    scanNatural (cs ++ rest) = some (t, r ++ rest) := by
  have hcs : cs ≠ [] := by
    rintro rfl
    cases h
  obtain ⟨htake, hdrop⟩ := digits_append hrest cs
  unfold scanNatural at h ⊢
  rw [htake, hdrop, List.tail_append_of_ne_nil hcs]
  split at h
  · cases h
  · obtain ⟨rfl, rfl⟩ := Prod.mk.inj (Option.some.inj h)
    rfl
  · obtain ⟨rfl, rfl⟩ := Prod.mk.inj (Option.some.inj h)
    rfl

theorem scanWhole_append {cs t r : List Char} (h : scanWhole cs = some (t, r)) :
    scanWhole (cs ++ rest) = some (t, r ++ rest) := by
  cases cs with
  | nil => cases h
  | cons c cs =>
      unfold scanWhole at h ⊢
      rw [List.cons_append, List.head?_cons, List.tail_cons] at *
      split_ifs at h ⊢ with hminus
      · obtain ⟨⟨t', r'⟩, hnat, heq⟩ := Option.map_eq_some_iff.mp h
        obtain ⟨rfl, rfl⟩ := Prod.mk.inj heq
        rw [scanNatural_append hrest hnat]
        rfl
      · exact scanNatural_append hrest h

theorem scanFrac_append (cs : List Char) :
    scanFrac (cs ++ rest) = ((scanFrac cs).1, (scanFrac cs).2 ++ rest) := by
  cases cs with
  | nil =>
      have hne : rest.head? ≠ some '.' := head?_ne_of_endsValue hrest (by decide)
      unfold scanFrac
      rw [List.nil_append, if_neg fun h => hne h.1, if_neg fun h => by cases h.1]
      rfl
  | cons c cs =>
      obtain ⟨htake, hdrop⟩ := digits_append hrest cs
      unfold scanFrac
      rw [List.cons_append, List.head?_cons, List.tail_cons, List.head?_cons, List.tail_cons,
        htake, hdrop]
      split_ifs
      · rfl
      · rfl

theorem scanSign_append (cs : List Char) :
    scanSign (cs ++ rest) = ((scanSign cs).1, (scanSign cs).2 ++ rest) := by
  cases cs with
  | nil =>
      have hplus : rest.head? ≠ some '+' := head?_ne_of_endsValue hrest (by decide)
      have hminus : rest.head? ≠ some '-' := head?_ne_of_endsValue hrest (by decide)
      unfold scanSign
      rw [List.nil_append, if_neg (not_or.mpr ⟨hplus, hminus⟩), if_neg (by decide)]
      rfl
  | cons c cs =>
      unfold scanSign
      rw [List.cons_append, List.head?_cons, List.head?_cons]
      split_ifs
      · rfl
      · rfl

theorem scanExp_append (cs : List Char) :
    scanExp (cs ++ rest) = ((scanExp cs).1, (scanExp cs).2 ++ rest) := by
  cases cs with
  | nil =>
      have hlow : rest.head? ≠ some 'e' := head?_ne_of_endsValue hrest (by decide)
      have hup : rest.head? ≠ some 'E' := head?_ne_of_endsValue hrest (by decide)
      unfold scanExp
      dsimp only
      rw [List.nil_append, if_neg fun h => h.1.elim hlow hup,
        if_neg fun h => h.1.elim (by rintro ⟨⟩) (by rintro ⟨⟩)]
      rfl
  | cons c cs =>
      obtain ⟨htake, hdrop⟩ := digits_append hrest (scanSign cs).2
      unfold scanExp
      dsimp only
      rw [List.cons_append, List.head?_cons, List.tail_cons, List.head?_cons, List.tail_cons,
        scanSign_append hrest, htake, hdrop]
      split_ifs
      · rfl
      · rfl

/-- **A number is read in front of what does not continue it.** -/
theorem scanNumber_append {cs r : List Char} {t : NumberToken}
    (h : scanNumber cs = some (t, r)) : scanNumber (cs ++ rest) = some (t, r ++ rest) := by
  obtain ⟨⟨whole, tail⟩, hwhole, heq⟩ := Option.map_eq_some_iff.mp h
  obtain ⟨rfl, rfl⟩ := Prod.mk.inj heq
  unfold scanNumber
  rw [scanWhole_append hrest hwhole, Option.map_some]
  dsimp only
  rw [scanFrac_append hrest, scanExp_append hrest]

end Numbers

/-! ### Integers -/

/-- Only zero begins with a zero. -/
theorem eq_zero_of_toDigits {n : ℕ} {ds : List Char} (h : Nat.toDigits 10 n = '0' :: ds) :
    n = 0 := by
  induction n using Nat.strong_induction_on generalizing ds with
  | _ n ih =>
      by_cases hn : n < 10
      · have hdigit : ∀ m < 10, Nat.digitChar m = '0' → m = 0 := by decide
        rw [Nat.toDigits_of_lt_base hn] at h
        exact hdigit n hn (List.cons.inj h).1
      · rw [Nat.toDigits_of_base_le (by omega) (by omega)] at h
        obtain ⟨c, cs, hcs⟩ := List.exists_cons_of_ne_nil
          (Nat.toDigits_ne_nil (b := 10) (n := n / 10))
        rw [hcs, List.cons_append] at h
        have hzero := ih (n / 10) (by omega) ((List.cons.inj h).1 ▸ hcs)
        omega

theorem scanNatural_toString (n : ℕ) :
    scanNatural (toString n).toList = some ((toString n).toList, []) := by
  have hdigit : ∀ c ∈ (toString n).toList, c.isDigit = true := fun c hc => isDigit_of_mem_toString hc
  have htake : (toString n).toList.takeWhile Char.isDigit = (toString n).toList :=
    List.takeWhile_eq_self_iff.mpr hdigit
  have hdrop : (toString n).toList.dropWhile Char.isDigit = [] :=
    List.dropWhile_eq_nil_iff.mpr hdigit
  unfold scanNatural
  rw [htake, hdrop]
  split
  · rename_i hnil
    exact absurd hnil (toString_ne_nil n)
  · -- a number that begins with 0 is 0
    rename_i ds hds
    have hn : n = 0 := by
      rw [Nat.toString_eq_ofList_toDigits, String.toList_ofList] at hds
      exact eq_zero_of_toDigits hds
    subst hn
    rfl
  · rfl

/-- The token of an integer. -/
def intToken (n : ℤ) : NumberToken :=
  ⟨dumpInt n, [], []⟩

theorem scanNumber_dumpInt (n : ℤ) : scanNumber (dumpInt n) = some (intToken n, []) := by
  have hwhole : scanWhole (dumpInt n) = some (dumpInt n, []) := by
    unfold scanWhole dumpInt
    by_cases hn : n < 0
    · rw [if_pos hn, List.head?_cons, if_pos rfl, List.tail_cons, scanNatural_toString]
      rfl
    · rw [if_neg hn, if_neg, scanNatural_toString]
      intro hminus
      exact absurd (isDigit_of_mem_toString (List.mem_of_mem_head? hminus)) (by decide)
  unfold scanNumber
  rw [hwhole]
  rfl

theorem pyInt_dumpInt (n : ℤ) : pyInt (String.ofList (dumpInt n)) = some n := by
  unfold dumpInt
  rw [← toList_toString_int, String.ofList_toList]
  exact pyInt_toString_int n

/-- A dumped integer is read back. -/
theorem scanAtom_int (n : ℤ) {rest : List Char} (hrest : EndsValue rest) :
    scanAtom fl (dumpInt n ++ rest) = some (.int n, rest) := by
  unfold scanAtom
  rw [scanNumber_append hrest (scanNumber_dumpInt n)]
  dsimp only
  unfold numberValue
  rw [if_neg (show ¬ (intToken n).isFloat = true from Bool.false_ne_true)]
  show ((pyInt (String.ofList (dumpInt n))).map Json.int).map _ = _
  rw [pyInt_dumpInt]
  rfl

/-- A dumped float is read back. -/
theorem scanAtom_fin (x : F) {rest : List Char} (hrest : EndsValue rest) :
    scanAtom fl (fl.repr x ++ rest) = some (.float (.fin x), rest) := by
  obtain ⟨t, hfloat, htext, hscan⟩ := fl.repr_form x
  unfold scanAtom
  rw [scanNumber_append hrest hscan]
  dsimp only
  unfold numberValue
  rw [if_pos hfloat, htext, fl.ofText_repr]
  rfl

/-- A word is read in front of any text. -/
theorem scanAtom_word {w : List Char} {v : Json F} (hmem : (w, v) ∈ words (F := F))
    (rest : List Char) : scanAtom fl (w ++ rest) = some (v, rest) := by
  have hread : scanNumber (w ++ rest) = none
      ∧ words.findSome? (fun u => ((w ++ rest).dropPrefix? u.1).map fun r => (u.2, r))
        = some (v, rest) := by
    simp only [words, List.mem_cons, List.not_mem_nil, or_false, Prod.mk.injEq] at hmem
    rcases hmem with ⟨rfl, rfl⟩ | ⟨rfl, rfl⟩ | ⟨rfl, rfl⟩ | ⟨rfl, rfl⟩ | ⟨rfl, rfl⟩ | ⟨rfl, rfl⟩
    all_goals
      constructor
      · simp [scanNumber, scanWhole, scanNatural]
      · simp [words, List.findSome?, List.dropPrefix?]
  unfold scanAtom
  rw [hread.1]
  exact hread.2

/-! ## Texts are read back -/

theorem hexVal_hexDigit : ∀ n < 16, hexVal (hexDigit n) = some n := by
  decide

theorem scanHex_control {n : ℕ} (hn : n < 32) (rest : List Char) :
    scanHex ('0' :: '0' :: hexDigit (n / 16) :: hexDigit (n % 16) :: rest) = some (n, rest) := by
  have hzero : hexVal '0' = some 0 := rfl
  have hhigh := hexVal_hexDigit (n / 16) (by omega)
  have hlow := hexVal_hexDigit (n % 16) (by omega)
  unfold scanHex
  simp only [hzero, hhigh, hlow, bind, Option.bind]
  congr 2
  omega

/-- An escape is read as the character it stands for. -/
theorem scanString_escape {fuel : ℕ} {c : Char} {cs rest : List Char}
    (h : scanEscape cs = some (c, rest)) :
    scanString (fuel + 1) ('\\' :: cs) = (scanString fuel rest).map fun p => (c :: p.1, p.2) := by
  rw [scanString, if_neg (by decide), if_pos rfl, h, Option.bind_eq_bind, Option.bind_some]
  dsimp only
  cases scanString fuel rest with
  | none => rfl
  | some p => rfl

/-- One character of a text. -/
theorem scanString_escapeChar (c : Char) (fuel : ℕ) (rest : List Char) :
    scanString (fuel + 1) (escapeChar c ++ rest)
      = (scanString fuel rest).map fun p => (c :: p.1, p.2) := by
  unfold escapeChar
  split_ifs with hquote hback hn hr ht hf hb hcontrol
  · subst hquote
    exact scanString_escape rfl
  · subst hback
    exact scanString_escape rfl
  · subst hn
    exact scanString_escape rfl
  · subst hr
    exact scanString_escape rfl
  · subst ht
    exact scanString_escape rfl
  · subst hf
    exact scanString_escape rfl
  · subst hb
    exact scanString_escape rfl
  · refine scanString_escape ?_
    show (do
      let (n, rest) ← scanHex ('0' :: '0' :: hexDigit (c.toNat / 16) :: hexDigit (c.toNat % 16) :: rest)
      if 0xD800 ≤ n ∧ n ≤ 0xDBFF then scanLowSurrogate n rest
      else if 0xDC00 ≤ n ∧ n ≤ 0xDFFF then none
      else some (Char.ofNat n, rest)) = some (c, rest)
    rw [scanHex_control hcontrol]
    show (if 0xD800 ≤ c.toNat ∧ c.toNat ≤ 0xDBFF then _ else _) = _
    rw [if_neg (by omega), if_neg (by omega), Char.ofNat_toNat]
  · rw [List.singleton_append]
    rw [scanString, if_neg hquote, if_neg hback, if_neg hcontrol]
    cases scanString fuel rest with
    | none => rfl
    | some p => rfl

theorem scanString_dump (cs rest : List Char) : ∀ {fuel : ℕ}, cs.length < fuel →
    scanString fuel (cs.flatMap escapeChar ++ '"' :: rest) = some (cs, rest) := by
  induction cs with
  | nil =>
      intro fuel hfuel
      obtain ⟨fuel, rfl⟩ := Nat.exists_eq_add_one_of_ne_zero (show fuel ≠ 0 by omega)
      rfl
  | cons c cs ih =>
      intro fuel hfuel
      rw [List.length_cons] at hfuel
      obtain ⟨fuel, rfl⟩ := Nat.exists_eq_add_one_of_ne_zero (show fuel ≠ 0 by omega)
      rw [List.flatMap_cons, List.append_assoc, scanString_escapeChar, ih (by omega)]
      rfl

theorem escapeChar_ne_nil (c : Char) : escapeChar c ≠ [] := by
  unfold escapeChar
  split_ifs <;> exact List.cons_ne_nil _ _

theorem length_le_length_escape (cs : List Char) : cs.length ≤ (cs.flatMap escapeChar).length := by
  induction cs with
  | nil => exact Nat.le_refl _
  | cons c cs ih =>
      have hc := List.length_pos_iff.mpr (escapeChar_ne_nil c)
      rw [List.flatMap_cons, List.length_append, List.length_cons]
      omega

/-- A written text is read behind its opening quote. -/
theorem scanString_dumpString (s : String) (rest : List Char) :
    scanString (((dumpString s).tail ++ rest).length + 1) ((dumpString s).tail ++ rest)
      = some (s.toList, rest) := by
  have hlen := length_le_length_escape s.toList
  have htail : (dumpString s).tail ++ rest = s.toList.flatMap escapeChar ++ '"' :: rest := by
    simp [dumpString]
  rw [htail]
  refine scanString_dump s.toList rest ?_
  rw [List.length_append]
  omega

/-! ## Values are read back -/

/-- The first character of a number. -/
theorem head_of_scanNumber {cs r : List Char} {t : NumberToken}
    (h : scanNumber cs = some (t, r)) : ∃ c cs', cs = c :: cs' ∧ (c = '-' ∨ c.isDigit = true) := by
  obtain ⟨⟨whole, tail⟩, hwhole, -⟩ := Option.map_eq_some_iff.mp h
  cases cs with
  | nil => cases hwhole
  | cons c cs =>
      refine ⟨c, cs, rfl, ?_⟩
      unfold scanWhole at hwhole
      split_ifs at hwhole with hminus
      · exact Or.inl (Option.some.inj hminus)
      · by_contra hc
        unfold scanNatural at hwhole
        rw [List.takeWhile_cons_of_neg (fun hd => hc (Or.inr hd))] at hwhole
        cases hwhole

/-- A character that may begin a value, and is no blank and no closing bracket. -/
def BeginsValue (c : Char) : Prop :=
  isBlank c = false ∧ c ≠ ']'

theorem beginsValue_of_number {c : Char} (h : c = '-' ∨ c.isDigit = true) :
    BeginsValue c ∧ c ≠ '"' ∧ c ≠ '[' ∧ c ≠ '{' := by
  rcases h with rfl | hd
  · exact ⟨⟨rfl, by decide⟩, by decide, by decide, by decide⟩
  · have hne : ∀ d : Char, d.isDigit = false → c ≠ d := by
      rintro d hfalse rfl
      rw [hd] at hfalse
      cases hfalse
    refine ⟨⟨?_, hne ']' rfl⟩, hne '"' rfl, hne '[' rfl, hne '{' rfl⟩
    simp [isBlank, hne ' ' rfl, hne '\t' rfl, hne '\n' rfl, hne '\r' rfl]

theorem head_of_dumpFloat (x : JsonFloat F) : ∃ c cs, dumpFloat fl x = c :: cs
    ∧ BeginsValue c ∧ c ≠ '"' ∧ c ≠ '[' ∧ c ≠ '{' := by
  cases x with
  | fin x =>
      obtain ⟨t, -, -, hscan⟩ := fl.repr_form x
      obtain ⟨c, cs, hcs, hc⟩ := head_of_scanNumber hscan
      exact ⟨c, cs, hcs, beginsValue_of_number hc⟩
  | inf negative =>
      cases negative with
      | false => exact ⟨'I', _, rfl, ⟨rfl, by decide⟩, by decide, by decide, by decide⟩
      | true => exact ⟨'-', _, rfl, beginsValue_of_number (Or.inl rfl)⟩
  | nan => exact ⟨'N', _, rfl, ⟨rfl, by decide⟩, by decide, by decide, by decide⟩

theorem head_of_dumpInt (n : ℤ) : ∃ c cs, dumpInt n = c :: cs
    ∧ BeginsValue c ∧ c ≠ '"' ∧ c ≠ '[' ∧ c ≠ '{' := by
  obtain ⟨c, cs, hcs, hc⟩ := head_of_scanNumber (scanNumber_dumpInt n)
  exact ⟨c, cs, hcs, beginsValue_of_number hc⟩

theorem head_of_dumpValue (v : Json F) : ∃ c cs, dumpValue fl v = c :: cs ∧ BeginsValue c := by
  cases v with
  | null => exact ⟨'n', _, rfl, rfl, by decide⟩
  | bool b =>
      cases b with
      | false => exact ⟨'f', _, rfl, rfl, by decide⟩
      | true => exact ⟨'t', _, rfl, rfl, by decide⟩
  | int n =>
      obtain ⟨c, cs, hcs, hc, -⟩ := head_of_dumpInt n
      exact ⟨c, cs, hcs, hc⟩
  | float x =>
      obtain ⟨c, cs, hcs, hc, -⟩ := head_of_dumpFloat fl x
      exact ⟨c, cs, hcs, hc⟩
  | str s => exact ⟨'"', _, rfl, rfl, by decide⟩
  | list vs => exact ⟨'[', _, rfl, rfl, by decide⟩
  | dict members => exact ⟨'{', _, rfl, rfl, by decide⟩

theorem skipBlanks_cons {c : Char} (hc : isBlank c = false) (cs : List Char) :
    skipBlanks (c :: cs) = c :: cs :=
  List.dropWhile_cons_of_neg (by simp [hc])

/-- A written value begins with no blank. -/
theorem skipBlanks_dumpValue (v : Json F) (rest : List Char) :
    skipBlanks (dumpValue fl v ++ rest) = dumpValue fl v ++ rest := by
  obtain ⟨c, cs, hcs, hc⟩ := head_of_dumpValue fl v
  rw [hcs, List.cons_append, skipBlanks_cons hc.1]

/-- What is no text, no list and no dictionary is an atom. -/
theorem scanValue_atom {c : Char} (hc : c ≠ '"' ∧ c ≠ '[' ∧ c ≠ '{') (fuel : ℕ) (cs : List Char) :
    scanValue fl (fuel + 1) (c :: cs) = scanAtom fl (c :: cs) := by
  rw [scanValue, if_neg hc.1, if_neg hc.2.1, if_neg hc.2.2]

/-- An atom that is read by `scanAtom` is read as a value. -/
theorem scanValue_of_atom {text rest : List Char} {v : Json F} {fuel : ℕ}
    (hhead : ∃ c cs, text = c :: cs ∧ BeginsValue c ∧ c ≠ '"' ∧ c ≠ '[' ∧ c ≠ '{')
    (hatom : scanAtom fl (text ++ rest) = some (v, rest)) (hfuel : 2 * text.length ≤ fuel) :
    scanValue fl fuel (text ++ rest) = some (v, rest) := by
  obtain ⟨c, cs, rfl, -, hc⟩ := hhead
  rw [List.length_cons] at hfuel
  obtain ⟨fuel, rfl⟩ := Nat.exists_eq_add_one_of_ne_zero (show fuel ≠ 0 by omega)
  rw [← hatom, List.cons_append, scanValue_atom fl hc]

theorem scanValue_str (s : String) (fuel : ℕ) (rest : List Char) :
    scanValue fl (fuel + 1) (dumpString s ++ rest) = some (.str s, rest) := by
  have hcons : dumpString s ++ rest = '"' :: ((dumpString s).tail ++ rest) := rfl
  rw [hcons, scanValue, if_pos rfl, scanString_dumpString, Option.bind_eq_bind, Option.bind_some]
  dsimp only
  rw [String.ofList_toList]

/-- What stands behind an item or a member ends it. -/
theorem endsValue_tail (close : Char) (hclose : close = ']' ∨ close = '}') (last : Bool)
    (more rest : List Char) : EndsValue ((if last then [close] else ',' :: more) ++ rest) := by
  cases last with
  | true => exact endsValue_cons (Or.inr hclose) rest
  | false => exact endsValue_cons (Or.inl rfl) (more ++ rest)

mutual

/-- **A written value is read back** in front of any text that does not continue it. -/
theorem scanValue_dump : ∀ (v : Json F), v.KeysDistinct → ∀ (fuel : ℕ) (rest : List Char),
    EndsValue rest → 2 * (dumpValue fl v).length ≤ fuel →
      scanValue fl fuel (dumpValue fl v ++ rest) = some (v, rest)
  | .null, _, fuel, rest, _, hfuel =>
      scanValue_of_atom fl ⟨'n', _, rfl, ⟨rfl, by decide⟩, by decide⟩
        (scanAtom_word fl (w := ['n', 'u', 'l', 'l']) (by simp [words]) rest) hfuel
  | .bool true, _, fuel, rest, _, hfuel =>
      scanValue_of_atom fl ⟨'t', _, rfl, ⟨rfl, by decide⟩, by decide⟩
        (scanAtom_word fl (w := ['t', 'r', 'u', 'e']) (by simp [words]) rest) hfuel
  | .bool false, _, fuel, rest, _, hfuel =>
      scanValue_of_atom fl ⟨'f', _, rfl, ⟨rfl, by decide⟩, by decide⟩
        (scanAtom_word fl (w := ['f', 'a', 'l', 's', 'e']) (by simp [words]) rest) hfuel
  | .int n, _, fuel, rest, hrest, hfuel =>
      scanValue_of_atom fl (head_of_dumpInt n) (scanAtom_int fl n hrest) hfuel
  | .float x, _, fuel, rest, hrest, hfuel => by
      refine scanValue_of_atom fl (head_of_dumpFloat fl x) ?_ hfuel
      rcases x with x | (_ | _) | _
      · exact scanAtom_fin fl x hrest
      · exact scanAtom_word fl (w := ['I', 'n', 'f', 'i', 'n', 'i', 't', 'y']) (by simp [words]) rest
      · exact scanAtom_word fl (w := ['-', 'I', 'n', 'f', 'i', 'n', 'i', 't', 'y']) (by simp [words])
          rest
      · exact scanAtom_word fl (w := ['N', 'a', 'N']) (by simp [words]) rest
  | .str s, _, fuel, rest, _, hfuel => by
      have hlen : 0 < (dumpValue fl (.str s)).length := Nat.succ_pos _
      obtain ⟨fuel, rfl⟩ := Nat.exists_eq_add_one_of_ne_zero (show fuel ≠ 0 by omega)
      exact scanValue_str fl s fuel rest
  | .list vs, hv, fuel, rest, _, hfuel => by
      have hitems := scanItems_dump vs hv
      have hlen : (dumpValue fl (.list vs)).length = (dumpItems fl vs).length + 1 := rfl
      obtain ⟨fuel, rfl⟩ := Nat.exists_eq_add_one_of_ne_zero (show fuel ≠ 0 by omega)
      show scanValue fl (fuel + 1) ('[' :: (dumpItems fl vs ++ rest)) = _
      rw [scanValue, if_neg (by decide), if_pos rfl]
      cases vs with
      | nil => rfl
      | cons w ws =>
          obtain ⟨c, cs, hcs, hc⟩ := head_of_dumpValue fl w
          -- no blank stands in front of an item, so the scan goes straight into it
          have hfront : skipBlanks (dumpItems fl (w :: ws) ++ rest) = dumpItems fl (w :: ws) ++ rest := by
            rw [dumpItems, List.append_assoc, skipBlanks_dumpValue]
          have hopen : (dumpItems fl (w :: ws) ++ rest).head? ≠ some ']' := by
            rw [dumpItems, hcs]
            intro h
            exact hc.2 (Option.some.inj h)
          rw [hfront, if_neg hopen, hitems (List.cons_ne_nil w ws) fuel rest (by omega)]
          rfl
  | .dict members, hv, fuel, rest, _, hfuel => by
      have hmembers := scanMembers_dump members hv.2
      have hlen : (dumpValue fl (.dict members)).length = (dumpMembers fl members).length + 1 := rfl
      obtain ⟨fuel, rfl⟩ := Nat.exists_eq_add_one_of_ne_zero (show fuel ≠ 0 by omega)
      show scanValue fl (fuel + 1) ('{' :: (dumpMembers fl members ++ rest)) = _
      rw [scanValue, if_neg (by decide), if_neg (by decide), if_pos rfl]
      cases members with
      | nil => rfl
      | cons p ps =>
          obtain ⟨key, w⟩ := p
          have hfront : skipBlanks (dumpMembers fl ((key, w) :: ps) ++ rest)
              = dumpMembers fl ((key, w) :: ps) ++ rest := rfl
          have hopen : (dumpMembers fl ((key, w) :: ps) ++ rest).head? ≠ some '}' := by
            intro h
            cases Option.some.inj h
          rw [hfront, if_neg hopen, hmembers (List.cons_ne_nil _ ps) fuel rest (by omega),
            Option.bind_eq_bind, Option.bind_some]
          dsimp only
          rw [PyDict.ofPairs_of_nodup hv.1]

theorem scanItems_dump : ∀ (vs : List (Json F)), itemsDistinct vs → vs ≠ [] →
    ∀ (fuel : ℕ) (rest : List Char), 2 * (dumpItems fl vs).length + 1 ≤ fuel →
      scanItems fl fuel (dumpItems fl vs ++ rest) = some (vs, rest)
  | [], _, hne, _, _, _ => absurd rfl hne
  | v :: vs, hv, _, fuel, rest, hfuel => by
      have hval := scanValue_dump v hv.1
      have hitems := scanItems_dump vs hv.2
      obtain ⟨fuel, rfl⟩ := Nat.exists_eq_add_one_of_ne_zero (show fuel ≠ 0 by omega)
      rw [dumpItems, List.length_append] at hfuel
      rw [dumpItems, List.append_assoc, scanItems,
        hval fuel _ (endsValue_tail ']' (Or.inl rfl) _ _ rest) (by omega), Option.bind_eq_bind,
        Option.bind_some]
      cases vs with
      | nil => rfl
      | cons w ws =>
          have hlen : (if (w :: ws).isEmpty = true then [']'] else ',' :: dumpItems fl (w :: ws)).length
              = (dumpItems fl (w :: ws)).length + 1 := rfl
          have hnext : skipBlanks (dumpItems fl (w :: ws) ++ rest) = dumpItems fl (w :: ws) ++ rest := by
            rw [dumpItems, List.append_assoc, skipBlanks_dumpValue]
          show (scanItems fl fuel (skipBlanks (dumpItems fl (w :: ws) ++ rest))).bind _ = _
          rw [hnext, hitems (List.cons_ne_nil w ws) fuel rest (by omega)]
          rfl

theorem scanMembers_dump : ∀ (members : List (String × Json F)), membersDistinct members →
    members ≠ [] → ∀ (fuel : ℕ) (rest : List Char),
      2 * (dumpMembers fl members).length + 1 ≤ fuel →
        scanMembers fl fuel (dumpMembers fl members ++ rest) = some (members, rest)
  | [], _, hne, _, _, _ => absurd rfl hne
  | (key, v) :: members, hv, _, fuel, rest, hfuel => by
      have hval := scanValue_dump v hv.1
      have hmembers := scanMembers_dump members hv.2
      obtain ⟨fuel, rfl⟩ := Nat.exists_eq_add_one_of_ne_zero (show fuel ≠ 0 by omega)
      rw [dumpMembers, List.length_append, List.length_append, List.length_cons] at hfuel
      have hkey : dumpMembers fl ((key, v) :: members) ++ rest
          = '"' :: ((dumpString key).tail ++ (':' :: (dumpValue fl v
            ++ ((if members.isEmpty then ['}'] else ',' :: dumpMembers fl members) ++ rest)))) := by
        simp [dumpMembers, dumpString]
      rw [hkey, scanMembers, scanString_dumpString, Option.bind_eq_bind, Option.bind_some]
      show (scanValue fl fuel (skipBlanks (dumpValue fl v ++ _))).bind _ = _
      rw [skipBlanks_dumpValue, hval fuel _ (endsValue_tail '}' (Or.inr rfl) _ _ rest) (by omega),
        Option.bind_some, String.ofList_toList]
      cases members with
      | nil => rfl
      | cons w ws =>
          have hlen : (if (w :: ws).isEmpty = true then ['}']
              else ',' :: dumpMembers fl (w :: ws)).length
              = (dumpMembers fl (w :: ws)).length + 1 := rfl
          obtain ⟨key', w⟩ := w
          have hnext : skipBlanks (dumpMembers fl ((key', w) :: ws) ++ rest)
              = dumpMembers fl ((key', w) :: ws) ++ rest := rfl
          show (scanMembers fl fuel (skipBlanks (dumpMembers fl ((key', w) :: ws) ++ rest))).bind _ = _
          rw [hnext, hmembers (List.cons_ne_nil _ ws) fuel rest (by omega)]
          rfl

end

/-- **The round trip.**  `loads(dumps(v)) == v`. -/
theorem loads_dumps (v : Json F) (hv : v.KeysDistinct) : loads fl (dumps fl v) = some v := by
  have hfront : skipBlanks (dumpValue fl v) = dumpValue fl v := by
    have h := skipBlanks_dumpValue fl v []
    rwa [List.append_nil] at h
  have hread := scanValue_dump fl v hv (2 * (dumpValue fl v).length) [] endsValue_nil (Nat.le_refl _)
  rw [List.append_nil] at hread
  unfold loads dumps
  rw [String.toList_ofList, hfront]
  dsimp only
  rw [hread]
  rfl

end JsonText
