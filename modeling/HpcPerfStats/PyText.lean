/-
# Text operations of the stats parsers

The string methods the parsers use, on text that was decoded as ASCII with replacement:
a character outside ASCII is neither a letter, nor a digit, nor a blank.

* `lstrip`, `strip`, `lstripChars`, `startsWith`, `contains`
* `split` and `splitMax`: splitting at runs of blanks, without and with a limit
* `splitSep`, `splitSepMax`, `beforeSep`, `afterSep`: splitting at one separator character
* `pyInt` and `pyFloat`: the number readers, over exact numbers

`splitChars_eq` and `splitMaxChars_succ` read a text token by token, and `splitMax_eq_split`
compares the two splits.
-/
import Mathlib.Algebra.Group.Int.Defs
import Mathlib.Algebra.Group.Nat.Defs
import Mathlib.Data.List.DropRight
import Mathlib.Data.Rat.Defs

namespace PyText

/-! ## Characters and stripping -/

/-- `str.isspace` on ASCII. -/
def isSpace (c : Char) : Bool :=
  c == ' ' || (9 ≤ c.toNat && c.toNat ≤ 13) || (28 ≤ c.toNat && c.toNat ≤ 31)

def lstrip (s : String) : String :=
  String.ofList (s.toList.dropWhile isSpace)

def rstrip (s : String) : String :=
  String.ofList (s.toList.rdropWhile isSpace)

def strip (s : String) : String :=
  rstrip (lstrip s)

/-- `s.lstrip(cs)`. -/
def lstripChars (cs : List Char) (s : String) : String :=
  String.ofList (s.toList.dropWhile fun c => cs.contains c)

def startsWith (p s : String) : Bool :=
  p.toList.isPrefixOf s.toList

def containsChars (p : List Char) : List Char → Bool
  | [] => p.isEmpty
  | c :: cs => p.isPrefixOf (c :: cs) || containsChars p cs

/-- `p in s`. -/
def contains (p s : String) : Bool :=
  containsChars p.toList s.toList

/-- `s[k:]`. -/
def dropChars (k : ℕ) (s : String) : String :=
  String.ofList (s.toList.drop k)

/-- `s[:k]`. -/
def takeChars (k : ℕ) (s : String) : String :=
  String.ofList (s.toList.take k)

/-- `"".join(filter(p, s))`. -/
def filterChars (p : Char → Bool) (s : String) : String :=
  String.ofList (s.toList.filter p)

/-! ## Splitting -/

/-- The first token and the text behind it. -/
def nextToken (cs : List Char) : Option (List Char × List Char) :=
  match cs.dropWhile isSpace with
  | [] => none
  | c :: r => some ((c :: r).takeWhile (!isSpace ·), (c :: r).dropWhile (!isSpace ·))

/-- `s.split(maxsplit=k)`: what is left after `k` tokens is kept as it is. -/
def splitMaxChars : ℕ → List Char → List (List Char)
  | 0, cs =>
      match cs.dropWhile isSpace with
      | [] => []
      | c :: r => [c :: r]
  | k + 1, cs =>
      match nextToken cs with
      | none => []
      | some (t, r) => t :: splitMaxChars k r

def splitMax (k : ℕ) (s : String) : List String :=
  (splitMaxChars k s.toList).map String.ofList

/-- `s.split()`: a text of `n` characters has at most `n` tokens. -/
def splitChars (cs : List Char) : List (List Char) :=
  splitMaxChars cs.length cs

def split (s : String) : List String :=
  (splitChars s.toList).map String.ofList

def splitSepChars (sep : Char) : List Char → List (List Char)
  | [] => [[]]
  | c :: cs =>
      if c = sep then [] :: splitSepChars sep cs
      else
        match splitSepChars sep cs with
        | [] => [[c]]
        | p :: ps => (c :: p) :: ps

/-- `s.split(sep)`. -/
def splitSep (sep : Char) (s : String) : List String :=
  (splitSepChars sep s.toList).map String.ofList

/-- `s.split(sep, k)`: what is left after `k` separators is kept as it is. -/
def splitSepMaxChars (sep : Char) : ℕ → List Char → List (List Char)
  | 0, cs => [cs]
  | k + 1, cs =>
      match cs.dropWhile (· != sep) with
      | [] => [cs]
      | _ :: rest => cs.takeWhile (· != sep) :: splitSepMaxChars sep k rest

def splitSepMax (sep : Char) (k : ℕ) (s : String) : List String :=
  (splitSepMaxChars sep k s.toList).map String.ofList

/-- `s.split(sep, 1)[0]`. -/
def beforeSep (sep : Char) (s : String) : String :=
  String.ofList (s.toList.takeWhile (· != sep))

/-- `s.split(sep, 1)[1]`, when the separator occurs. -/
def afterSep (sep : Char) (s : String) : String :=
  String.ofList (s.toList.dropWhile (· != sep)).tail

/-! ## Numbers -/

def digitVal (c : Char) : ℕ :=
  c.toNat - 48

/-- Digits behind a digit; single underscores may stand between digits. -/
def digitsGo (acc : ℕ) : List Char → Option ℕ
  | [] => some acc
  | '_' :: c :: cs => if c.isDigit then digitsGo (acc * 10 + digitVal c) cs else none
  | c :: cs => if c.isDigit then digitsGo (acc * 10 + digitVal c) cs else none

def digits : List Char → Option ℕ
  | [] => none
  | c :: cs => if c.isDigit then digitsGo (digitVal c) cs else none

/-- A sign and the text behind it. -/
def signOf : List Char → ℤ × List Char
  | '-' :: cs => (-1, cs)
  | '+' :: cs => (1, cs)
  | cs => (1, cs)

/-- `int(s)`; `none` is a `ValueError`. -/
def pyInt (s : String) : Option ℤ :=
  let (sg, cs) := signOf (strip s).toList
  (digits cs).map fun n => sg * n

/-- The floats the parsers read: exact finite values, the infinities and NaN. -/
inductive PyFloat where
  | fin (q : ℚ)
  | inf (negative : Bool)
  | nan
  deriving DecidableEq

/-- `sg * (whole.frac) * 10 ^ exp`; an empty part counts as absent. -/
def decimal (sg : ℤ) (whole frac : List Char) (exp : ℤ) : Option ℚ :=
  let w := if whole.isEmpty then some 0 else digits whole
  let f := if frac.isEmpty then some 0 else digits frac
  let k := (frac.filter Char.isDigit).length
  if whole.isEmpty && frac.isEmpty then none
  else
    match w, f with
    | some w, some f =>
        some (mkRat (sg * (w * 10 ^ k + f) * 10 ^ exp.toNat) (10 ^ k * 10 ^ (-exp).toNat))
    | _, _ => none

/-- The exponent part: absent, or a sign and digits behind `e`. -/
def exponent : List Char → Option ℤ
  | [] => some 0
  | _ :: cs =>
      let (sg, ds) := signOf cs
      (digits ds).map fun n => sg * n

/-- `float(s)`; `none` is a `ValueError`. -/
def pyFloat (s : String) : Option PyFloat :=
  let (sg, cs) := signOf (strip s).toList
  let low := String.ofList (cs.map Char.toLower)
  if low = "inf" ∨ low = "infinity" then some (.inf (sg = -1))
  else if low = "nan" then some .nan
  else
    let isE : Char → Bool := fun c => c == 'e' || c == 'E'
    let mantissa := cs.takeWhile (!isE ·)
    let whole := mantissa.takeWhile (· != '.')
    let frac := (mantissa.dropWhile (· != '.')).tail
    match exponent (cs.dropWhile (!isE ·)) with
    | none => none
    | some e => (decimal sg whole frac e).map .fin

/-- `int(x)` of a float: truncation towards zero; `none` for NaN and the infinities. -/
def PyFloat.toInt : PyFloat → Option ℤ
  | .fin q => some (Int.tdiv q.num q.den)
  | _ => none

/-! ## Reading a text token by token -/

theorem nextToken_length {cs t r : List Char} (h : nextToken cs = some (t, r)) :
    r.length < cs.length := by
  rw [nextToken] at h
  split at h
  · cases h
  · rename_i c r' hd
    have hc : isSpace c = false := by
      simpa [hd] using List.head?_dropWhile_not isSpace cs
    have hlen : (c :: r').length ≤ cs.length := by
      rw [← hd]
      exact (List.dropWhile_suffix isSpace).length_le
    injection h with h
    injection h with _ hr
    subst hr
    have hdrop : (c :: r').dropWhile (!isSpace ·) = r'.dropWhile (!isSpace ·) := by
      simp [hc]
    rw [hdrop]
    have hsuf : (r'.dropWhile (!isSpace ·)).length ≤ r'.length :=
      (List.dropWhile_suffix _).length_le
    rw [List.length_cons] at hlen
    omega

/-- Enough fuel is enough. -/
theorem splitMaxChars_of_le : ∀ {k : ℕ} {cs : List Char}, cs.length ≤ k →
    splitMaxChars k cs = splitChars cs := by
  intro k
  induction k using Nat.strong_induction_on with
  | _ k ih =>
      intro cs hk
      rw [splitChars]
      cases hcs : cs.length with
      | zero =>
          have hnil : cs = [] := List.length_eq_zero_iff.mp hcs
          subst hnil
          cases k <;> rfl
      | succ m =>
          obtain ⟨k, rfl⟩ : ∃ k', k = k' + 1 := ⟨k - 1, by omega⟩
          rw [splitMaxChars, splitMaxChars]
          cases ht : nextToken cs with
          | none => rfl
          | some p =>
              obtain ⟨t, r⟩ := p
              have hr := nextToken_length ht
              simp only
              rw [ih k (by omega) (by omega), ih m (by omega) (by omega)]

/-- **Tokens.**  `split` reads the first token and goes on behind it. -/
theorem splitChars_eq (cs : List Char) :
    splitChars cs = match nextToken cs with
      | none => []
      | some (t, r) => t :: splitChars r := by
  rw [← splitMaxChars_of_le (Nat.le_succ cs.length), splitMaxChars]
  cases ht : nextToken cs with
  | none => rfl
  | some p =>
      obtain ⟨t, r⟩ := p
      simp only
      rw [splitMaxChars_of_le (nextToken_length ht).le]

theorem splitMaxChars_succ (k : ℕ) (cs : List Char) :
    splitMaxChars (k + 1) cs = match nextToken cs with
      | none => []
      | some (t, r) => t :: splitMaxChars k r := rfl

/-- Blanks in front of a text do not change its tokens. -/
theorem splitChars_dropWhile (cs : List Char) :
    splitChars (cs.dropWhile isSpace) = splitChars cs := by
  rw [splitChars_eq, splitChars_eq cs, nextToken, nextToken, List.dropWhile_idempotent]

theorem nextToken_eq_none {cs : List Char} (h : cs.dropWhile isSpace = []) :
    nextToken cs = none := by
  rw [nextToken, h]

/-- **The two splits.**  A text of at most `k` tokens is split alike; of a longer one the
limited split keeps the text behind `k` tokens. -/
theorem splitMaxChars_eq_splitChars (k : ℕ) : ∀ cs : List Char,
    (splitChars cs).length ≤ k ∧ splitMaxChars k cs = splitChars cs
      ∨ k < (splitChars cs).length ∧ ∃ rest, splitMaxChars k cs = (splitChars cs).take k ++ [rest]
          ∧ splitChars rest = (splitChars cs).drop k := by
  induction k with
  | zero =>
      intro cs
      rw [splitMaxChars]
      cases hd : cs.dropWhile isSpace with
      | nil =>
          left
          rw [splitChars_eq, nextToken_eq_none hd]
          exact ⟨le_rfl, rfl⟩
      | cons c r =>
          right
          have hsplit : splitChars (c :: r) = splitChars cs := by
            rw [← hd, splitChars_dropWhile]
          have hne : 0 < (splitChars cs).length := by
            rw [splitChars_eq, nextToken, hd]
            exact Nat.succ_pos _
          exact ⟨hne, c :: r, rfl, hsplit⟩
  | succ k ih =>
      intro cs
      rw [splitMaxChars_succ, splitChars_eq]
      cases ht : nextToken cs with
      | none => exact Or.inl ⟨Nat.zero_le _, rfl⟩
      | some p =>
          obtain ⟨t, r⟩ := p
          simp only [List.length_cons]
          rcases ih r with ⟨hlen, heq⟩ | ⟨hlen, rest, heq, hrest⟩
          · left
            exact ⟨by omega, by rw [heq]⟩
          · right
            exact ⟨by omega, rest, by rw [heq]; rfl, hrest⟩

theorem splitMax_eq_split (k : ℕ) (s : String) :
    (split s).length ≤ k ∧ splitMax k s = split s
      ∨ k < (split s).length ∧ ∃ rest, splitMax k s = (split s).take k ++ [rest]
          ∧ split rest = (split s).drop k := by
  rw [split, splitMax, List.length_map]
  rcases splitMaxChars_eq_splitChars k s.toList with ⟨hlen, heq⟩ | ⟨hlen, rest, heq, hrest⟩
  · left
    exact ⟨hlen, by rw [heq]⟩
  · right
    refine ⟨hlen, String.ofList rest, ?_, ?_⟩
    · rw [heq, List.map_append, List.map_take]
      rfl
    · rw [split, String.toList_ofList, hrest, List.map_drop]

/-! ## Blanks at the ends -/

section Blanks

variable {sp : List Char} (hsp : ∀ c ∈ sp, isSpace c = true)

include hsp

theorem dropWhile_isSpace_append (cs : List Char) :
    (cs ++ sp).dropWhile isSpace
      = if cs.dropWhile isSpace = [] then [] else cs.dropWhile isSpace ++ sp := by
  induction cs with
  | nil => simpa using hsp
  | cons c cs ih =>
      by_cases hc : isSpace c
      · rw [List.cons_append, List.dropWhile_cons_of_pos hc, List.dropWhile_cons_of_pos hc]
        exact ih
      · rw [List.cons_append, List.dropWhile_cons_of_neg hc, List.dropWhile_cons_of_neg hc]
        simp

theorem takeWhile_token_append (cs : List Char) :
    (cs ++ sp).takeWhile (!isSpace ·) = cs.takeWhile (!isSpace ·) := by
  induction cs with
  | nil =>
      cases sp with
      | nil => rfl
      | cons c sp =>
          have hc : isSpace c = true := hsp c List.mem_cons_self
          simp [hc]
  | cons c cs ih =>
      by_cases hc : isSpace c
      · simp [hc]
      · simp [hc, ih]

theorem dropWhile_token_append (cs : List Char) :
    (cs ++ sp).dropWhile (!isSpace ·) = cs.dropWhile (!isSpace ·) ++ sp := by
  induction cs with
  | nil =>
      cases sp with
      | nil => rfl
      | cons c sp =>
          have hc : isSpace c = true := hsp c List.mem_cons_self
          simp [hc]
  | cons c cs ih =>
      by_cases hc : isSpace c
      · simp [hc]
      · simpa [hc] using ih

theorem nextToken_append (cs : List Char) :
    nextToken (cs ++ sp) = (nextToken cs).map fun p => (p.1, p.2 ++ sp) := by
  rw [nextToken, nextToken, dropWhile_isSpace_append hsp]
  cases hd : cs.dropWhile isSpace with
  | nil => rfl
  | cons c r =>
      simp only [reduceCtorEq, if_false, List.cons_append, Option.map_some]
      rw [← List.cons_append, takeWhile_token_append hsp, dropWhile_token_append hsp]

/-- Blanks behind a text do not change its tokens. -/
theorem splitChars_append : ∀ cs : List Char, splitChars (cs ++ sp) = splitChars cs := by
  intro cs
  induction hn : cs.length using Nat.strong_induction_on generalizing cs with
  | _ n ih =>
      rw [splitChars_eq, splitChars_eq cs, nextToken_append hsp]
      cases ht : nextToken cs with
      | none => rfl
      | some p =>
          obtain ⟨t, r⟩ := p
          have hr := nextToken_length ht
          simp only [Option.map_some]
          rw [ih r.length (by omega) r rfl]

end Blanks

theorem toList_lstrip (s : String) : (lstrip s).toList = s.toList.dropWhile isSpace :=
  String.toList_ofList

theorem toList_rstrip (s : String) : (rstrip s).toList = s.toList.rdropWhile isSpace :=
  String.toList_ofList

theorem toList_rstrip_append (s : String) :
    ∃ sp, s.toList = (rstrip s).toList ++ sp ∧ ∀ c ∈ sp, isSpace c = true := by
  refine ⟨s.toList.rtakeWhile isSpace, ?_, fun c hc => List.mem_rtakeWhile_imp hc⟩
  rw [toList_rstrip]
  exact List.rdropWhile_append_rtakeWhile.symm

@[simp] theorem split_rstrip (s : String) : split (rstrip s) = split s := by
  obtain ⟨sp, hs, hsp⟩ := toList_rstrip_append s
  rw [split, split, hs, splitChars_append hsp]

@[simp] theorem lstrip_lstrip (s : String) : lstrip (lstrip s) = lstrip s := by
  rw [lstrip, toList_lstrip, List.dropWhile_idempotent, lstrip]

@[simp] theorem rstrip_rstrip (s : String) : rstrip (rstrip s) = rstrip s := by
  rw [rstrip, toList_rstrip, List.rdropWhile_idempotent, rstrip]

/-- The first character of a stripped text is that of the text stripped on the left. -/
theorem head?_strip (s : String) : (strip s).toList.head? = (lstrip s).toList.head? := by
  obtain ⟨sp, hs, hsp⟩ := toList_rstrip_append (lstrip s)
  rw [strip]
  cases hr : (rstrip (lstrip s)).toList with
  | cons c r => simp [hs, hr]
  | nil =>
      -- only blanks are left, but the text does not begin with one
      rw [hr, List.nil_append] at hs
      cases sp with
      | nil => rw [hs]
      | cons c sp =>
          have hc : isSpace c = true := hsp c List.mem_cons_self
          have hhead := List.head?_dropWhile_not isSpace s.toList
          rw [← toList_lstrip, hs] at hhead
          simp [hc] at hhead

theorem lstrip_strip (s : String) : lstrip (strip s) = strip s := by
  apply String.toList_injective
  rw [toList_lstrip, List.dropWhile_eq_self_iff]
  intro hl
  have hhead := List.head?_dropWhile_not isSpace s.toList
  rw [← toList_lstrip, ← head?_strip, List.head?_eq_getElem?, List.getElem?_eq_getElem hl] at hhead
  simpa using hhead

/-- Stripping twice. -/
@[simp] theorem strip_strip (s : String) : strip (strip s) = strip s := by
  rw [strip, lstrip_strip, strip, rstrip_rstrip]

@[simp] theorem strip_lstrip (s : String) : strip (lstrip s) = strip s := by
  rw [strip, lstrip_lstrip, strip]

/-- A prefix without blanks is not touched by stripping on the right. -/
theorem startsWith_rstrip {p : String} (s : String)
    (hp : (p.toList.all fun c => !isSpace c) = true) :
    startsWith p (rstrip s) = startsWith p s := by
  obtain ⟨sp, hs, hsp⟩ := toList_rstrip_append s
  rw [startsWith, startsWith, hs, Bool.eq_iff_iff, List.isPrefixOf_iff_prefix,
    List.isPrefixOf_iff_prefix]
  constructor
  · intro h
    exact h.trans (List.prefix_append _ _)
  · rintro ⟨r, h⟩
    rcases List.append_eq_append_iff.mp h with ⟨t, ht, -⟩ | ⟨t, ht, htsp⟩
    · exact ⟨t, ht.symm⟩
    · cases t with
      | nil => exact ⟨[], by rw [ht, List.append_nil, List.append_nil]⟩
      | cons c t =>
          have hc : isSpace c = true := hsp c (by rw [htsp]; simp)
          have hc' : isSpace c = false := by
            simpa using List.all_eq_true.mp hp c (by rw [ht]; simp)
          rw [hc] at hc'
          cases hc'

/-! ## Splitting at a separator -/

theorem splitSepChars_ne_nil (sep : Char) (cs : List Char) : splitSepChars sep cs ≠ [] := by
  cases cs with
  | nil => exact List.cons_ne_nil _ _
  | cons c cs =>
      rw [splitSepChars]
      split_ifs
      · exact List.cons_ne_nil _ _
      · split
        · exact List.cons_ne_nil _ _
        · exact List.cons_ne_nil _ _

/-- The first part holds no separator. -/
theorem splitSepChars_first {sep : Char} (cs : List Char) : ∀ {c : List Char}
    {parts : List (List Char)}, splitSepChars sep cs = c :: parts → splitSepChars sep c = [c] := by
  induction cs with
  | nil =>
      intro c parts h
      obtain ⟨rfl, -⟩ := List.cons.inj h
      rfl
  | cons d cs ih =>
      intro c parts h
      rw [splitSepChars] at h
      split_ifs at h with hd
      · obtain ⟨rfl, -⟩ := List.cons.inj h
        rfl
      · split at h
        · rename_i hnil
          exact absurd hnil (splitSepChars_ne_nil sep cs)
        · rename_i p ps hcs
          obtain ⟨rfl, -⟩ := List.cons.inj h
          rw [splitSepChars, if_neg hd, ih hcs]

/-- The first part of a text is continued by the text in front of it. -/
theorem splitSepChars_append {sep : Char} {cs c : List Char} {parts : List (List Char)}
    (h : splitSepChars sep cs = c :: parts) (front : List Char) :
    splitSepChars sep (front ++ cs) = splitSepChars sep (front ++ c) ++ parts := by
  induction front with
  | nil =>
      rw [List.nil_append, List.nil_append, h, splitSepChars_first cs h]
      rfl
  | cons d front ih =>
      rw [List.cons_append, List.cons_append, splitSepChars, splitSepChars, ih]
      split_ifs with hd
      · rfl
      · cases hfront : splitSepChars sep (front ++ c) with
        | nil => exact absurd hfront (splitSepChars_ne_nil sep _)
        | cons p ps => rfl

/-! ## Numbers that begin with a digit -/

theorem toNat_of_isDigit {c : Char} (h : c.isDigit = true) : 48 ≤ c.toNat ∧ c.toNat ≤ 57 := by
  simpa [Char.isDigit, UInt32.le_iff_toNat_le] using h

theorem isDigit_not_isSpace {c : Char} (h : c.isDigit = true) : isSpace c = false := by
  obtain ⟨hlow, hhigh⟩ := toNat_of_isDigit h
  have hne : c ≠ ' ' := by
    rintro rfl
    cases h
  simp only [isSpace, Bool.or_eq_false_iff, Bool.and_eq_false_iff, beq_eq_false_iff_ne,
    decide_eq_false_iff_not]
  exact ⟨⟨hne, Or.inr (by omega)⟩, Or.inr (by omega)⟩

theorem toNat_of_isAlpha {c : Char} (h : c.isAlpha = true) : 65 ≤ c.toNat := by
  have hcase : (c.isUpper || c.isLower) = true := h
  rcases (Bool.or_eq_true _ _).mp hcase with hupper | hlower
  · have hA : 'A'.val ≤ c.val := (of_decide_eq_true hupper).1
    exact hA
  · have ha : 'a'.val ≤ c.val := of_decide_eq_true ((Bool.and_eq_true _ _).mp hlower).1
    exact le_trans (by decide : 65 ≤ 97) ha

theorem toLower_of_isDigit {c : Char} (h : c.isDigit = true) : c.toLower = c := by
  obtain ⟨-, hhigh⟩ := toNat_of_isDigit h
  have hupper : ¬(c.val ≥ 'A'.val ∧ c.val ≤ 'Z'.val) := by
    rintro ⟨hA, -⟩
    have hA' : 65 ≤ c.toNat := hA
    omega
  exact dif_neg hupper

/-- The first token begins where the text begins. -/
theorem head?_of_split {s t : String} {ts : List String} {c : Char} (h : split s = t :: ts)
    (hc : s.toList.head? = some c) (hspace : isSpace c = false) : t.toList.head? = some c := by
  obtain ⟨r, hr⟩ := List.head?_eq_some_iff.mp hc
  have hdrop : (c :: r).dropWhile isSpace = c :: r :=
    List.dropWhile_cons_of_neg (by rw [hspace]; exact Bool.false_ne_true)
  rw [split, hr, splitChars_eq, nextToken, hdrop] at h
  simp only [List.map_cons, List.cons.injEq] at h
  rw [← h.1, String.toList_ofList, List.takeWhile_cons_of_pos (by rw [hspace]; rfl)]
  rfl

/-- The words for the infinities and NaN begin with a letter. -/
theorem lower_ne_word {c : Char} (hd : c.isDigit = true) (r : List Char) (w : String) (d : Char)
    (hw : w.toList.head? = some d) (hwd : d.isDigit = false) :
    String.ofList ((c :: r).map Char.toLower) ≠ w := by
  rintro rfl
  rw [String.toList_ofList] at hw
  have hcd : c.toLower = d := Option.some.inj hw
  rw [← hcd, toLower_of_isDigit hd, hd] at hwd
  cases hwd

/-- A number that begins with a digit is finite. -/
theorem pyFloat_of_isDigit {t : String} {c : Char} {x : PyFloat} (hc : t.toList.head? = some c)
    (hd : c.isDigit = true) (h : pyFloat t = some x) : ∃ q, x = .fin q := by
  obtain ⟨r, hr⟩ : ∃ r, (strip t).toList = c :: r := by
    obtain ⟨r, hr⟩ := List.head?_eq_some_iff.mp hc
    apply List.head?_eq_some_iff.mp
    rw [head?_strip, toList_lstrip, hr,
      List.dropWhile_cons_of_neg (by rw [isDigit_not_isSpace hd]; exact Bool.false_ne_true)]
    rfl
  have hsign : signOf (c :: r) = (1, c :: r) := by
    unfold signOf
    split
    · rename_i heq
      obtain ⟨rfl, -⟩ := List.cons.inj heq
      cases hd
    · rename_i heq
      obtain ⟨rfl, -⟩ := List.cons.inj heq
      cases hd
    · rfl
  have hword := lower_ne_word hd r
  rw [pyFloat, hr, hsign] at h
  simp only [hword "inf" 'i' rfl rfl, hword "infinity" 'i' rfl rfl, hword "nan" 'n' rfl rfl,
    or_self, if_false] at h
  split at h
  · cases h
  · obtain ⟨q, -, rfl⟩ := Option.map_eq_some_iff.mp h
    exact ⟨q, rfl⟩

end PyText
