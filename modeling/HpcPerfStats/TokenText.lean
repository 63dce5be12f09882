/-
# Texts of tokens

Texts that are written token by token and line by line, and how the text operations of `PyText` read
them back.

* `ledBy sep ts` is the texts `ts`, each with a separator in front, `spaced ts` the tokens `ts`, each
  with a blank in front; `splitSep_append_ledBy` and `split_append_spaced` read a text and such a list
  back, and `splitMax_append_spaced` does so with a limit;
* `pyInt_toString` and `pyFloat_toString` read decimal numbers, `pyFloat_fixed` numbers with digits
  behind a point;
* `unlines ls` is the lines `ls`, each with a newline behind; `splitSep_unlines` reads them back.
-/
import HpcPerfStats.PyText
import Mathlib.Data.Rat.Lemmas

namespace TokenText

open PyText

/-! ## Tokens -/

/-- A text that is one token: not empty and without blanks. -/
def IsToken (s : String) : Prop :=
  s.toList ≠ [] ∧ (s.toList.all fun c => !isSpace c) = true

instance (s : String) : Decidable (IsToken s) :=
  inferInstanceAs (Decidable (_ ∧ _))

/-- Texts taken apart and put together again. -/
theorem map_ofList_toList (ts : List String) : (ts.map String.toList).map String.ofList = ts := by
  have hid : String.ofList ∘ String.toList = id := by
    funext u
    exact String.ofList_toList
  rw [List.map_map, hid, List.map_id]

/-- The texts, each behind a separator. -/
def ledBy (sep : Char) : List String → String
  | [] => ""
  | t :: ts => String.singleton sep ++ t ++ ledBy sep ts

/-- The tokens, each behind a blank. -/
def spaced (ts : List String) : String := ledBy ' ' ts

theorem ledBy_append (sep : Char) (ts us : List String) :
    ledBy sep (ts ++ us) = ledBy sep ts ++ ledBy sep us := by
  induction ts with
  | nil =>
      show ledBy sep us = "" ++ ledBy sep us
      rw [String.empty_append]
  | cons t ts ih =>
      rw [List.cons_append, ledBy, ledBy, ih, String.append_assoc, String.append_assoc,
        String.append_assoc]

theorem toList_ledBy_cons (sep : Char) (t : String) (ts : List String) :
    (ledBy sep (t :: ts)).toList = sep :: (t.toList ++ (ledBy sep ts).toList) := by
  rw [ledBy, String.toList_append, String.toList_append, String.toList_singleton]
  rfl

theorem IsToken.not_isSpace {s : String} (h : IsToken s) {c : Char} (hc : c ∈ s.toList) :
    isSpace c = false := by
  simpa using List.all_eq_true.mp h.2 c hc

/-- What follows a token: nothing, or a blank. -/
theorem head?_spaced (ts : List String) : ∀ c, (spaced ts).toList.head? = some c → isSpace c = true := by
  intro c hc
  cases ts with
  | nil => exact absurd hc (by simp [spaced, ledBy])
  | cons t ts =>
      rw [spaced, toList_ledBy_cons, List.head?_cons] at hc
      rw [← Option.some.inj hc]
      rfl

section NextToken

variable {t : List Char} (hne : t ≠ []) (ht : ∀ c ∈ t, isSpace c = false) {rest : List Char}
  (hrest : ∀ c, rest.head? = some c → isSpace c = true)

include ht

theorem takeWhile_token : ∀ {rest : List Char}, (∀ c, rest.head? = some c → isSpace c = true) →
    (t ++ rest).takeWhile (!isSpace ·) = t ∧ (t ++ rest).dropWhile (!isSpace ·) = rest := by
  intro rest hrest
  induction t with
  | nil =>
      cases rest with
      | nil => exact ⟨rfl, rfl⟩
      | cons c rest =>
          have hc : isSpace c = true := hrest c rfl
          constructor
          · exact List.takeWhile_cons_of_neg (by simp [hc])
          · exact List.dropWhile_cons_of_neg (by simp [hc])
  | cons c t ih =>
      have hc : isSpace c = false := ht c List.mem_cons_self
      obtain ⟨htake, hdrop⟩ := ih (fun d hd => ht d (List.mem_cons_of_mem c hd))
      constructor
      · rw [List.cons_append, List.takeWhile_cons_of_pos (by simp [hc]), htake]
      · rw [List.cons_append, List.dropWhile_cons_of_pos (by simp [hc]), hdrop]

include hne

theorem dropWhile_token : (t ++ rest).dropWhile isSpace = t ++ rest := by
  cases t with
  | nil => exact absurd rfl hne
  | cons c t =>
      have hc : isSpace c = false := ht c List.mem_cons_self
      exact List.dropWhile_cons_of_neg (by simp [hc])

include hrest

/-- A token is read back, and what follows is left. -/
theorem nextToken_token : nextToken (t ++ rest) = some (t, rest) := by
  obtain ⟨htake, hdrop⟩ := takeWhile_token ht hrest
  have hfront : (t ++ rest).dropWhile isSpace = t ++ rest := dropWhile_token hne ht
  unfold nextToken
  rw [hfront]
  cases hcs : t ++ rest with
  | nil => exact absurd (List.append_eq_nil_iff.mp hcs).1 hne
  | cons c cs =>
      dsimp only
      rw [← hcs, htake, hdrop]

end NextToken

theorem splitChars_spaced {ts : List String} (hts : ∀ u ∈ ts, IsToken u) :
    splitChars (spaced ts).toList = ts.map String.toList := by
  induction ts with
  | nil => rfl
  | cons t ts ih =>
      have ht := hts t List.mem_cons_self
      rw [spaced, toList_ledBy_cons, ← splitChars_dropWhile, List.dropWhile_cons_of_pos (by rfl),
        splitChars_dropWhile, splitChars_eq, ← spaced,
        nextToken_token ht.1 (fun c hc => ht.not_isSpace hc) (head?_spaced ts)]
      dsimp only
      rw [ih (fun u hu => hts u (List.mem_cons_of_mem t hu)), List.map_cons]

/-- **A token and the tokens behind it are read back.** -/
theorem split_append_spaced {t : String} {ts : List String} (ht : IsToken t)
    (hts : ∀ u ∈ ts, IsToken u) : split (t ++ spaced ts) = t :: ts := by
  unfold split
  rw [String.toList_append, splitChars_eq,
    nextToken_token ht.1 (fun c hc => ht.not_isSpace hc) (head?_spaced ts)]
  dsimp only
  rw [splitChars_spaced hts, List.map_cons, String.ofList_toList, map_ofList_toList]

/-- With a limit, what is behind it is kept as one text of the remaining tokens. -/
theorem splitMax_append_spaced {t : String} {ts : List String} (ht : IsToken t)
    (hts : ∀ u ∈ ts, IsToken u) {k : ℕ} (hk : k < (t :: ts).length) :
    ∃ rest, splitMax k (t ++ spaced ts) = (t :: ts).take k ++ [rest] ∧
      split rest = (t :: ts).drop k := by
  have hsplit := split_append_spaced ht hts
  rcases splitMax_eq_split k (t ++ spaced ts) with ⟨hlen, -⟩ | ⟨-, rest, heq, hrest⟩
  · rw [hsplit] at hlen
    omega
  · rw [hsplit] at heq hrest
    exact ⟨rest, heq, hrest⟩

/-- A text that begins with a token has no blanks to strip. -/
theorem lstrip_token_append {t : String} (ht : IsToken t) (s : String) : lstrip (t ++ s) = t ++ s := by
  apply String.toList_injective
  rw [toList_lstrip, String.toList_append]
  exact dropWhile_token ht.1 (fun c hc => ht.not_isSpace hc)

theorem head?_token_append {t : String} (ht : IsToken t) (s : String) :
    (t ++ s).toList.head? = t.toList.head? := by
  obtain ⟨c, cs, hcs⟩ := List.exists_cons_of_ne_nil ht.1
  rw [String.toList_append, hcs]
  rfl

/-! ## Parts at a separator -/

theorem splitSepChars_self {sep : Char} {t : List Char} (ht : sep ∉ t) :
    splitSepChars sep t = [t] := by
  induction t with
  | nil => rfl
  | cons c t ih =>
      have hc : ¬ c = sep := fun h => ht (h ▸ List.mem_cons_self)
      rw [splitSepChars, if_neg hc, ih (fun h => ht (List.mem_cons_of_mem c h))]

theorem splitSepChars_cons {sep : Char} {t : List Char} (ht : sep ∉ t) (rest : List Char) :
    splitSepChars sep (t ++ sep :: rest) = t :: splitSepChars sep rest := by
  induction t with
  | nil => rw [List.nil_append, splitSepChars, if_pos rfl]
  | cons c t ih =>
      have hc : ¬ c = sep := fun h => ht (h ▸ List.mem_cons_self)
      rw [List.cons_append, splitSepChars, if_neg hc, ih (fun h => ht (List.mem_cons_of_mem c h))]

/-- **Parts behind separators are read back.** -/
theorem splitSep_append_ledBy {sep : Char} {t : String} {ts : List String} (ht : sep ∉ t.toList)
    (hts : ∀ u ∈ ts, sep ∉ u.toList) : splitSep sep (t ++ ledBy sep ts) = t :: ts := by
  have hchars : ∀ (t : List Char), sep ∉ t →
      splitSepChars sep (t ++ (ledBy sep ts).toList) = t :: ts.map String.toList := by
    induction ts with
    | nil =>
        intro t ht
        show splitSepChars sep (t ++ []) = [t]
        rw [List.append_nil]
        exact splitSepChars_self ht
    | cons u us ih =>
        intro t ht
        rw [toList_ledBy_cons, splitSepChars_cons ht,
          ih (fun v hv => hts v (List.mem_cons_of_mem u hv)) _ (hts u List.mem_cons_self)]
        rfl
  unfold splitSep
  rw [String.toList_append, hchars t.toList ht, List.map_cons, String.ofList_toList, map_ofList_toList]

/-- The text in front of the first separator. -/
theorem beforeSep_append_ledBy {sep : Char} {t : String} (ht : sep ∉ t.toList) (ts : List String) :
    beforeSep sep (t ++ ledBy sep ts) = t := by
  have hall : ∀ c ∈ t.toList, (c != sep) = true := by
    intro c hc
    rw [bne_iff_ne]
    rintro rfl
    exact ht hc
  unfold beforeSep
  rw [String.toList_append, List.takeWhile_append_of_pos hall]
  cases ts with
  | nil => simp [ledBy]
  | cons u us =>
      rw [toList_ledBy_cons, List.takeWhile_cons_of_neg (by simp), List.append_nil,
        String.ofList_toList]

/-! ## Numbers -/

/-- Digits are read as the number they write. -/
theorem digitsGo_eq (acc : ℕ) {cs : List Char} (h : ∀ c ∈ cs, c.isDigit = true) :
    digitsGo acc cs = some (Nat.ofDigitChars 10 cs acc) := by
  induction cs generalizing acc with
  | nil => rfl
  | cons c cs ih =>
      have hc : c.isDigit = true := h c List.mem_cons_self
      have hne : c ≠ '_' := by
        rintro rfl
        exact absurd hc (by decide)
      have hstep : digitsGo acc (c :: cs) = digitsGo (acc * 10 + digitVal c) cs := by
        rw [digitsGo.eq_def]
        split
        · next heq => exact absurd heq (by simp)
        · next heq => exact absurd (List.cons.inj heq).1 hne
        · next d ds heq =>
            obtain ⟨rfl, rfl⟩ := List.cons.inj heq
            rw [if_pos hc]
      rw [hstep, ih _ (fun d hd => h d (List.mem_cons_of_mem c hd)), Nat.ofDigitChars_cons,
        Nat.mul_comm acc 10]
      rfl

theorem digits_eq {cs : List Char} (hne : cs ≠ []) (h : ∀ c ∈ cs, c.isDigit = true) :
    digits cs = some (Nat.ofDigitChars 10 cs 0) := by
  cases cs with
  | nil => exact absurd rfl hne
  | cons c cs =>
      have hc : c.isDigit = true := h c List.mem_cons_self
      rw [digits, if_pos hc, digitsGo_eq _ (fun d hd => h d (List.mem_cons_of_mem c hd)),
        Nat.ofDigitChars_cons, Nat.mul_zero, Nat.zero_add]
      rfl

theorem isToken_of_isDigit {cs : List Char} (hne : cs ≠ []) (h : ∀ c ∈ cs, c.isDigit = true) :
    IsToken (String.ofList cs) := by
  unfold IsToken
  rw [String.toList_ofList]
  refine ⟨hne, List.all_eq_true.mpr ?_⟩
  intro c hc
  rw [isDigit_not_isSpace (h c hc)]
  rfl

theorem isDigit_of_mem_toString {n : ℕ} {c : Char} (hc : c ∈ (toString n).toList) :
    c.isDigit = true := by
  rw [Nat.toString_eq_ofList_toDigits, String.toList_ofList] at hc
  exact Nat.isDigit_of_mem_toDigits (by decide) (by decide) hc

theorem toString_ne_nil (n : ℕ) : (toString n).toList ≠ [] := by
  rw [Nat.toString_eq_ofList_toDigits, String.toList_ofList]
  exact Nat.toDigits_ne_nil

theorem ofDigitChars_toString (n : ℕ) : Nat.ofDigitChars 10 (toString n).toList 0 = n := by
  rw [Nat.toString_eq_ofList_toDigits, String.toList_ofList]
  exact Nat.ofDigitChars_ten_toDigits

theorem isToken_toString (n : ℕ) : IsToken (toString n) := by
  have h := isToken_of_isDigit (toString_ne_nil n) fun c hc => isDigit_of_mem_toString hc
  rwa [String.ofList_toList] at h

/-- A token has no blanks at either end. -/
theorem strip_token {t : String} (ht : IsToken t) : strip t = t := by
  have hl : lstrip t = t := by
    have h := lstrip_token_append ht ""
    rwa [String.append_empty] at h
  unfold strip
  rw [hl]
  apply String.toList_injective
  rw [toList_rstrip, List.rdropWhile_eq_self_iff]
  intro hne
  rw [ht.not_isSpace (List.getLast_mem hne)]
  exact Bool.false_ne_true

theorem signOf_of_isDigit {cs : List Char} (h : ∀ c, cs.head? = some c → c.isDigit = true) :
    signOf cs = (1, cs) := by
  unfold signOf
  split
  · exact absurd (h '-' rfl) (by decide)
  · exact absurd (h '+' rfl) (by decide)
  · rfl

theorem pyInt_toString (n : ℕ) : pyInt (toString n) = some (n : ℤ) := by
  have hdigits := digits_eq (toString_ne_nil n) fun c hc => isDigit_of_mem_toString hc
  unfold pyInt
  rw [strip_token (isToken_toString n), signOf_of_isDigit]
  · dsimp only
    rw [hdigits, ofDigitChars_toString]
    simp
  · intro c hc
    exact isDigit_of_mem_toString (List.mem_of_mem_head? hc)

theorem toList_toString_int (n : ℤ) : (toString n).toList =
    if n < 0 then '-' :: (toString n.natAbs).toList else (toString n.natAbs).toList := by
  cases n with
  | ofNat m =>
      have hm : ¬ (Int.ofNat m < 0) := by simp
      rw [if_neg hm]
      rfl
  | negSucc m =>
      rw [if_pos (Int.negSucc_lt_zero m), Int.natAbs_negSucc]
      show ("-" ++ toString (m + 1)).toList = _
      rw [String.toList_append]
      rfl

/-- `int(str(n)) == n`. -/
theorem pyInt_toString_int (n : ℤ) : pyInt (toString n) = some n := by
  have htext := toList_toString_int n
  by_cases hn : n < 0
  · have hdigits := digits_eq (toString_ne_nil n.natAbs) fun c hc => isDigit_of_mem_toString hc
    rw [if_pos hn] at htext
    have htoken : IsToken (toString n) := by
      refine ⟨by rw [htext]; exact List.cons_ne_nil _ _, ?_⟩
      rw [htext, List.all_cons]
      have h := (isToken_toString n.natAbs).2
      rw [h]
      rfl
    unfold pyInt
    rw [strip_token htoken, htext, signOf]
    dsimp only
    rw [hdigits, ofDigitChars_toString]
    show some (-1 * (n.natAbs : ℤ)) = some n
    congr 1
    omega
  · rw [if_neg hn] at htext
    rw [String.toList_inj.mp htext, pyInt_toString]
    congr 1
    omega

/-- Digits and points are read as a decimal number without an exponent. -/
theorem pyFloat_eq_decimal {s : String} (ht : IsToken s)
    (hfirst : ∀ c, s.toList.head? = some c → c.isDigit = true)
    (hchars : ∀ c ∈ s.toList, c.isDigit = true ∨ c = '.') :
    pyFloat s = (decimal 1 (s.toList.takeWhile (· != '.')) (s.toList.dropWhile (· != '.')).tail
      0).map .fin := by
  have hnotE : ∀ c ∈ s.toList, (!(c == 'e' || c == 'E')) = true := by
    intro c hc
    rcases hchars c hc with hd | rfl
    · have hne : c ≠ 'e' ∧ c ≠ 'E' := by
        constructor
        · rintro rfl
          exact absurd hd (by decide)
        · rintro rfl
          exact absurd hd (by decide)
      simp [hne]
    · rfl
  obtain ⟨d, cs, hcs⟩ := List.exists_cons_of_ne_nil ht.1
  have hd : d.isDigit = true := hfirst d (by rw [hcs]; rfl)
  unfold pyFloat
  rw [strip_token ht, signOf_of_isDigit hfirst]
  dsimp only
  rw [hcs, if_neg (by
      rintro (h | h)
      · exact lower_ne_word hd cs "inf" 'i' rfl rfl h
      · exact lower_ne_word hd cs "infinity" 'i' rfl rfl h),
    if_neg (lower_ne_word hd cs "nan" 'n' rfl rfl), ← hcs, List.takeWhile_eq_self_iff.mpr hnotE,
    List.dropWhile_eq_nil_iff.mpr hnotE]
  rfl

theorem takeWhile_point {cs rest : List Char} (h : ∀ c ∈ cs, c.isDigit = true)
    (hrest : ∀ c, rest.head? = some c → c = '.') :
    (cs ++ rest).takeWhile (· != '.') = cs ∧ (cs ++ rest).dropWhile (· != '.') = rest := by
  induction cs with
  | nil =>
      cases rest with
      | nil => exact ⟨rfl, rfl⟩
      | cons c rest =>
          obtain rfl := hrest c rfl
          exact ⟨rfl, rfl⟩
  | cons c cs ih =>
      have hc : (c != '.') = true := by
        rw [bne_iff_ne]
        rintro rfl
        exact absurd (h '.' List.mem_cons_self) (by decide)
      obtain ⟨htake, hdrop⟩ := ih (fun d hd => h d (List.mem_cons_of_mem c hd))
      constructor
      · rw [List.cons_append, List.takeWhile_cons_of_pos (p := (· != '.')) hc, htake]
      · rw [List.cons_append, List.dropWhile_cons_of_pos (p := (· != '.')) hc, hdrop]

/-- Digits are read as the number they write. -/
theorem pyFloat_of_digits {s : String} (hne : s.toList ≠ [])
    (hdigit : ∀ c ∈ s.toList, c.isDigit = true) :
    pyFloat s = some (.fin (Nat.ofDigitChars 10 s.toList 0 : ℕ)) := by
  have htoken : IsToken s := by
    have h := isToken_of_isDigit hne hdigit
    rwa [String.ofList_toList] at h
  have hpoint : (s.toList ++ []).takeWhile (· != '.') = s.toList ∧
      (s.toList ++ []).dropWhile (· != '.') = [] :=
    takeWhile_point hdigit (by simp)
  rw [List.append_nil] at hpoint
  rw [pyFloat_eq_decimal htoken (fun c hc => hdigit c (List.mem_of_mem_head? hc))
    (fun c hc => Or.inl (hdigit c hc)), hpoint.1, hpoint.2]
  unfold decimal
  rw [digits_eq hne hdigit]
  simp [hne, Rat.mkRat_one]

/-- A decimal number is read as itself. -/
theorem pyFloat_toString (n : ℕ) : pyFloat (toString n) = some (.fin n) := by
  rw [pyFloat_of_digits (toString_ne_nil n) fun c hc => isDigit_of_mem_toString hc,
    ofDigitChars_toString]

theorem isToken_fixed (w : ℕ) {f : String} (hf : ∀ c ∈ f.toList, c.isDigit = true) :
    IsToken (toString w ++ "." ++ f) := by
  unfold IsToken
  rw [String.toList_append, String.toList_append]
  constructor
  · simp
  · rw [List.all_append, List.all_append, (isToken_toString w).2]
    have hall : (f.toList.all fun c => !isSpace c) = true := by
      rw [List.all_eq_true]
      intro c hc
      rw [isDigit_not_isSpace (hf c hc)]
      rfl
    rw [hall]
    rfl

/-- Digits with digits behind a point are read as a fraction. -/
theorem pyFloat_fixed (w : ℕ) {f : String} (hne : f.toList ≠ [])
    (hf : ∀ c ∈ f.toList, c.isDigit = true) :
    pyFloat (toString w ++ "." ++ f) =
      some (.fin (mkRat (w * 10 ^ f.toList.length + Nat.ofDigitChars 10 f.toList 0)
        (10 ^ f.toList.length))) := by
  have hw : ∀ c ∈ (toString w).toList, c.isDigit = true := fun c hc => isDigit_of_mem_toString hc
  have hchars : (toString w ++ "." ++ f).toList = (toString w).toList ++ '.' :: f.toList := by
    rw [String.toList_append, String.toList_append, List.append_assoc]
    rfl
  have hpoint : ((toString w).toList ++ '.' :: f.toList).takeWhile (· != '.') =
        (toString w).toList ∧
      ((toString w).toList ++ '.' :: f.toList).dropWhile (· != '.') = '.' :: f.toList :=
    takeWhile_point hw (by
      intro c hc
      exact (Option.some.inj hc).symm)
  rw [pyFloat_eq_decimal (isToken_fixed w hf), hchars, hpoint.1, hpoint.2]
  · have hlen : (f.toList.filter Char.isDigit).length = f.toList.length := by
      rw [List.filter_eq_self.mpr hf]
    have hwe : (toString w).toList.isEmpty = false := by
      rw [List.isEmpty_eq_false_iff]
      exact toString_ne_nil w
    have hfe : f.toList.isEmpty = false := by
      rw [List.isEmpty_eq_false_iff]
      exact hne
    unfold decimal
    rw [List.tail_cons, digits_eq (toString_ne_nil w) hw, ofDigitChars_toString, digits_eq hne hf, hlen,
      hwe, hfe]
    simp
  · intro c hc
    rw [hchars] at hc
    obtain ⟨d, ds, hds⟩ := List.exists_cons_of_ne_nil (toString_ne_nil w)
    rw [hds, List.cons_append, List.head?_cons] at hc
    rw [← Option.some.inj hc]
    exact hw d (by rw [hds]; exact List.mem_cons_self)
  · intro c hc
    rw [hchars] at hc
    rcases List.mem_append.mp hc with hc | hc
    · exact Or.inl (hw c hc)
    · rcases List.mem_cons.mp hc with rfl | hc
      · exact Or.inr rfl
      · exact Or.inl (hf c hc)

/-! ## Lines -/

/-- The lines, each with a newline behind it. -/
def unlines : List String → String
  | [] => ""
  | l :: ls => l ++ "\n" ++ unlines ls

theorem unlines_append (ls ms : List String) : unlines (ls ++ ms) = unlines ls ++ unlines ms := by
  induction ls with
  | nil =>
      show unlines ms = "" ++ unlines ms
      rw [String.empty_append]
  | cons l ls ih =>
      rw [List.cons_append, unlines, unlines, ih, String.append_assoc, String.append_assoc,
        String.append_assoc]

/-- **Lines are read back**, with an empty one behind the last newline. -/
theorem splitSep_unlines {ls : List String} (h : ∀ l ∈ ls, '\n' ∉ l.toList) :
    splitSep '\n' (unlines ls) = ls ++ [""] := by
  induction ls with
  | nil => rfl
  | cons l ls ih =>
      have hchars : (unlines (l :: ls)).toList = l.toList ++ '\n' :: (unlines ls).toList := by
        rw [unlines, String.toList_append, String.toList_append, List.append_assoc]
        rfl
      have ih := ih fun m hm => h m (List.mem_cons_of_mem l hm)
      unfold splitSep at ih ⊢
      rw [hchars, splitSepChars_cons (h l List.mem_cons_self), List.map_cons, ih,
        String.ofList_toList]
      rfl

/-- The parts of a text hold no separator. -/
theorem not_mem_of_mem_splitSep {sep : Char} {s part : String} (h : part ∈ splitSep sep s) :
    sep ∉ part.toList := by
  obtain ⟨cs, hcs, rfl⟩ := List.mem_map.mp h
  rw [String.toList_ofList]
  clear h
  generalize s.toList = text at hcs
  induction text generalizing cs with
  | nil =>
      rw [splitSepChars, List.mem_singleton] at hcs
      rw [hcs]
      exact List.not_mem_nil
  | cons c text ih =>
      rw [splitSepChars] at hcs
      split_ifs at hcs with hc
      · rcases List.mem_cons.mp hcs with rfl | hcs
        · exact List.not_mem_nil
        · exact ih _ hcs
      · split at hcs
        · rename_i hnil
          exact absurd hnil (splitSepChars_ne_nil sep text)
        · rename_i p ps hparts
          rcases List.mem_cons.mp hcs with rfl | hcs
          · rintro (_ | ⟨_, hmem⟩)
            · exact hc rfl
            · exact ih p (by rw [hparts]; exact List.mem_cons_self) hmem
          · exact ih _ (by rw [hparts]; exact List.mem_cons_of_mem p hcs)

/-- Spaced tokens are one line. -/
theorem newline_not_mem_spaced {t : String} {ts : List String} (ht : IsToken t)
    (hts : ∀ u ∈ ts, IsToken u) : '\n' ∉ (t ++ spaced ts).toList := by
  have htoken : ∀ {u : String}, IsToken u → '\n' ∉ u.toList := by
    intro u hu hmem
    exact absurd (hu.not_isSpace hmem) (by decide)
  rw [String.toList_append, List.mem_append, not_or]
  refine ⟨htoken ht, ?_⟩
  unfold spaced
  induction ts with
  | nil => exact List.not_mem_nil
  | cons u ts ih =>
      rw [toList_ledBy_cons, List.mem_cons, List.mem_append, not_or, not_or]
      exact ⟨by decide, htoken (hts u List.mem_cons_self),
        ih fun v hv => hts v (List.mem_cons_of_mem u hv)⟩

/-- What is split off in front has no blanks. -/
theorem not_isSpace_of_mem_splitMax {k : ℕ} {s u : String} (h : u ∈ (splitMax k s).take k) {c : Char}
    (hc : c ∈ u.toList) : isSpace c = false := by
  unfold splitMax at h
  rw [← List.map_take] at h
  obtain ⟨cs, hcs, rfl⟩ := List.mem_map.mp h
  rw [String.toList_ofList] at hc
  clear h
  generalize s.toList = text at hcs
  induction k generalizing text with
  | zero => exact absurd hcs (by rw [List.take_zero]; exact List.not_mem_nil)
  | succ k ih =>
      rw [splitMaxChars] at hcs
      split at hcs
      · exact absurd hcs List.not_mem_nil
      · rename_i t r hnext
        rw [List.take_succ_cons] at hcs
        rcases List.mem_cons.mp hcs with rfl | hcs
        · unfold nextToken at hnext
          split at hnext
          · cases hnext
          · obtain ⟨rfl, -⟩ := Prod.mk.inj (Option.some.inj hnext)
            simpa using List.mem_takeWhile_imp hc
        · exact ih _ hcs

/-- The characters of a token are those of the text. -/
theorem mem_of_mem_split {s t : String} (h : t ∈ split s) {c : Char} (hc : c ∈ t.toList) :
    c ∈ s.toList := by
  unfold split splitChars at h
  obtain ⟨cs, hcs, rfl⟩ := List.mem_map.mp h
  rw [String.toList_ofList] at hc
  clear h
  generalize s.toList.length = k at hcs
  generalize s.toList = text at hcs ⊢
  have hdrop : ∀ {d : Char} {r : List Char}, text.dropWhile isSpace = d :: r →
      ∀ x ∈ d :: r, x ∈ text := by
    intro d r hdr x hx
    exact (List.dropWhile_suffix isSpace).subset (hdr ▸ hx)
  induction k generalizing text with
  | zero =>
      rw [splitMaxChars] at hcs
      split at hcs
      · cases hcs
      · rename_i d r hdr
        rw [List.mem_singleton.mp hcs] at hc
        exact hdrop hdr c hc
  | succ k ih =>
      rw [splitMaxChars] at hcs
      split at hcs
      · cases hcs
      · rename_i u r hnext
        unfold nextToken at hnext
        split at hnext
        · cases hnext
        · rename_i d r' hdr
          obtain ⟨rfl, rfl⟩ := Prod.mk.inj (Option.some.inj hnext)
          rcases List.mem_cons.mp hcs with rfl | hcs
          · exact hdrop hdr c ((List.takeWhile_prefix _).subset hc)
          · refine hdrop hdr c ((List.dropWhile_suffix (!isSpace ·)).subset ?_)
            exact ih _ hcs fun hdr' x hx => (List.dropWhile_suffix isSpace).subset (hdr' ▸ hx)

end TokenText
