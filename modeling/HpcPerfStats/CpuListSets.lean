/-
# The sets that CPU lists denote

`listSet` is the set of a list, without a bound on its numbers.  The four functions of the affinity module read and
write the same syntax each in its own loop, and agree on it:

* `readRanges_mem_readNumbers`: the scan for the highest number meets the end of every range that the parser reads,
  so that within a subtraction every list that denotes a set is parsed into it (`parseCpulistInto_subtractNcpus`);
* `cpuDevInList_listText_iff`: a device passes a list exactly when the CPU that it names is in one of the ranges;
* `formatCpulist_text`: the text of a set is written in full or the writer fails.
-/
import Mathlib.Data.Finset.Basic
import HpcPerfStats.CpuList

namespace CpuList

/-! ## What `strtol` leaves -/

theorem strtol_value_lt {cs : List Char} {v : Strtol} (h : strtol cs = some v) : v.value < 2 ^ 63 := by
  unfold strtol at h
  simp only at h
  split_ifs at h
  all_goals
    obtain rfl := Option.some.inj h
    simp only [clampLong]
    omega

theorem length_takeSign_le (cs : List Char) : (takeSign cs).2.length ≤ cs.length := by
  unfold takeSign
  split
  · exact Nat.le_succ _
  · exact Nat.le_succ _
  · exact le_rfl

/-- A number takes a character at least. -/
theorem length_rest_lt {cs : List Char} {v : Strtol} (h : strtol cs = some v) : v.rest.length < cs.length := by
  unfold strtol at h
  simp only at h
  split at h
  · cases h
  · rename_i hdigits
    have hrest : v.rest = (takeSign (cs.dropWhile isSpaceC)).2.dropWhile Char.isDigit := by
      rw [← Option.some.inj h]
    have hpos : 0 < ((takeSign (cs.dropWhile isSpaceC)).2.takeWhile Char.isDigit).length :=
      List.length_pos_iff.mpr (by simpa using hdigits)
    have hsplit := congrArg List.length
      (List.takeWhile_append_dropWhile (p := Char.isDigit) (l := (takeSign (cs.dropWhile isSpaceC)).2))
    rw [List.length_append] at hsplit
    have hsign := length_takeSign_le (cs.dropWhile isSpaceC)
    have hspace := List.length_dropWhile_le isSpaceC cs
    rw [hrest]
    omega

theorem strtol_nil : strtol [] = none := rfl

theorem strtol_cons_space {c : Char} (hc : isSpaceC c = true) (cs : List Char) : strtol (c :: cs) = strtol cs := by
  unfold strtol
  rw [List.dropWhile_cons_of_pos hc]

theorem strtol_comma (cs : List Char) : strtol (',' :: cs) = none := rfl

/-- Behind a minus sign only a zero is not negative. -/
theorem strtol_minus {cs : List Char} {v : Strtol} (h : strtol ('-' :: cs) = some v) (hv : 0 ≤ v.value) :
    strtol cs = some v ∧ ∃ c cs', cs = c :: cs' ∧ c.isDigit = true := by
  have hcode : strtol ('-' :: cs) = if (cs.takeWhile Char.isDigit).isEmpty then none else
      some ⟨clampLong (-(Nat.ofDigitChars 10 (cs.takeWhile Char.isDigit) 0 : ℤ)),
        clampLong (-(Nat.ofDigitChars 10 (cs.takeWhile Char.isDigit) 0 : ℤ)) !=
          -(Nat.ofDigitChars 10 (cs.takeWhile Char.isDigit) 0 : ℤ), cs.dropWhile Char.isDigit⟩ := rfl
  rw [hcode] at h
  split_ifs at h with hdigits
  obtain rfl := Option.some.inj h
  cases cs with
  | nil => exact absurd rfl hdigits
  | cons c cs' =>
      have hc : c.isDigit = true := by
        by_contra hno
        rw [List.takeWhile_cons_of_neg hno] at hdigits
        exact hdigits rfl
      refine ⟨?_, c, cs', rfl, hc⟩
      have hzero : (Nat.ofDigitChars 10 ((c :: cs').takeWhile Char.isDigit) 0 : ℤ) = 0 := by
        simp only [clampLong] at hv
        omega
      have hplus : strtol (c :: cs') = if ((c :: cs').takeWhile Char.isDigit).isEmpty then none else
          some ⟨clampLong (Nat.ofDigitChars 10 ((c :: cs').takeWhile Char.isDigit) 0),
            clampLong (Nat.ofDigitChars 10 ((c :: cs').takeWhile Char.isDigit) 0) !=
              Nat.ofDigitChars 10 ((c :: cs').takeWhile Char.isDigit) 0, (c :: cs').dropWhile Char.isDigit⟩ := by
        unfold strtol
        rw [List.dropWhile_cons_of_neg (by simp [isSpaceC_of_isDigit hc]), takeSign_digit hc]
        simp only [Bool.false_eq_true, if_false]
      rw [hplus, if_neg hdigits, hzero, neg_zero]

/-- **A number is read behind what the scan skips.**  The scan skips more than `strtol`, signs among it. -/
theorem strtol_dropWhile_skipNumber {v : Strtol} (hv : 0 ≤ v.value) : ∀ {cs : List Char}, strtol cs = some v →
    strtol (cs.dropWhile skipNumber) = some v := by
  intro cs
  induction cs with
  | nil => exact id
  | cons c cs ih =>
      intro h
      by_cases hc : skipNumber c = true
      · rw [List.dropWhile_cons_of_pos hc]
        unfold skipNumber at hc
        simp only [Bool.or_eq_true, beq_iff_eq] at hc
        rcases hc with (((rfl | rfl) | rfl) | rfl) | rfl
        · rw [strtol_comma] at h
          cases h
        · exact ih (by rwa [strtol_cons_space (by decide)] at h)
        · exact ih (strtol_minus h hv).1
        · exact ih (by rwa [strtol_cons_space (by decide)] at h)
        · exact ih (by rwa [strtol_cons_space (by decide)] at h)
      · rwa [List.dropWhile_cons_of_neg hc]

/-! ## The scan for the highest number -/

theorem readNumbers_of_strtol {cs : List Char} {v : Strtol} (h : strtol cs = some v) (hv : 0 ≤ v.value) (k : ℕ) :
    readNumbers (k + 1) cs = v.value :: readNumbers k v.rest := by
  have hread := strtol_dropWhile_skipNumber hv h
  rw [readNumbers.eq_def]
  cases hdrop : cs.dropWhile skipNumber with
  | nil =>
      rw [hdrop, strtol_nil] at hread
      cases hread
  | cons c cs' =>
      rw [hdrop] at hread
      simp only [hdrop, hread]

theorem dropWhile_dropWhile_of_imp {α : Type} {p q : α → Bool} (h : ∀ a, p a = true → q a = true) (l : List α) :
    (l.dropWhile p).dropWhile q = l.dropWhile q := by
  induction l with
  | nil => rfl
  | cons a l ih =>
      by_cases ha : p a = true
      · rw [List.dropWhile_cons_of_pos ha, List.dropWhile_cons_of_pos (h a ha), ih]
      · rw [List.dropWhile_cons_of_neg ha]

theorem readNumbers_congr {cs cs' : List Char} (h : cs.dropWhile skipNumber = cs'.dropWhile skipNumber) (k : ℕ) :
    readNumbers k cs = readNumbers k cs' := by
  cases k with
  | zero => rfl
  | succ k =>
      rw [readNumbers.eq_def, readNumbers.eq_def (k + 1) cs']
      simp only [h]

theorem skipNumber_of_skipParse (c : Char) (h : skipParse c = true) : skipNumber c = true := by
  unfold skipParse at h
  unfold skipNumber
  simp only [Bool.or_eq_true, beq_iff_eq] at h ⊢
  rcases h with ((h | h) | h) | h
  · exact Or.inl (Or.inl (Or.inl (Or.inl h)))
  · exact Or.inl (Or.inl (Or.inl (Or.inr h)))
  · exact Or.inl (Or.inr h)
  · exact Or.inr h

/-- The scan goes over a range: it meets the end of the range, and goes on behind it. -/
theorem readNumbers_of_readRange {cs rest : List Char} {r : ℤ × ℤ} (h : readRange cs = some (r, rest)) {k : ℕ}
    (hk : cs.length ≤ k) : rest.length < cs.length ∧ r.2 < 2 ^ 63 ∧
      ∃ k', rest.length ≤ k' ∧ r.2 ∈ readNumbers k cs ∧ ∀ v ∈ readNumbers k' rest, v ∈ readNumbers k cs := by
  unfold readRange at h
  cases ha : strtol cs with
  | none =>
      rw [ha] at h
      cases h
  | some a =>
      rw [ha] at h
      have hlen := length_rest_lt ha
      obtain ⟨k, rfl⟩ : ∃ n, k = n + 1 := ⟨k - 1, by omega⟩
      simp only at h
      split_ifs at h with hneg
      have hscan := readNumbers_of_strtol ha (by omega) k
      split at h
      · rename_i behind hminus
        cases hb : strtol behind with
        | none =>
            rw [hb] at h
            cases h
        | some b =>
            rw [hb] at h
            simp only at h
            split_ifs at h with hlt
            obtain ⟨rfl, rfl⟩ := Prod.mk.inj (Option.some.inj h)
            have hlenB := length_rest_lt hb
            rw [hminus, List.length_cons] at hlen
            obtain ⟨k, rfl⟩ : ∃ n, k = n + 1 := ⟨k - 1, by omega⟩
            -- the scan skips the `-` between the two numbers
            have hskip : readNumbers (k + 1) ('-' :: behind) = readNumbers (k + 1) behind :=
              readNumbers_congr (List.dropWhile_cons_of_pos (by rfl)) _
            rw [hminus, hskip, readNumbers_of_strtol hb (by omega)] at hscan
            rw [hscan]
            exact ⟨by omega, strtol_value_lt hb, k, by omega, List.mem_cons_of_mem _ List.mem_cons_self,
              fun v hv => List.mem_cons_of_mem _ (List.mem_cons_of_mem _ hv)⟩
      · obtain ⟨rfl, rfl⟩ := Prod.mk.inj (Option.some.inj h)
        rw [hscan]
        exact ⟨hlen, strtol_value_lt ha, k, by omega, List.mem_cons_self, fun v hv => List.mem_cons_of_mem _ hv⟩

/-- **The scan meets every range** of a list that is read to its end. -/
theorem readRanges_mem_readNumbers : ∀ (fuel : ℕ) (cs : List Char) (k : ℕ), (readRanges skipParse fuel cs).2 = true →
    cs.length ≤ k → ∀ r ∈ (readRanges skipParse fuel cs).1, r.2 < 2 ^ 63 ∧ r.2 ∈ readNumbers k cs := by
  intro fuel
  induction fuel with
  | zero =>
      rintro cs k - - r ⟨⟩
  | succ fuel ih =>
      intro cs k hall hk
      have hdropLen := List.length_dropWhile_le skipParse cs
      have hsame : readNumbers k (cs.dropWhile skipParse) = readNumbers k cs :=
        readNumbers_congr (dropWhile_dropWhile_of_imp skipNumber_of_skipParse cs) k
      rw [readRanges.eq_def] at hall ⊢
      simp only at hall ⊢
      cases hdrop : cs.dropWhile skipParse with
      | nil =>
          rintro r ⟨⟩
      | cons c cs' =>
          rw [hdrop] at hall hdropLen hsame
          simp only at hall ⊢
          cases hrange : readRange (c :: cs') with
          | none =>
              rw [hrange] at hall
              cases hall
          | some p =>
              obtain ⟨r, rest⟩ := p
              rw [hrange] at hall
              simp only at hall ⊢
              obtain ⟨hlen, hlt, k', hk', hmem, hmore⟩ := readNumbers_of_readRange hrange (le_trans hdropLen hk)
              rw [hsame] at hmem hmore
              intro r' hr'
              rcases List.mem_cons.mp hr' with rfl | hr'
              · exact ⟨hlt, hmem⟩
              · obtain ⟨hlt', hmem'⟩ := ih rest k' hall hk' r' hr'
                exact ⟨hlt', hmore _ hmem'⟩

/-! ## The set of a list -/

/-- The set that a list denotes; `none` for a list that is malformed. -/
def listSet (list : List Char) : Option (ℕ → Bool) :=
  let read := readRanges skipParse list.length list
  if read.2 then some fun cpu => read.1.any (inRange cpu) else none

/-- A list that denotes a set is parsed into it when the bound is above its ranges. -/
theorem parseCpulistInto_eq_listSet {list : List Char} {ncpus : ℕ} (h : (readRanges skipParse list.length list).2 = true →
    ∀ r ∈ (readRanges skipParse list.length list).1, r.2 < ncpus) : parseCpulistInto list ncpus = listSet list := by
  unfold parseCpulistInto listSet
  simp only
  cases hall : (readRanges skipParse list.length list).2 with
  | false => rfl
  | true =>
      have hbound : ((readRanges skipParse list.length list).1.all fun r => decide (r.2 < (ncpus : ℤ))) = true :=
        List.all_eq_true.mpr fun r hr => decide_eq_true (h hall r hr)
      rw [hbound, Bool.and_true]

/-- **Within a subtraction every list is parsed into its set.** -/
theorem parseCpulistInto_subtractNcpus {lists : List (List Char)} {list : List Char} (hmem : list ∈ lists) :
    parseCpulistInto list (subtractNcpus lists) = listSet list := by
  refine parseCpulistInto_eq_listSet fun hall r hr => ?_
  exact lt_subtractNcpus_of_mem hmem (readRanges_mem_readNumbers _ _ _ hall le_rfl r hr).2

/-- The members of a set are numbers of the scan, and held by a `long`. -/
theorem lt_of_listSet {list : List Char} {set : ℕ → Bool} (h : listSet list = some set) {cpu : ℕ}
    (hcpu : set cpu = true) : cpu < 2 ^ 63 ∧ ∀ lists : List (List Char), list ∈ lists → cpu < subtractNcpus lists := by
  unfold listSet at h
  simp only at h
  split_ifs at h with hall
  obtain rfl := Option.some.inj h
  obtain ⟨r, hr, hin⟩ := List.any_eq_true.mp hcpu
  unfold inRange at hin
  rw [Bool.and_eq_true, decide_eq_true_eq, decide_eq_true_eq] at hin
  obtain ⟨hlt, hread⟩ := readRanges_mem_readNumbers _ _ _ hall le_rfl r hr
  refine ⟨by omega, fun lists hmem => ?_⟩
  have hbelow := lt_subtractNcpus_of_mem hmem hread
  omega

/-- The text of ranges denotes their CPUs. -/
theorem listSet_listText {e : List Char} (he : Ending e) {rs : List (ℕ × ℕ)} (hrs : ∀ r ∈ rs, Held r) :
    ∃ set, listSet (listText rs ++ e) = some set ∧ ∀ cpu : ℕ, set cpu = true ↔ Covers rs cpu := by
  have hfuel : rs.length ≤ (listText rs ++ e).length := by
    have := length_le_listText rs
    rw [List.length_append]
    omega
  have hread := readRanges_listText he (skips_parse he) hrs hfuel
  refine ⟨fun cpu => (longs rs).any (inRange cpu), ?_, fun cpu => any_inRange_longs rs cpu⟩
  unfold listSet
  simp only [hread, if_true]

/-! ## Devices -/

/-- The CPU that a device names: a whole number that a `long` holds. -/
def devCpu (cpuDev : List Char) : Option ℕ :=
  match strtol cpuDev with
  | none => none
  | some cpu => if !cpu.rest.isEmpty || cpu.outOfRange || decide (cpu.value < 0) then none else some cpu.value.toNat

theorem devCpu_toString (n : ℕ) : devCpu (toString n).toList = if n < 2 ^ 63 then some n else none := by
  have hread : strtol (toString n).toList = some ⟨clampLong n, clampLong n != n, []⟩ := by
    have hnone : NoDigit [] := by rintro c ⟨⟩
    have h := strtol_number n hnone
    rwa [List.append_nil] at h
  unfold devCpu
  simp only [hread, List.isEmpty_nil, Bool.not_true, Bool.false_or]
  by_cases hn : n < 2 ^ 63
  · have hclamp : clampLong (n : ℤ) = n := by
      unfold clampLong
      omega
    rw [if_pos hn, hclamp, bne_self_eq_false, Bool.false_or, decide_eq_false (by omega), if_neg Bool.false_ne_true]
    rfl
  · have hclamp : (clampLong (n : ℤ) != n) = true := by
      rw [bne_iff_ne]
      unfold clampLong
      omega
    rw [if_neg hn, hclamp, Bool.true_or, if_pos rfl]

/-- **A device passes the text of ranges** exactly when the CPU that it names is in one. -/
theorem cpuDevInList_listText_iff {rs : List (ℕ × ℕ)} (hrs : ∀ r ∈ rs, Held r) (dev : List Char) :
    cpuDevInList (listText rs) dev = true ↔ ∃ cpu, devCpu dev = some cpu ∧ Covers rs cpu := by
  have hread := readRanges_listText (Or.inl rfl) skips_dev hrs (length_le_listText rs)
  rw [List.append_nil] at hread
  have hempty : (listText rs).isEmpty = true → ∀ cpu, ¬Covers rs cpu := by
    rintro hnil cpu ⟨r, hr, -⟩
    have hlen := length_le_listText rs
    rw [List.isEmpty_iff.mp hnil] at hlen
    exact absurd (List.length_pos_of_mem hr) (by rw [List.length_nil] at hlen; omega)
  unfold cpuDevInList devCpu
  cases hdev : strtol dev with
  | none =>
      simp only
      rw [ite_self]
      exact iff_of_false Bool.false_ne_true (by rintro ⟨cpu, ⟨⟩, -⟩)
  | some cpu =>
      have hdevNe : dev.isEmpty = false := by
        rw [List.isEmpty_eq_false_iff]
        rintro rfl
        cases hdev
      rw [hdevNe, Bool.or_false]
      simp only
      by_cases hbad : (!cpu.rest.isEmpty || cpu.outOfRange || decide (cpu.value < 0)) = true
      · rw [if_pos hbad, if_pos hbad, ite_self]
        exact iff_of_false Bool.false_ne_true (by rintro ⟨cpu, ⟨⟩, -⟩)
      · rw [if_neg hbad, if_neg hbad, hread]
        have hcast : ((cpu.value.toNat : ℕ) : ℤ) = cpu.value := by
          simp only [Bool.or_eq_true, decide_eq_true_eq, not_or] at hbad
          omega
        have hin := any_inRange_longs rs cpu.value.toNat
        rw [hcast] at hin
        by_cases hnil : (listText rs).isEmpty = true
        · rw [if_pos hnil]
          exact iff_of_false Bool.false_ne_true (by rintro ⟨c, -, hc⟩; exact hempty hnil c hc)
        · rw [if_neg hnil, hin]
          constructor
          · exact fun hc => ⟨_, rfl, hc⟩
          · rintro ⟨c, hc, hcovers⟩
            rwa [Option.some.inj hc]

/-! ## Writing in full or failing -/

/-- **The text of a set is written in full, or the writer fails.** -/
theorem formatCpulist_text (set : ℕ → Bool) (ncpus cap : ℕ) :
    ((listText (runs set ncpus)).length < cap → formatCpulist set ncpus cap = (listText (runs set ncpus), true)) ∧
      (cap ≤ (listText (runs set ncpus)).length → (formatCpulist set ncpus cap).2 = false) := by
  rcases Nat.eq_zero_or_pos cap with rfl | hcap
  · exact ⟨fun h => absurd h (Nat.not_lt_zero _), fun _ => rfl⟩
  obtain ⟨pre, post, hsplit, htext, hok, hfits⟩ := formatCpulist_spec set ncpus hcap
  constructor
  · intro hlen
    have hpost := hfits.mpr hlen
    rw [hpost, List.append_nil] at hsplit
    rw [hsplit, ← htext, ← hok.mpr hpost]
  · intro hlen
    rw [Bool.eq_false_iff]
    exact fun htrue => absurd (hfits.mp (hok.mp htrue)) (by omega)

/-- A finite set of CPU numbers, as the monitor holds it: a `long` holds each, and the bound is above them. -/
structure CpuSet where
  cpus : Finset ℕ
  ncpus : ℕ
  lt_ncpus : ∀ cpu ∈ cpus, cpu < ncpus
  long : ∀ cpu ∈ cpus, cpu < 2 ^ 63

def CpuSet.mem (S : CpuSet) (cpu : ℕ) : Bool :=
  decide (cpu ∈ S.cpus)

/-- The text of the set. -/
def CpuSet.text (S : CpuSet) : List Char :=
  listText (runs S.mem S.ncpus)

theorem CpuSet.held (S : CpuSet) : ∀ r ∈ runs S.mem S.ncpus, Held r :=
  held_runs fun cpu _ hcpu => S.long cpu (of_decide_eq_true hcpu)

theorem CpuSet.covers_iff (S : CpuSet) (cpu : ℕ) : Covers (runs S.mem S.ncpus) cpu ↔ cpu ∈ S.cpus := by
  rw [covers_runs, CpuSet.mem, decide_eq_true_eq]
  exact and_iff_right_of_imp (S.lt_ncpus cpu)

/-- The text of a set is read back. -/
theorem CpuSet.parse_text (S : CpuSet) : ∃ set, parseCpulistInto S.text S.ncpus = some set ∧
    ∀ cpu, set cpu = true ↔ cpu ∈ S.cpus := by
  have hbound : ∀ r ∈ runs S.mem S.ncpus, r.2 < S.ncpus := fun r hr =>
    ((runsFrom_bounds S.mem S.ncpus S.ncpus 0).1 r hr).2.2
  obtain ⟨set, hset, hmem⟩ := parseCpulistInto_listText (Or.inl rfl) S.held hbound
  rw [List.append_nil] at hset
  exact ⟨set, hset, fun cpu => (hmem cpu).trans (S.covers_iff cpu)⟩

theorem CpuSet.dev_text (S : CpuSet) (dev : List Char) :
    cpuDevInList S.text dev = true ↔ ∃ cpu ∈ S.cpus, devCpu dev = some cpu := by
  unfold CpuSet.text
  rw [cpuDevInList_listText_iff S.held]
  simp only [S.covers_iff]
  exact exists_congr fun cpu => and_comm

theorem CpuSet.cpu_text (S : CpuSet) (cpu : ℕ) : cpuDevInList S.text (toString cpu).toList = true ↔ cpu ∈ S.cpus := by
  rw [S.dev_text, devCpu_toString]
  constructor
  · rintro ⟨c, hc, hdev⟩
    split_ifs at hdev
    rwa [Option.some.inj hdev]
  · exact fun hcpu => ⟨cpu, hcpu, if_pos (S.long cpu hcpu)⟩

/-! ## Subtraction -/

/-- One of the lists denotes a set with the CPU. -/
def Claimed (claimed : List (List Char)) (cpu : ℕ) : Prop :=
  ∃ list ∈ claimed, ∃ set, listSet list = some set ∧ set cpu = true

/-- The remainder of a list that denotes a set: the code's result for every size of the buffer. -/
theorem cpulistSubtract_eq {onlineList : List Char} {online : ℕ → Bool} (hne : onlineList ≠ [])
    (honline : listSet onlineList = some online) (claimed : List (List Char)) :
    ∃ rest : ℕ → Bool, (∀ cpu, rest cpu = true ↔ online cpu = true ∧ ¬Claimed claimed cpu) ∧
      ∀ cap, 0 < cap → cpulistSubtract onlineList claimed cap =
        formatCpulist rest (subtractNcpus (onlineList :: claimed)) cap := by
  have hparse : parseCpulistInto onlineList (subtractNcpus (onlineList :: claimed)) = listSet onlineList :=
    parseCpulistInto_subtractNcpus List.mem_cons_self
  rw [honline] at hparse
  refine ⟨fun cpu => online cpu && !((claimed.filterMap fun list => if list.isEmpty then none else
    parseCpulistInto list (subtractNcpus (onlineList :: claimed))).any fun set => set cpu), ?_, ?_⟩
  · intro cpu
    rw [Bool.and_eq_true, Bool.not_eq_true', ← Bool.not_eq_true, List.any_eq_true]
    refine and_congr_right fun _ => not_congr ?_
    simp only [List.mem_filterMap]
    constructor
    · rintro ⟨set, ⟨list, hlist, hset⟩, hcpu⟩
      split_ifs at hset
      rw [parseCpulistInto_subtractNcpus (List.mem_cons_of_mem _ hlist)] at hset
      exact ⟨list, hlist, set, hset, hcpu⟩
    · rintro ⟨list, hlist, set, hset, hcpu⟩
      refine ⟨set, ⟨list, hlist, ?_⟩, hcpu⟩
      have hsome : list.isEmpty = false := by
        rw [List.isEmpty_eq_false_iff]
        -- the empty list denotes the empty set
        rintro rfl
        rw [← Option.some.inj hset] at hcpu
        cases hcpu
      rw [hsome, if_neg Bool.false_ne_true, parseCpulistInto_subtractNcpus (List.mem_cons_of_mem _ hlist), hset]
  · intro cap hcap
    unfold cpulistSubtract
    have hgo : (decide (cap = 0) || onlineList.isEmpty) = false := by
      rw [Bool.or_eq_false_iff, List.isEmpty_eq_false_iff]
      exact ⟨decide_eq_false hcap.ne', hne⟩
    rw [hgo, if_neg Bool.false_ne_true]
    simp only [hparse]

/-- The text of the remainder, which is written in full or not at all. -/
theorem cpulistSubtract_text {onlineList : List Char} {online : ℕ → Bool} (hne : onlineList ≠ [])
    (honline : listSet onlineList = some online) (claimed : List (List Char)) :
    ∃ text, (∀ cap, (text.length < cap → cpulistSubtract onlineList claimed cap = (text, true)) ∧
        (cap ≤ text.length → (cpulistSubtract onlineList claimed cap).2 = false)) ∧
      ∃ rest, listSet text = some rest ∧ ∀ cpu, rest cpu = true ↔ online cpu = true ∧ ¬Claimed claimed cpu := by
  obtain ⟨rest, hrest, hcode⟩ := cpulistSubtract_eq hne honline claimed
  have hbelow : ∀ cpu, rest cpu = true → cpu < 2 ^ 63 ∧ cpu < subtractNcpus (onlineList :: claimed) := fun cpu hcpu =>
    have hlt := lt_of_listSet honline ((hrest cpu).mp hcpu).1
    ⟨hlt.1, hlt.2 _ List.mem_cons_self⟩
  refine ⟨listText (runs rest (subtractNcpus (onlineList :: claimed))), fun cap => ?_, ?_⟩
  · have hfull := formatCpulist_text rest (subtractNcpus (onlineList :: claimed)) cap
    rcases Nat.eq_zero_or_pos cap with rfl | hcap
    · exact ⟨fun h => absurd h (Nat.not_lt_zero _), fun _ => rfl⟩
    · rw [hcode cap hcap]
      exact hfull
  · have hheld : ∀ r ∈ runs rest (subtractNcpus (onlineList :: claimed)), Held r :=
      held_runs fun cpu _ hcpu => (hbelow cpu hcpu).1
    obtain ⟨set, hset, hmem⟩ := listSet_listText (Or.inl rfl) hheld
    rw [List.append_nil] at hset
    refine ⟨set, hset, fun cpu => ?_⟩
    rw [hmem, covers_runs, ← hrest]
    exact and_iff_right_of_imp fun hcpu => (hbelow cpu hcpu).2

theorem cpulistSubtract_fails {onlineList : List Char} (h : onlineList = [] ∨ listSet onlineList = none)
    (claimed : List (List Char)) (cap : ℕ) : cpulistSubtract onlineList claimed cap = ([], false) := by
  unfold cpulistSubtract
  by_cases hstop : (decide (cap = 0) || onlineList.isEmpty) = true
  · rw [if_pos hstop]
  · rw [if_neg hstop]
    rcases h with rfl | hnone
    · exact absurd (Bool.or_true _) hstop
    · have hparse : parseCpulistInto onlineList (subtractNcpus (onlineList :: claimed)) = listSet onlineList :=
          parseCpulistInto_subtractNcpus List.mem_cons_self
      rw [hnone] at hparse
      simp only [hparse]

/-- **CPU lists are consistent.**  A set is written in full exactly when its text fits, and the writer fails
otherwise; the text is parsed into the set, and the devices that pass it are those of its CPUs.  The remainder of a
list is written in the same way, and denotes its set without the claimed ones; it fails for a list that is empty or
malformed. -/
theorem cpulists_consistent :
    (∀ S : CpuSet, ∃ text : List Char,
      (∀ cap, (text.length < cap → formatCpulist S.mem S.ncpus cap = (text, true)) ∧
        (cap ≤ text.length → (formatCpulist S.mem S.ncpus cap).2 = false)) ∧
      (∃ set, parseCpulistInto text S.ncpus = some set ∧ ∀ cpu, set cpu = true ↔ cpu ∈ S.cpus) ∧
      (∀ cpu : ℕ, cpuDevInList text (toString cpu).toList = true ↔ cpu ∈ S.cpus) ∧
      ∀ dev, cpuDevInList text dev = true ↔ ∃ cpu ∈ S.cpus, devCpu dev = some cpu) ∧
    ∀ onlineList claimed,
      (∀ online, onlineList ≠ [] → listSet onlineList = some online → ∃ text : List Char,
        (∀ cap, (text.length < cap → cpulistSubtract onlineList claimed cap = (text, true)) ∧
          (cap ≤ text.length → (cpulistSubtract onlineList claimed cap).2 = false)) ∧
        ∃ rest, listSet text = some rest ∧
          ∀ cpu, rest cpu = true ↔ online cpu = true ∧ ¬Claimed claimed cpu) ∧
      (onlineList = [] ∨ listSet onlineList = none → ∀ cap, cpulistSubtract onlineList claimed cap = ([], false)) :=
  ⟨fun S => ⟨S.text, formatCpulist_text S.mem S.ncpus, S.parse_text, S.cpu_text, S.dev_text⟩,
    fun _ claimed => ⟨fun _ hne honline => cpulistSubtract_text hne honline claimed,
      fun h cap => cpulistSubtract_fails h claimed cap⟩⟩

end CpuList
