/-
# CPU lists

The monitor writes sets of CPUs as the kernel does, in ranges such as `0-2,4`, into buffers of a fixed size, and
reads them again to filter rows and to subtract sets.  A set is a predicate on CPU numbers, a C string a list of
characters without its NUL.

* `formatCpulist` writes the ranges of a set until the buffer is full;
* `cpuDevInList`, `parseCpulistInto` and `subtractNcpus` are the three readers;
* `formatCpulist_spec` says that what is written is the text of the first ranges, and all of them exactly when
  the whole text fits; `cpuDevInList_listText` and `parseCpulistInto_listText` that such a text is read back.
-/
import HpcPerfStats.TokenText

namespace CpuList

/-! ## `strtol` -/

/-- The characters that `isspace` accepts. -/
def isSpaceC (c : Char) : Bool :=
  c == ' ' || ('\t' ≤ c && c ≤ '\r')

/-- The nearest `long`. -/
def clampLong (v : ℤ) : ℤ :=
  max (-2 ^ 63) (min v (2 ^ 63 - 1))

/-- What `strtol` gives: the value, whether it set `ERANGE`, and the end pointer. -/
structure Strtol where
  value : ℤ
  outOfRange : Bool
  rest : List Char

/-- The sign in front of a number. -/
def takeSign : List Char → Bool × List Char
  | '-' :: cs => (true, cs)
  | '+' :: cs => (false, cs)
  | cs => (false, cs)

/-- `strtol(s, &end, 10)`; `none` when no digit is read (`end == s`). -/
def strtol (cs : List Char) : Option Strtol :=
  let signed := takeSign (cs.dropWhile isSpaceC)
  let ds := signed.2.takeWhile Char.isDigit
  if ds.isEmpty then none
  else
    let n : ℤ := Nat.ofDigitChars 10 ds 0
    let v := if signed.1 then -n else n
    some ⟨clampLong v, clampLong v != v, signed.2.dropWhile Char.isDigit⟩

/-! ## Writing -/

/-- The last CPU of the run that `i` is in; `steps` are the CPUs behind `i`. -/
def runEnd (set : ℕ → Bool) : ℕ → ℕ → ℕ
  | 0, i => i
  | steps + 1, i => if set (i + 1) then runEnd set steps (i + 1) else i

/-- The runs of a set from `i` on. -/
def runsFrom (set : ℕ → Bool) (ncpus : ℕ) : ℕ → ℕ → List (ℕ × ℕ)
  | 0, _ => []
  | fuel + 1, i =>
      if i < ncpus then
        if set i then
          let last := runEnd set (ncpus - 1 - i) i
          (i, last) :: runsFrom set ncpus fuel (last + 1)
        else runsFrom set ncpus fuel (i + 1)
      else []

def runs (set : ℕ → Bool) (ncpus : ℕ) : List (ℕ × ℕ) :=
  runsFrom set ncpus ncpus 0

/-- `%zu` or `%zu-%zu`. -/
def rangeText (r : ℕ × ℕ) : List Char :=
  if r.1 = r.2 then (toString r.1).toList else (toString r.1).toList ++ '-' :: (toString r.2).toList

/-- The ranges that fit into a buffer of `cap` bytes behind what is written, and whether all do. -/
def appendRanges (cap : ℕ) : Bool → List (ℕ × ℕ) → List Char → List Char × Bool
  | _, [], out => (out, true)
  | first, r :: rs, out =>
      let piece := if first then rangeText r else ',' :: rangeText r
      if out.length + piece.length ≥ cap then (out, false)
      else appendRanges cap false rs (out ++ piece)

/-- `format_cpulist`: what is in the buffer, and whether it was successful. -/
def formatCpulist (set : ℕ → Bool) (ncpus cap : ℕ) : List Char × Bool :=
  if cap = 0 then ([], false) else appendRanges cap true (runs set ncpus) []

/-! ## Reading -/

/-- A CPU or a range of CPUs. -/
def readRange (cs : List Char) : Option ((ℤ × ℤ) × List Char) :=
  match strtol cs with
  | none => none
  | some a =>
      if a.value < 0 then none
      else
        match a.rest with
        | '-' :: rest =>
            match strtol rest with
            | none => none
            | some b => if b.value < a.value then none else some ((a.value, b.value), b.rest)
        | rest => some ((a.value, a.value), rest)

/-- The ranges up to the end or to the first mistake, and whether there was none. -/
def readRanges (skip : Char → Bool) : ℕ → List Char → List (ℤ × ℤ) × Bool
  | 0, cs => ([], (cs.dropWhile skip).isEmpty)
  | fuel + 1, cs =>
      match cs.dropWhile skip with
      | [] => ([], true)
      | c :: cs' =>
          match readRange (c :: cs') with
          | none => ([], false)
          | some (r, rest) =>
              let tail := readRanges skip fuel rest
              (r :: tail.1, tail.2)

def inRange (cpu : ℤ) (r : ℤ × ℤ) : Bool :=
  decide (r.1 ≤ cpu) && decide (cpu ≤ r.2)

def skipParse (c : Char) : Bool :=
  c == ',' || c == ' ' || c == '\t' || c == '\n'

def skipDev (c : Char) : Bool :=
  c == ',' || c == ' ' || c == '\t'

def skipNumber (c : Char) : Bool :=
  c == ',' || c == ' ' || c == '-' || c == '\t' || c == '\n'

/-- `parse_cpulist_into`: every range has to be below `ncpus`. -/
def parseCpulistInto (list : List Char) (ncpus : ℕ) : Option (ℕ → Bool) :=
  let read := readRanges skipParse list.length list
  if read.2 && read.1.all fun r => decide (r.2 < ncpus) then
    some fun cpu => read.1.any (inRange cpu)
  else none

/-- `job_sched_affinity_cpu_dev_in_list`. -/
def cpuDevInList (cpulist cpuDev : List Char) : Bool :=
  if cpulist.isEmpty || cpuDev.isEmpty then false
  else
    match strtol cpuDev with
    | none => false
    | some cpu =>
        if !cpu.rest.isEmpty || cpu.outOfRange || decide (cpu.value < 0) then false
        else (readRanges skipDev cpulist.length cpulist).1.any (inRange cpu.value)

/-- The numbers in a list. -/
def readNumbers : ℕ → List Char → List ℤ
  | 0, _ => []
  | fuel + 1, cs =>
      match cs.dropWhile skipNumber with
      | [] => []
      | c :: cs' =>
          match strtol (c :: cs') with
          | none => []
          | some v => v.value :: readNumbers fuel v.rest

/-- The size of the sets of `job_sched_affinity_cpulist_subtract`: above every number in a list. -/
def subtractNcpus (lists : List (List Char)) : ℕ :=
  let maxCpu := (lists.flatMap fun list => readNumbers list.length list).foldl max (-1)
  max 1024 (maxCpu + 1).toNat

/-- `job_sched_affinity_cpulist_subtract`: what is in the buffer, and whether it was successful.  A list that is
not there is an empty one; the sets are allocated. -/
def cpulistSubtract (onlineList : List Char) (claimed : List (List Char)) (cap : ℕ) : List Char × Bool :=
  if cap = 0 || onlineList.isEmpty then ([], false)
  else
    let ncpus := subtractNcpus (onlineList :: claimed)
    match parseCpulistInto onlineList ncpus with
    | none => ([], false)
    | some online =>
        -- a claimed list that is malformed claims nothing
        let claim := claimed.filterMap fun list => if list.isEmpty then none else parseCpulistInto list ncpus
        formatCpulist (fun cpu => online cpu && !(claim.any fun set => set cpu)) ncpus cap

example : cpulistSubtract "0-7\n".toList ["0-1".toList, "3".toList] 128 = ("2,4-7".toList, true) := by
  decide +kernel

/-! ## Numbers are read back -/

theorem isSpaceC_of_isDigit {c : Char} (hc : c.isDigit = true) : isSpaceC c = false := by
  obtain ⟨hlow, -⟩ := PyText.toNat_of_isDigit hc
  unfold isSpaceC
  rw [Bool.or_eq_false_iff]
  constructor
  · rw [beq_eq_false_iff_ne]
    rintro rfl
    exact absurd hlow (by decide)
  · rw [Bool.and_eq_false_iff]
    refine Or.inr (decide_eq_false fun hle => ?_)
    have hr : c.toNat ≤ 13 := hle
    omega

theorem takeSign_digit {c : Char} (hc : c.isDigit = true) (cs : List Char) :
    takeSign (c :: cs) = (false, c :: cs) := by
  unfold takeSign
  split
  · rename_i heq
    obtain ⟨rfl, -⟩ := List.cons.inj heq
    exact absurd hc (by decide)
  · rename_i heq
    obtain ⟨rfl, -⟩ := List.cons.inj heq
    exact absurd hc (by decide)
  · rfl

/-- No digit goes on behind a number. -/
def NoDigit (rest : List Char) : Prop :=
  ∀ c ∈ rest.head?, c.isDigit = false

theorem takeWhile_noDigit {rest : List Char} (h : NoDigit rest) :
    rest.takeWhile Char.isDigit = [] ∧ rest.dropWhile Char.isDigit = rest := by
  cases rest with
  | nil => exact ⟨rfl, rfl⟩
  | cons c cs =>
      have hc := h c rfl
      exact ⟨List.takeWhile_cons_of_neg (by simp [hc]), List.dropWhile_cons_of_neg (by simp [hc])⟩

/-- A number is read as the nearest `long`. -/
theorem strtol_number (n : ℕ) {rest : List Char} (hrest : NoDigit rest) :
    strtol ((toString n).toList ++ rest) = some ⟨clampLong n, clampLong n != n, rest⟩ := by
  have hdigits : ∀ c ∈ (toString n).toList, c.isDigit = true := fun c hc => TokenText.isDigit_of_mem_toString hc
  have hvalue := TokenText.ofDigitChars_toString n
  obtain ⟨c, cs, hcs⟩ := List.exists_cons_of_ne_nil (TokenText.toString_ne_nil n)
  rw [hcs] at hdigits hvalue ⊢
  have hc := hdigits c List.mem_cons_self
  have hspace : ((c :: cs) ++ rest).dropWhile isSpaceC = (c :: cs) ++ rest :=
    List.dropWhile_cons_of_neg (by simp [isSpaceC_of_isDigit hc])
  have htake : ((c :: cs) ++ rest).takeWhile Char.isDigit = c :: cs := by
    rw [List.takeWhile_append_of_pos hdigits, (takeWhile_noDigit hrest).1, List.append_nil]
  have hdrop : ((c :: cs) ++ rest).dropWhile Char.isDigit = rest := by
    rw [List.dropWhile_append_of_pos hdigits, (takeWhile_noDigit hrest).2]
  unfold strtol
  simp only [hspace]
  rw [List.cons_append, takeSign_digit hc]
  simp only [← List.cons_append, htake, hdrop, hvalue, List.isEmpty_cons, Bool.false_eq_true, if_false]

/-- A number that a `long` holds is read back. -/
theorem strtol_toString {n : ℕ} (hn : n < 2 ^ 63) {rest : List Char} (hrest : NoDigit rest) :
    strtol ((toString n).toList ++ rest) = some ⟨n, false, rest⟩ := by
  have hclamp : clampLong (n : ℤ) = n := by
    unfold clampLong
    omega
  rw [strtol_number n hrest, hclamp, bne_self_eq_false]

/-! ## Ranges are read back -/

/-- Neither a digit nor a `-` goes on behind a range. -/
def Ended (rest : List Char) : Prop :=
  ∀ c ∈ rest.head?, c.isDigit = false ∧ c ≠ '-'

theorem Ended.noDigit {rest : List Char} (h : Ended rest) : NoDigit rest :=
  fun c hc => (h c hc).1

/-- A range of CPU numbers that a `long` holds. -/
def Held (r : ℕ × ℕ) : Prop :=
  r.1 ≤ r.2 ∧ r.2 < 2 ^ 63

theorem noDigit_minus (cs : List Char) : NoDigit ('-' :: cs) := by
  rintro c ⟨⟩
  decide

theorem readRange_text {r : ℕ × ℕ} (hr : Held r) {rest : List Char} (hrest : Ended rest) :
    readRange (rangeText r ++ rest) = some (((r.1 : ℤ), (r.2 : ℤ)), rest) := by
  obtain ⟨hle, hlt⟩ := hr
  have hlow : r.1 < 2 ^ 63 := lt_of_le_of_lt hle hlt
  have hnonneg : ∀ n : ℕ, ¬(n : ℤ) < 0 := fun n => by omega
  unfold readRange rangeText
  by_cases heq : r.1 = r.2
  · rw [if_pos heq, strtol_toString hlow hrest.noDigit]
    simp only [if_neg (hnonneg _)]
    split
    · rename_i tail
      exact absurd rfl (hrest '-' rfl).2
    · rw [heq]
  · rw [if_neg heq, List.append_assoc, List.cons_append, strtol_toString hlow (noDigit_minus _)]
    simp only [if_neg (hnonneg _)]
    rw [strtol_toString hlt hrest.noDigit]
    simp only
    rw [if_neg (by omega)]

/-- The text of ranges behind others. -/
def tailText (rs : List (ℕ × ℕ)) : List Char :=
  rs.flatMap fun r => ',' :: rangeText r

/-- The text of ranges. -/
def listText : List (ℕ × ℕ) → List Char
  | [] => []
  | r :: rs => rangeText r ++ tailText rs

/-- The end of a list: nothing, or a newline. -/
def Ending (e : List Char) : Prop :=
  e = [] ∨ e = ['\n']

theorem ended_tailText (rs : List (ℕ × ℕ)) {e : List Char} (he : Ending e) : Ended (tailText rs ++ e) := by
  cases rs with
  | nil =>
      rcases he with rfl | rfl
      · rintro c ⟨⟩
      · rintro c ⟨⟩
        decide
  | cons r rs =>
      rintro c ⟨⟩
      decide

theorem exists_digit_rangeText (r : ℕ × ℕ) : ∃ c cs, rangeText r = c :: cs ∧ c.isDigit = true := by
  obtain ⟨c, cs, hcs⟩ := List.exists_cons_of_ne_nil (TokenText.toString_ne_nil r.1)
  have hc : c.isDigit = true := TokenText.isDigit_of_mem_toString (n := r.1) (by rw [hcs]; exact List.mem_cons_self)
  unfold rangeText
  split_ifs
  · exact ⟨c, cs, hcs, hc⟩
  · exact ⟨c, cs ++ '-' :: (toString r.2).toList, by rw [hcs]; rfl, hc⟩

/-- A reader skips the commas and the end, and no digit. -/
structure Skips (skip : Char → Bool) (e : List Char) : Prop where
  comma : skip ',' = true
  digit : ∀ c, c.isDigit = true → skip c = false
  ending : e.dropWhile skip = []

theorem dropWhile_rangeText {skip : Char → Bool} {e : List Char} (h : Skips skip e) (r : ℕ × ℕ)
    (rest : List Char) : (rangeText r ++ rest).dropWhile skip = rangeText r ++ rest := by
  obtain ⟨c, cs, hcs, hc⟩ := exists_digit_rangeText r
  rw [hcs]
  exact List.dropWhile_cons_of_neg (by simp [h.digit c hc])

theorem readRanges_cons {skip : Char → Bool} {cs rest : List Char} {r : ℕ × ℕ} (hr : Held r)
    (hdrop : cs.dropWhile skip = rangeText r ++ rest) (hrest : Ended rest) (fuel : ℕ) :
    readRanges skip (fuel + 1) cs =
      (((r.1 : ℤ), (r.2 : ℤ)) :: (readRanges skip fuel rest).1, (readRanges skip fuel rest).2) := by
  obtain ⟨c, cs', hcs, -⟩ := exists_digit_rangeText r
  have hread := readRange_text hr hrest
  rw [hcs, List.cons_append] at hread hdrop
  rw [readRanges.eq_def]
  simp only [hdrop, hread]

/-- The ranges as `long`s. -/
def longs (rs : List (ℕ × ℕ)) : List (ℤ × ℤ) :=
  rs.map fun r => (r.1, r.2)

theorem readRanges_tailText {skip : Char → Bool} {e : List Char} (he : Ending e) (h : Skips skip e)
    {rs : List (ℕ × ℕ)} (hrs : ∀ r ∈ rs, Held r) :
    ∀ {fuel : ℕ}, rs.length ≤ fuel → readRanges skip fuel (tailText rs ++ e) = (longs rs, true) := by
  induction rs with
  | nil =>
      intro fuel _
      cases fuel with
      | zero =>
          show ([], (e.dropWhile skip).isEmpty) = _
          rw [h.ending]
          rfl
      | succ fuel =>
          rw [readRanges.eq_def]
          show (match e.dropWhile skip with | [] => _ | c :: cs' => _) = _
          rw [h.ending]
          rfl
  | cons r rs ih =>
      intro fuel hfuel
      obtain ⟨hr, hrest⟩ := List.forall_mem_cons.mp hrs
      obtain ⟨fuel, rfl⟩ : ∃ n, fuel = n + 1 := ⟨fuel - 1, by rw [List.length_cons] at hfuel; omega⟩
      have hdrop : (tailText (r :: rs) ++ e).dropWhile skip = rangeText r ++ (tailText rs ++ e) := by
        have hcons : tailText (r :: rs) ++ e = ',' :: (rangeText r ++ (tailText rs ++ e)) := by
          simp only [tailText, List.flatMap_cons, List.cons_append, List.append_assoc]
        rw [hcons, List.dropWhile_cons_of_pos h.comma, dropWhile_rangeText h]
      rw [readRanges_cons hr hdrop (ended_tailText rs he) fuel,
        ih hrest (by rw [List.length_cons] at hfuel; omega)]
      rfl

/-- **A list of ranges is read back.** -/
theorem readRanges_listText {skip : Char → Bool} {e : List Char} (he : Ending e) (h : Skips skip e)
    {rs : List (ℕ × ℕ)} (hrs : ∀ r ∈ rs, Held r) {fuel : ℕ} (hfuel : rs.length ≤ fuel) :
    readRanges skip fuel (listText rs ++ e) = (longs rs, true) := by
  cases rs with
  | nil => exact readRanges_tailText he h hrs hfuel
  | cons r rs =>
      obtain ⟨hr, hrest⟩ := List.forall_mem_cons.mp hrs
      obtain ⟨fuel, rfl⟩ : ∃ n, fuel = n + 1 := ⟨fuel - 1, by rw [List.length_cons] at hfuel; omega⟩
      have hdrop : (listText (r :: rs) ++ e).dropWhile skip = rangeText r ++ (tailText rs ++ e) := by
        rw [listText, List.append_assoc, dropWhile_rangeText h]
      rw [readRanges_cons hr hdrop (ended_tailText rs he) fuel,
        readRanges_tailText he h hrest (by rw [List.length_cons] at hfuel; omega)]
      rfl

/-- The CPU is in one of the ranges. -/
def Covers (rs : List (ℕ × ℕ)) (cpu : ℕ) : Prop :=
  ∃ r ∈ rs, r.1 ≤ cpu ∧ cpu ≤ r.2

theorem any_inRange_longs (rs : List (ℕ × ℕ)) (cpu : ℕ) :
    (longs rs).any (inRange cpu) = true ↔ Covers rs cpu := by
  unfold longs Covers inRange
  simp only [List.any_map, List.any_eq_true, Function.comp, Bool.and_eq_true, decide_eq_true_eq, Int.ofNat_le]

theorem length_le_tailText (rs : List (ℕ × ℕ)) : rs.length ≤ (tailText rs).length := by
  induction rs with
  | nil => exact le_rfl
  | cons r rs ih =>
      unfold tailText at ih ⊢
      rw [List.flatMap_cons, List.length_append, List.length_cons, List.length_cons]
      omega

theorem length_le_listText (rs : List (ℕ × ℕ)) : rs.length ≤ (listText rs).length := by
  cases rs with
  | nil => exact le_rfl
  | cons r rs =>
      obtain ⟨c, cs, hcs, -⟩ := exists_digit_rangeText r
      have := length_le_tailText rs
      rw [listText, hcs, List.length_append, List.length_cons, List.length_cons]
      omega

theorem skips_dev : Skips skipDev [] where
  comma := rfl
  digit := by
    intro c hc
    obtain ⟨hlow, hhigh⟩ := PyText.toNat_of_isDigit hc
    unfold skipDev
    simp only [Bool.or_eq_false_iff, beq_eq_false_iff_ne]
    refine ⟨⟨?_, ?_⟩, ?_⟩
    all_goals rintro rfl; exact absurd hlow (by decide)
  ending := rfl

theorem skips_parse {e : List Char} (he : Ending e) : Skips skipParse e where
  comma := rfl
  digit := by
    intro c hc
    obtain ⟨hlow, hhigh⟩ := PyText.toNat_of_isDigit hc
    unfold skipParse
    simp only [Bool.or_eq_false_iff, beq_eq_false_iff_ne]
    refine ⟨⟨⟨?_, ?_⟩, ?_⟩, ?_⟩
    all_goals rintro rfl; exact absurd hlow (by decide)
  ending := by
    rcases he with rfl | rfl
    · rfl
    · rfl

/-- A row of a CPU passes a list exactly when the CPU is in one of its ranges. -/
theorem cpuDevInList_listText {rs : List (ℕ × ℕ)} (hrs : ∀ r ∈ rs, Held r) {cpu : ℕ} (hcpu : cpu < 2 ^ 63) :
    cpuDevInList (listText rs) (toString cpu).toList = true ↔ Covers rs cpu := by
  have hdev : strtol (toString cpu).toList = some ⟨cpu, false, []⟩ := by
    have h : strtol ((toString cpu).toList ++ []) = some ⟨cpu, false, []⟩ := strtol_toString hcpu (by rintro c ⟨⟩)
    rwa [List.append_nil] at h
  have hread := readRanges_listText (Or.inl rfl) skips_dev hrs (length_le_listText rs)
  rw [List.append_nil] at hread
  have hdevNe : (toString cpu).toList.isEmpty = false := by
    rw [List.isEmpty_eq_false_iff]
    exact TokenText.toString_ne_nil cpu
  unfold cpuDevInList
  cases rs with
  | nil =>
      rw [if_pos (by rfl)]
      exact iff_of_false Bool.false_ne_true (by rintro ⟨r, hr, -⟩; cases hr)
  | cons r rs =>
      have hlistNe : (listText (r :: rs)).isEmpty = false := by
        obtain ⟨c, cs, hcs, -⟩ := exists_digit_rangeText r
        rw [listText, hcs]
        rfl
      rw [hlistNe, hdevNe]
      simp only [hdev, hread, Bool.or_self, Bool.false_eq_true, if_false, List.isEmpty_nil, Bool.not_true,
        Bool.false_or]
      rw [if_neg (by simp), any_inRange_longs]

/-- A list is parsed into the set of its ranges. -/
theorem parseCpulistInto_listText {e : List Char} (he : Ending e) {rs : List (ℕ × ℕ)} (hrs : ∀ r ∈ rs, Held r)
    {ncpus : ℕ} (hncpus : ∀ r ∈ rs, r.2 < ncpus) :
    ∃ set, parseCpulistInto (listText rs ++ e) ncpus = some set ∧
      ∀ cpu : ℕ, set cpu = true ↔ Covers rs cpu := by
  have hfuel : rs.length ≤ (listText rs ++ e).length := by
    have := length_le_listText rs
    rw [List.length_append]
    omega
  have hread := readRanges_listText he (skips_parse he) hrs hfuel
  have hall : ((longs rs).all fun r => decide (r.2 < (ncpus : ℤ))) = true := by
    unfold longs
    simp only [List.all_map, List.all_eq_true, Function.comp, decide_eq_true_eq, Int.ofNat_lt]
    exact hncpus
  refine ⟨fun cpu => (longs rs).any (inRange cpu), ?_, fun cpu => any_inRange_longs rs cpu⟩
  unfold parseCpulistInto
  simp only [hread, hall, Bool.true_and, if_true]

/-! ## The numbers in a list -/

/-- The numbers of ranges. -/
def numbers (rs : List (ℕ × ℕ)) : List ℕ :=
  rs.flatMap fun r => if r.1 = r.2 then [r.1] else [r.1, r.2]

theorem skips_number {e : List Char} (he : Ending e) : Skips skipNumber e where
  comma := rfl
  digit := by
    intro c hc
    obtain ⟨hlow, hhigh⟩ := PyText.toNat_of_isDigit hc
    unfold skipNumber
    simp only [Bool.or_eq_false_iff, beq_eq_false_iff_ne]
    refine ⟨⟨⟨⟨?_, ?_⟩, ?_⟩, ?_⟩, ?_⟩
    all_goals rintro rfl; exact absurd hlow (by decide)
  ending := by
    rcases he with rfl | rfl
    · rfl
    · rfl

theorem readNumbers_cons {cs rest : List Char} {n : ℕ} (hn : n < 2 ^ 63)
    (hdrop : cs.dropWhile skipNumber = (toString n).toList ++ rest) (hrest : NoDigit rest) (fuel : ℕ) :
    readNumbers (fuel + 1) cs = (n : ℤ) :: readNumbers fuel rest := by
  obtain ⟨c, cs', hcs⟩ := List.exists_cons_of_ne_nil (TokenText.toString_ne_nil n)
  have hread := strtol_toString hn hrest
  rw [hcs, List.cons_append] at hread hdrop
  rw [readNumbers.eq_def]
  simp only [hdrop, hread]

theorem dropWhile_number {n : ℕ} (rest : List Char) :
    ((toString n).toList ++ rest).dropWhile skipNumber = (toString n).toList ++ rest := by
  obtain ⟨c, cs, hcs⟩ := List.exists_cons_of_ne_nil (TokenText.toString_ne_nil n)
  have hc : c.isDigit = true := TokenText.isDigit_of_mem_toString (n := n) (by rw [hcs]; exact List.mem_cons_self)
  rw [hcs]
  exact List.dropWhile_cons_of_neg (by simp [(skips_number (Or.inl rfl)).digit c hc])

/-- The numbers of one range, and the rest. -/
theorem readNumbers_range {cs rest : List Char} {r : ℕ × ℕ} (hr : Held r)
    (hdrop : cs.dropWhile skipNumber = rangeText r ++ rest) (hrest : Ended rest) {fuel k : ℕ}
    (hfuel : fuel = (numbers [r]).length + k) :
    readNumbers fuel cs = (numbers [r]).map (Nat.cast : ℕ → ℤ) ++ readNumbers k rest := by
  obtain ⟨hle, hlt⟩ := hr
  unfold rangeText at hdrop
  have hnumbers : numbers [r] = if r.1 = r.2 then [r.1] else [r.1, r.2] := by
    unfold numbers
    rw [List.flatMap_cons, List.flatMap_nil, List.append_nil]
  rw [hnumbers] at hfuel ⊢
  by_cases heq : r.1 = r.2
  · rw [if_pos heq] at hfuel hdrop ⊢
    have hk : fuel = k + 1 := by rw [hfuel, List.length_singleton]; omega
    rw [hk, readNumbers_cons (lt_of_le_of_lt hle hlt) hdrop hrest.noDigit]
    rfl
  · rw [if_neg heq] at hfuel hdrop ⊢
    rw [List.append_assoc, List.cons_append] at hdrop
    have hk : fuel = k + 1 + 1 := by rw [hfuel, List.length_cons, List.length_singleton]; omega
    have hminus : ('-' :: ((toString r.2).toList ++ rest)).dropWhile skipNumber = (toString r.2).toList ++ rest := by
      rw [List.dropWhile_cons_of_pos (by rfl), dropWhile_number]
    rw [hk, readNumbers_cons (lt_of_le_of_lt hle hlt) hdrop (noDigit_minus _),
      readNumbers_cons hlt hminus hrest.noDigit]
    rfl

theorem numbers_cons (r : ℕ × ℕ) (rs : List (ℕ × ℕ)) : numbers (r :: rs) = numbers [r] ++ numbers rs := by
  unfold numbers
  rw [List.flatMap_cons, List.flatMap_cons, List.flatMap_nil, List.append_nil]

theorem readNumbers_tailText {e : List Char} (he : Ending e) {rs : List (ℕ × ℕ)} (hrs : ∀ r ∈ rs, Held r) :
    ∀ k, readNumbers ((numbers rs).length + k) (tailText rs ++ e) =
      (numbers rs).map (Nat.cast : ℕ → ℤ) ++ readNumbers k e := by
  induction rs with
  | nil =>
      intro k
      show readNumbers (0 + k) e = readNumbers k e
      rw [Nat.zero_add]
  | cons r rs ih =>
      intro k
      obtain ⟨hr, hrest⟩ := List.forall_mem_cons.mp hrs
      have hdrop : (tailText (r :: rs) ++ e).dropWhile skipNumber = rangeText r ++ (tailText rs ++ e) := by
        have hcons : tailText (r :: rs) ++ e = ',' :: (rangeText r ++ (tailText rs ++ e)) := by
          simp only [tailText, List.flatMap_cons, List.cons_append, List.append_assoc]
        rw [hcons, List.dropWhile_cons_of_pos (by rfl), dropWhile_rangeText (skips_number he)]
      rw [numbers_cons, List.length_append, Nat.add_assoc,
        readNumbers_range hr hdrop (ended_tailText rs he) rfl, ih hrest, List.map_append, List.append_assoc]

theorem readNumbers_listText {e : List Char} (he : Ending e) {rs : List (ℕ × ℕ)} (hrs : ∀ r ∈ rs, Held r) (k : ℕ) :
    readNumbers ((numbers rs).length + k) (listText rs ++ e) =
      (numbers rs).map (Nat.cast : ℕ → ℤ) ++ readNumbers k e := by
  cases rs with
  | nil => exact readNumbers_tailText he hrs k
  | cons r rs =>
      obtain ⟨hr, hrest⟩ := List.forall_mem_cons.mp hrs
      have hdrop : (listText (r :: rs) ++ e).dropWhile skipNumber = rangeText r ++ (tailText rs ++ e) := by
        rw [listText, List.append_assoc, dropWhile_rangeText (skips_number he)]
      rw [numbers_cons, List.length_append, Nat.add_assoc,
        readNumbers_range hr hdrop (ended_tailText rs he) rfl, readNumbers_tailText he hrest, List.map_append,
        List.append_assoc]

theorem length_numbers_le_rangeText (r : ℕ × ℕ) : (numbers [r]).length ≤ (rangeText r).length := by
  have hpos : ∀ n : ℕ, 0 < (toString n).toList.length := fun n =>
    List.length_pos_of_ne_nil (TokenText.toString_ne_nil n)
  unfold numbers rangeText
  rw [List.flatMap_cons, List.flatMap_nil, List.append_nil]
  have h1 := hpos r.1
  have h2 := hpos r.2
  split_ifs
  · exact h1
  · rw [List.length_append, List.length_cons, List.length_cons, List.length_cons, List.length_nil]
    omega

theorem length_numbers_le (rs : List (ℕ × ℕ)) : (numbers rs).length ≤ (listText rs).length := by
  have htail : ∀ rs : List (ℕ × ℕ), (numbers rs).length ≤ (tailText rs).length := by
    intro rs
    induction rs with
    | nil => exact le_rfl
    | cons r rs ih =>
        have hr := length_numbers_le_rangeText r
        unfold tailText at ih ⊢
        rw [numbers_cons, List.length_append, List.flatMap_cons, List.length_append, List.length_cons]
        omega
  cases rs with
  | nil => exact le_rfl
  | cons r rs =>
      have hr := length_numbers_le_rangeText r
      have hrs := htail rs
      rw [numbers_cons, List.length_append, listText, List.length_append]
      omega

theorem le_foldl_max (l : List ℤ) : ∀ a : ℤ, a ≤ l.foldl max a ∧ ∀ v ∈ l, v ≤ l.foldl max a := by
  induction l with
  | nil => exact fun a => ⟨le_rfl, by rintro v ⟨⟩⟩
  | cons x l ih =>
      intro a
      obtain ⟨hacc, hall⟩ := ih (max a x)
      refine ⟨le_trans (le_max_left a x) hacc, ?_⟩
      rintro v hv
      rcases List.mem_cons.mp hv with rfl | hv
      · exact le_trans (le_max_right a v) hacc
      · exact hall v hv

/-- The sets of a subtraction are large enough for every number in its lists. -/
theorem lt_subtractNcpus_of_mem {lists : List (List Char)} {list : List Char} (hmem : list ∈ lists) {v : ℤ}
    (hv : v ∈ readNumbers list.length list) : v < subtractNcpus lists := by
  have hread : v ∈ lists.flatMap fun list => readNumbers list.length list := List.mem_flatMap.mpr ⟨list, hmem, hv⟩
  have hle := (le_foldl_max _ (-1)).2 v hread
  unfold subtractNcpus
  simp only
  omega

/-- The sets of a subtraction are large enough for its lists. -/
theorem lt_subtractNcpus {lists : List (List Char)} {e : List Char} (he : Ending e) {rs : List (ℕ × ℕ)}
    (hrs : ∀ r ∈ rs, Held r) (hmem : listText rs ++ e ∈ lists) : ∀ r ∈ rs, r.2 < subtractNcpus lists := by
  intro r hr
  have hlen : (listText rs ++ e).length = (numbers rs).length + ((listText rs ++ e).length - (numbers rs).length) := by
    have := length_numbers_le rs
    rw [List.length_append]
    omega
  have hnumber : r.2 ∈ numbers rs := by
    refine List.mem_flatMap.mpr ⟨r, hr, ?_⟩
    split_ifs with heq
    · rw [heq]
      exact List.mem_cons_self
    · exact List.mem_cons_of_mem _ List.mem_cons_self
  have hread : (r.2 : ℤ) ∈ readNumbers (listText rs ++ e).length (listText rs ++ e) := by
    rw [hlen, readNumbers_listText he hrs]
    exact List.mem_append_left _ (List.mem_map_of_mem hnumber)
  have hlt := lt_subtractNcpus_of_mem hmem hread
  omega

/-! ## What is written -/

theorem runEnd_spec (set : ℕ → Bool) : ∀ steps i, i ≤ runEnd set steps i ∧ runEnd set steps i ≤ i + steps ∧
    (∀ c, i < c → c ≤ runEnd set steps i → set c = true) ∧
      (runEnd set steps i < i + steps → set (runEnd set steps i + 1) = false) := by
  intro steps
  induction steps with
  | zero =>
      intro i
      rw [runEnd]
      exact ⟨le_rfl, le_rfl, fun c h1 h2 => by omega, fun h => by omega⟩
  | succ steps ih =>
      intro i
      rw [runEnd]
      split_ifs with hnext
      · obtain ⟨hlow, hhigh, hin, hend⟩ := ih (i + 1)
        refine ⟨by omega, by omega, ?_, fun h => hend (by omega)⟩
        intro c hic hc
        by_cases heq : c = i + 1
        · rw [heq]
          exact hnext
        · exact hin c (by omega) hc
      · exact ⟨le_rfl, by omega, fun c h1 h2 => by omega, fun _ => by simpa using hnext⟩

/-- The runs from `i` on lie behind `i`, below the bound and one behind the other. -/
theorem runsFrom_bounds (set : ℕ → Bool) (ncpus : ℕ) : ∀ fuel i,
    (∀ r ∈ runsFrom set ncpus fuel i, i ≤ r.1 ∧ r.1 ≤ r.2 ∧ r.2 < ncpus) ∧
      (runsFrom set ncpus fuel i).Pairwise fun r r' => r.2 < r'.1 := by
  intro fuel
  induction fuel with
  | zero => exact fun i => ⟨by rintro r ⟨⟩, List.Pairwise.nil⟩
  | succ fuel ih =>
      intro i
      rw [runsFrom]
      split_ifs with hi hset
      · obtain ⟨hlow, hhigh, -, -⟩ := runEnd_spec set (ncpus - 1 - i) i
        obtain ⟨hbounds, hpair⟩ := ih (runEnd set (ncpus - 1 - i) i + 1)
        constructor
        · intro r hr
          rcases List.mem_cons.mp hr with rfl | hr
          · exact ⟨le_rfl, hlow, by simp only; omega⟩
          · obtain ⟨h1, h2, h3⟩ := hbounds r hr
            exact ⟨by omega, h2, h3⟩
        · refine List.pairwise_cons.mpr ⟨?_, hpair⟩
          intro r hr
          obtain ⟨h1, -, -⟩ := hbounds r hr
          simp only
          omega
      · obtain ⟨hbounds, hpair⟩ := ih (i + 1)
        refine ⟨fun r hr => ?_, hpair⟩
        obtain ⟨h1, h2, h3⟩ := hbounds r hr
        exact ⟨by omega, h2, h3⟩
      · exact ⟨by rintro r ⟨⟩, List.Pairwise.nil⟩

theorem covers_runsFrom (set : ℕ → Bool) (ncpus c : ℕ) : ∀ fuel i, ncpus ≤ fuel + i →
    (Covers (runsFrom set ncpus fuel i) c ↔ i ≤ c ∧ c < ncpus ∧ set c = true) := by
  have hnil : Covers [] c ↔ False := iff_of_false (by rintro ⟨r, hr, -⟩; cases hr) id
  intro fuel
  induction fuel with
  | zero =>
      intro i hi
      rw [runsFrom, hnil]
      exact iff_of_false id fun h => by omega
  | succ fuel ih =>
      intro i hi
      rw [runsFrom]
      split_ifs with hlt hset
      · obtain ⟨hlow, hhigh, hin, hend⟩ := runEnd_spec set (ncpus - 1 - i) i
        have hcons : Covers ((i, runEnd set (ncpus - 1 - i) i) ::
            runsFrom set ncpus fuel (runEnd set (ncpus - 1 - i) i + 1)) c ↔
            (i ≤ c ∧ c ≤ runEnd set (ncpus - 1 - i) i) ∨
              Covers (runsFrom set ncpus fuel (runEnd set (ncpus - 1 - i) i + 1)) c := by
          unfold Covers
          rw [List.exists_mem_cons_iff]
        rw [hcons, ih _ (by omega)]
        constructor
        · rintro (⟨h1, h2⟩ | ⟨h1, h2, h3⟩)
          · refine ⟨h1, by omega, ?_⟩
            rcases Nat.eq_or_lt_of_le h1 with rfl | h1
            · exact hset
            · exact hin c h1 h2
          · exact ⟨by omega, h2, h3⟩
        · rintro ⟨h1, h2, h3⟩
          by_cases hc : c ≤ runEnd set (ncpus - 1 - i) i
          · exact Or.inl ⟨h1, hc⟩
          · exact Or.inr ⟨by omega, h2, h3⟩
      · rw [ih _ (by omega)]
        constructor
        · exact fun ⟨h1, h2, h3⟩ => ⟨by omega, h2, h3⟩
        · rintro ⟨h1, h2, h3⟩
          refine ⟨?_, h2, h3⟩
          by_contra hno
          obtain rfl : c = i := by omega
          exact hset h3
      · rw [hnil]
        exact iff_of_false id fun h => by omega

/-- The runs of a set have its CPUs. -/
theorem covers_runs (set : ℕ → Bool) (ncpus c : ℕ) :
    Covers (runs set ncpus) c ↔ c < ncpus ∧ set c = true := by
  unfold runs
  rw [covers_runsFrom set ncpus c ncpus 0 (by omega)]
  exact and_iff_right (Nat.zero_le c)

/-- The runs of a set whose CPUs a `long` holds. -/
theorem held_runs {set : ℕ → Bool} {ncpus : ℕ} (h : ∀ cpu < ncpus, set cpu = true → cpu < 2 ^ 63) :
    ∀ r ∈ runs set ncpus, Held r := by
  intro r hr
  obtain ⟨-, hle, hlt⟩ := (runsFrom_bounds set ncpus ncpus 0).1 r hr
  exact ⟨hle, h r.2 hlt ((covers_runs set ncpus r.2).mp ⟨r, hr, hle, le_rfl⟩).2⟩

theorem appendRanges_spec (cap : ℕ) : ∀ (rs : List (ℕ × ℕ)) (first : Bool) (out : List Char), out.length < cap →
    ∃ pre post, rs = pre ++ post ∧
      (appendRanges cap first rs out).1 = out ++ (if first then listText pre else tailText pre) ∧
      ((appendRanges cap first rs out).2 = true ↔ post = []) ∧
      (post = [] ↔ out.length + (if first then listText rs else tailText rs).length < cap) := by
  intro rs
  induction rs with
  | nil =>
      intro first out hout
      refine ⟨[], [], rfl, ?_, iff_of_true rfl rfl, iff_of_true rfl ?_⟩
      · cases first with
        | false => exact (List.append_nil out).symm
        | true => exact (List.append_nil out).symm
      · cases first with
        | false => exact hout
        | true => exact hout
  | cons r rs ih =>
      intro first out hout
      obtain ⟨piece, htext, hstep⟩ : ∃ piece, (∀ ls : List (ℕ × ℕ),
          (if first then listText (r :: ls) else tailText (r :: ls)) = piece ++ tailText ls) ∧
          appendRanges cap first (r :: rs) out =
            if out.length + piece.length ≥ cap then (out, false)
            else appendRanges cap false rs (out ++ piece) := by
        cases first with
        | false => exact ⟨',' :: rangeText r, fun ls => rfl, rfl⟩
        | true => exact ⟨rangeText r, fun ls => rfl, rfl⟩
      rw [hstep]
      by_cases hfull : out.length + piece.length ≥ cap
      · rw [if_pos hfull]
        refine ⟨[], r :: rs, rfl, ?_, iff_of_false Bool.false_ne_true (List.cons_ne_nil _ _),
          iff_of_false (List.cons_ne_nil _ _) ?_⟩
        · cases first with
          | false => exact (List.append_nil out).symm
          | true => exact (List.append_nil out).symm
        · rw [htext, List.length_append]
          omega
      · rw [if_neg hfull]
        obtain ⟨pre, post, hsplit, htext', hok, hfits⟩ :=
          ih false (out ++ piece) (by rw [List.length_append]; omega)
        refine ⟨r :: pre, post, by rw [hsplit]; rfl, ?_, hok, ?_⟩
        · rw [htext', htext, List.append_assoc]
          rfl
        · rw [hfits, htext, List.length_append, List.length_append, Nat.add_assoc]
          rfl

/-- **What `format_cpulist` writes.**  The text of the first runs of the set, and of all of them exactly when that
fits into the buffer. -/
theorem formatCpulist_spec (set : ℕ → Bool) (ncpus : ℕ) {cap : ℕ} (hcap : 0 < cap) :
    ∃ pre post, runs set ncpus = pre ++ post ∧ (formatCpulist set ncpus cap).1 = listText pre ∧
      ((formatCpulist set ncpus cap).2 = true ↔ post = []) ∧
      (post = [] ↔ (listText (runs set ncpus)).length < cap) := by
  have hcode : formatCpulist set ncpus cap = appendRanges cap true (runs set ncpus) [] := if_neg hcap.ne'
  obtain ⟨pre, post, hsplit, htext, hok, hfits⟩ := appendRanges_spec cap (runs set ncpus) true [] hcap
  rw [← hcode] at htext hok
  rw [List.nil_append, if_pos rfl] at htext
  rw [if_pos rfl, List.length_nil, Nat.zero_add] at hfits
  exact ⟨pre, post, hsplit, htext, hok, hfits⟩

end CpuList
