/-
# The records of the archive walk

Stats discovery runs GNU `stat` over the archive and reads its output while it comes: four fields to a record, each
with a NUL behind it (`iter_find_printf_records_streaming`).

* `foldl_resume`: where the output is cut into chunks does not matter, not even for the error at its end;
* `records_of_chunks`: what `stat` wrote is read back, and of an output that breaks off all whole records are.
-/
import HpcPerfStats.TokenText

namespace FindRecords

open PyText TokenText

abbrev Bytes := List UInt8

/-! ## Reading -/

/-- `FindStatsRecord`; `os.fsdecode` is one to one, so that the path stays the bytes it is. -/
structure FindStatsRecord where
  path : Bytes
  mtime : PyFloat
  size : ℤ
  inode : ℤ
  deriving DecidableEq

/-- `FindStatsDiscoveryError` of a stream. -/
inductive FindStatsDiscoveryError where
  | invalid (index : ℕ)
  | leftover (tokens bytes : ℕ)
  deriving DecidableEq

/-- The text of the error, with that of the error of `float` or `int`. -/
def FindStatsDiscoveryError.message (exc : String) : FindStatsDiscoveryError → String
  | .invalid index => "invalid fd -X stat record at index " ++ toString index ++ ": " ++ exc
  | .leftover tokens bytes =>
      "fd -X stat record stream length is not a multiple of 4 fields (got " ++ toString tokens ++
        " leftover tokens, " ++ toString bytes ++ " leftover bytes)"

/-- Four characters are white space in a `str` and not in `bytes`. -/
def isSeparator (b : UInt8) : Bool := 28 ≤ b && b ≤ 31

/-- The text that `float` and `int` read in a field. -/
def fieldText (field : Bytes) : Option String :=
  if field.any isSeparator then none else some (String.ofList (field.map fun b => Char.ofNat b.toNat))

/-- The record of four fields; `none` when one of them does not parse. -/
def parseFields : List Bytes → Option FindStatsRecord
  | [path, mtime, size, inode] => do
      let mtime ← (fieldText mtime).bind pyFloat
      let size ← (fieldText size).bind pyInt
      let inode ← (fieldText inode).bind pyInt
      some ⟨path, mtime, size, inode⟩
  | _ => none

/-- `buf.find(b"\\0")`: what is before the first NUL and what is behind it. -/
def nulSplit : Bytes → Option (Bytes × Bytes)
  | [] => none
  | b :: bs => if b = 0 then some ([], bs) else (nulSplit bs).map fun split => (b :: split.1, split.2)

theorem length_of_nulSplit {buf : Bytes} : ∀ {field rest : Bytes}, nulSplit buf = some (field, rest) →
    rest.length < buf.length := by
  induction buf with
  | nil =>
      intro field rest h
      cases h
  | cons b bs ih =>
      intro field rest h
      unfold nulSplit at h
      split at h
      · cases h
        exact Nat.lt_succ_self _
      · obtain ⟨split, hsplit, heq⟩ := Option.map_eq_some_iff.mp h
        cases heq
        exact Nat.lt_succ_of_lt (ih hsplit)

/-- The locals of the generator. -/
structure Reader where
  buf : Bytes
  fields : List Bytes
  index : ℕ

/-- What the generator has yielded, and how it goes on. -/
abbrev Progress := List FindStatsRecord × Except FindStatsDiscoveryError Reader

/-- The loop `while True` over the fields that are complete. -/
def drain (r : Reader) : Progress :=
  match _h : nulSplit r.buf with
  | none => ([], .ok r)
  | some (field, rest) =>
      if r.fields.length + 1 < 4 then drain ⟨rest, r.fields ++ [field], r.index⟩
      else
        match parseFields (r.fields ++ [field]) with
        | none => ([], .error (.invalid r.index))
        | some record =>
            (record :: (drain ⟨rest, [], r.index + 1⟩).1, (drain ⟨rest, [], r.index + 1⟩).2)
termination_by r.buf.length
decreasing_by
  all_goals exact length_of_nulSplit _h

def fresh : Reader := ⟨[], [], 0⟩

/-- One more chunk. -/
def resume : Progress → Bytes → Progress
  | (records, .error error), _ => (records, .error error)
  | (records, .ok r), chunk =>
      (records ++ (drain { r with buf := r.buf ++ chunk }).1, (drain { r with buf := r.buf ++ chunk }).2)

/-- The end of the stream. -/
def finish : Except FindStatsDiscoveryError Reader → Option FindStatsDiscoveryError
  | .error error => some error
  | .ok r =>
      if r.fields = [] ∧ r.buf = [] then none
      else some (.leftover (r.fields.length + if r.buf = [] then 0 else 1) r.buf.length)

/-- `iter_find_printf_records_streaming`: the records it yields and the error it ends with. -/
def iterFindPrintfRecordsStreaming (chunks : List Bytes) :
    List FindStatsRecord × Option FindStatsDiscoveryError :=
  ((chunks.foldl resume ([], .ok fresh)).1, finish (chunks.foldl resume ([], .ok fresh)).2)

/-- `parse_find_printf_records`. -/
def parseFindPrintfRecords (data : Bytes) : Except FindStatsDiscoveryError (List FindStatsRecord) :=
  match iterFindPrintfRecordsStreaming (if data.isEmpty then [] else [data]) with
  | (records, none) => .ok records
  | (_, some error) => .error error

/-! ## The loop -/

section Drain

variable {r : Reader} {field rest : Bytes}

theorem drain_none (h : nulSplit r.buf = none) : drain r = ([], .ok r) := by
  rw [drain]
  split
  · rfl
  · next hsome => cases hsome.symm.trans h

theorem drain_field (h : nulSplit r.buf = some (field, rest)) (hlength : r.fields.length + 1 < 4) :
    drain r = drain ⟨rest, r.fields ++ [field], r.index⟩ := by
  rw [drain]
  split
  · next hnone => cases hnone.symm.trans h
  · next hsome =>
      cases hsome.symm.trans h
      exact if_pos hlength

theorem drain_invalid (h : nulSplit r.buf = some (field, rest)) (hlength : ¬ r.fields.length + 1 < 4)
    (hparse : parseFields (r.fields ++ [field]) = none) : drain r = ([], .error (.invalid r.index)) := by
  rw [drain]
  split
  · next hnone => cases hnone.symm.trans h
  · next hsome =>
      cases hsome.symm.trans h
      rw [if_neg hlength, hparse]

theorem drain_record {record : FindStatsRecord} (h : nulSplit r.buf = some (field, rest))
    (hlength : ¬ r.fields.length + 1 < 4) (hparse : parseFields (r.fields ++ [field]) = some record) :
    drain r = (record :: (drain ⟨rest, [], r.index + 1⟩).1, (drain ⟨rest, [], r.index + 1⟩).2) := by
  rw [drain]
  split
  · next hnone => cases hnone.symm.trans h
  · next hsome =>
      cases hsome.symm.trans h
      rw [if_neg hlength, hparse]

end Drain

/-! ## Chunks -/

theorem nulSplit_append {buf field rest : Bytes} (h : nulSplit buf = some (field, rest)) (chunk : Bytes) :
    nulSplit (buf ++ chunk) = some (field, rest ++ chunk) := by
  induction buf generalizing field rest with
  | nil => cases h
  | cons b bs ih =>
      rw [List.cons_append]
      unfold nulSplit at h ⊢
      split at h
      · next hnul =>
          cases h
          rw [if_pos hnul]
      · next hnul =>
          obtain ⟨split, hsplit, heq⟩ := Option.map_eq_some_iff.mp h
          cases heq
          rw [if_neg hnul, ih hsplit]
          rfl

theorem resume_cons (record : FindStatsRecord) (progress : Progress) (chunk : Bytes) :
    resume (record :: progress.1, progress.2) chunk =
      (record :: (resume progress chunk).1, (resume progress chunk).2) := by
  obtain ⟨records, out⟩ := progress
  cases out <;> rfl

/-- **The loop over more bytes**: it does what it does without them, and goes on from there. -/
theorem drain_append (r : Reader) (chunk : Bytes) :
    drain { r with buf := r.buf ++ chunk } = resume (drain r) chunk := by
  induction r using drain.induct with
  | case1 r hnone =>
      rw [drain_none hnone]
      rfl
  | case2 r field rest hfield hlength ih =>
      have hmore : nulSplit ({ r with buf := r.buf ++ chunk } : Reader).buf = some (field, rest ++ chunk) :=
        nulSplit_append hfield chunk
      rw [drain_field hfield hlength, drain_field hmore hlength]
      exact ih
  | case3 r field rest hfield hlength hparse =>
      have hmore : nulSplit ({ r with buf := r.buf ++ chunk } : Reader).buf = some (field, rest ++ chunk) :=
        nulSplit_append hfield chunk
      rw [drain_invalid hfield hlength hparse, drain_invalid hmore hlength hparse]
      rfl
  | case4 r field rest hfield hlength record hparse ih =>
      have hmore : nulSplit ({ r with buf := r.buf ++ chunk } : Reader).buf = some (field, rest ++ chunk) :=
        nulSplit_append hfield chunk
      rw [drain_record hfield hlength hparse, drain_record hmore hlength hparse, resume_cons]
      have ih : drain ⟨rest ++ chunk, [], r.index + 1⟩ = resume (drain ⟨rest, [], r.index + 1⟩) chunk := ih
      rw [ih]

theorem resume_append (progress : Progress) (chunk chunk' : Bytes) :
    resume (resume progress chunk) chunk' = resume progress (chunk ++ chunk') := by
  obtain ⟨records, out⟩ := progress
  cases out with
  | error error => rfl
  | ok r =>
      have h := drain_append { r with buf := r.buf ++ chunk } chunk'
      dsimp only at h
      rw [List.append_assoc] at h
      show resume (records ++ (drain { r with buf := r.buf ++ chunk }).1, (drain { r with buf := r.buf ++ chunk }).2)
        chunk' = (records ++ (drain { r with buf := r.buf ++ (chunk ++ chunk') }).1,
          (drain { r with buf := r.buf ++ (chunk ++ chunk') }).2)
      rw [h]
      obtain ⟨records', out'⟩ := drain { r with buf := r.buf ++ chunk }
      cases out' with
      | error error => rfl
      | ok r' =>
          dsimp only [resume]
          rw [List.append_assoc]

/-- **Chunks**: reading chunk by chunk is reading all of them at once. -/
theorem foldl_resume (chunks : List Bytes) : ∀ (progress : Progress) (chunk : Bytes),
    chunks.foldl resume (resume progress chunk) = resume progress (chunk ++ chunks.flatten) := by
  induction chunks with
  | nil =>
      intro progress chunk
      rw [List.flatten_nil, List.append_nil]
      rfl
  | cons chunk' chunks ih =>
      intro progress chunk
      rw [List.foldl_cons, resume_append, ih, List.flatten_cons, List.append_assoc]

theorem foldl_resume_fresh (chunks : List Bytes) :
    chunks.foldl resume ([], .ok fresh) = drain { fresh with buf := chunks.flatten } := by
  have h := foldl_resume chunks ([], .ok fresh) []
  have hfresh : resume ([], .ok fresh) [] = ([], .ok fresh) := by
    show ([] ++ (drain fresh).1, (drain fresh).2) = _
    rw [drain_none rfl]
    rfl
  rw [hfresh] at h
  rw [h]
  rfl

/-! ## What `stat` writes -/

/-- A text of one byte to a character. -/
def asciiBytes (s : String) : Bytes := s.toList.map fun c => UInt8.ofNat c.toNat

/-- What `stat` knows of a file. -/
structure Stat where
  path : Bytes
  mtime : ℤ
  size : ℕ
  inode : ℕ

/-- `STAT_PRINTF_FORMAT`. -/
def Stat.printf (s : Stat) : Bytes :=
  s.path ++ 0 :: (asciiBytes (toString s.mtime) ++ 0 :: (asciiBytes (toString s.size) ++ 0 ::
    (asciiBytes (toString s.inode) ++ [0])))

def Stat.record (s : Stat) : FindStatsRecord := ⟨s.path, .fin s.mtime, s.size, s.inode⟩

/-- A number as `stat` writes it. -/
def IsNumeral (s : String) : Prop := ∀ c ∈ s.toList, c.isDigit = true ∨ c = '-'

theorem isNumeral_nat (n : ℕ) : IsNumeral (toString n) := fun _ hc => Or.inl (isDigit_of_mem_toString hc)

theorem isNumeral_int (n : ℤ) : IsNumeral (toString n) := by
  intro c hc
  rw [toList_toString_int] at hc
  split at hc
  · rcases List.mem_cons.mp hc with rfl | hc
    · exact Or.inr rfl
    · exact Or.inl (isDigit_of_mem_toString hc)
  · exact Or.inl (isDigit_of_mem_toString hc)

/-- The characters of a number lie between the separators and the end of ASCII. -/
theorem IsNumeral.toNat {s : String} (h : IsNumeral s) {c : Char} (hc : c ∈ s.toList) :
    45 ≤ c.toNat ∧ c.toNat ≤ 57 := by
  rcases h c hc with hdigit | rfl
  · have := toNat_of_isDigit hdigit
    omega
  · decide

theorem toNat_ofNat {n : ℕ} (h : n ≤ 57) : (UInt8.ofNat n).toNat = n := by
  rw [UInt8.toNat_ofNat']
  exact Nat.mod_eq_of_lt (by omega)

theorem IsNumeral.not_mem {s : String} (h : IsNumeral s) : (0 : UInt8) ∉ asciiBytes s := by
  intro hmem
  obtain ⟨c, hc, heq⟩ := List.mem_map.mp hmem
  have hrange := h.toNat hc
  have hzero := congrArg UInt8.toNat heq
  rw [toNat_ofNat hrange.2] at hzero
  have : (0 : UInt8).toNat = 0 := rfl
  omega

theorem IsNumeral.fieldText {s : String} (h : IsNumeral s) : fieldText (asciiBytes s) = some s := by
  have hany : (asciiBytes s).any isSeparator = false := by
    rw [List.any_eq_false]
    intro b hb
    obtain ⟨c, hc, rfl⟩ := List.mem_map.mp hb
    have hrange := h.toNat hc
    have hnat := toNat_ofNat hrange.2
    unfold isSeparator
    rw [Bool.and_eq_true, decide_eq_true_eq, decide_eq_true_eq, UInt8.le_iff_toNat_le, UInt8.le_iff_toNat_le, hnat]
    rintro ⟨-, hle⟩
    have : (31 : UInt8).toNat = 31 := rfl
    omega
  have hchars : (asciiBytes s).map (fun b => Char.ofNat b.toNat) = s.toList := by
    unfold asciiBytes
    rw [List.map_map]
    refine (List.map_congr_left fun c hc => ?_).trans (List.map_id _)
    show Char.ofNat (UInt8.ofNat c.toNat).toNat = c
    rw [toNat_ofNat (h.toNat hc).2, Char.ofNat_toNat]
  unfold FindRecords.fieldText
  rw [hany, hchars, String.ofList_toList]
  rfl

/-- Digits behind a minus are read as the number they write. -/
theorem pyFloat_neg_digits {s : String} {cs : List Char} (htext : s.toList = '-' :: cs) (hne : cs ≠ [])
    (hdigit : ∀ c ∈ cs, c.isDigit = true) : pyFloat s = some (.fin (-(Nat.ofDigitChars 10 cs 0 : ℕ))) := by
  have htoken : IsToken s := by
    have h := isToken_of_isDigit hne hdigit
    refine ⟨by rw [htext]; exact List.cons_ne_nil _ _, ?_⟩
    have hall := h.2
    rw [String.toList_ofList] at hall
    rw [htext, List.all_cons, hall]
    rfl
  have hnotE : ∀ c ∈ cs, (!(c == 'e' || c == 'E')) = true := by
    intro c hc
    have hd := hdigit c hc
    have hne : c ≠ 'e' ∧ c ≠ 'E' := by
      constructor
      · rintro rfl
        exact absurd hd (by decide)
      · rintro rfl
        exact absurd hd (by decide)
    simp [hne]
  have hpoint : (cs ++ []).takeWhile (· != '.') = cs ∧ (cs ++ []).dropWhile (· != '.') = [] :=
    takeWhile_point hdigit (by simp)
  rw [List.append_nil] at hpoint
  obtain ⟨d, ds, hcs⟩ := List.exists_cons_of_ne_nil hne
  have hd : d.isDigit = true := hdigit d (by rw [hcs]; exact List.mem_cons_self)
  unfold pyFloat
  rw [strip_token htoken, htext, signOf]
  dsimp only
  rw [hcs, if_neg (by
      rintro (h | h)
      · exact lower_ne_word hd ds "inf" 'i' rfl rfl h
      · exact lower_ne_word hd ds "infinity" 'i' rfl rfl h),
    if_neg (lower_ne_word hd ds "nan" 'n' rfl rfl), ← hcs, List.takeWhile_eq_self_iff.mpr hnotE,
    List.dropWhile_eq_nil_iff.mpr hnotE, hpoint.1, hpoint.2]
  show (decimal (-1) cs [] 0).map PyFloat.fin = _
  unfold decimal
  rw [digits_eq hne hdigit]
  simp [hne, Rat.mkRat_one]

/-- `float(str(n)) == n`. -/
theorem pyFloat_toString_int (n : ℤ) : pyFloat (toString n) = some (.fin n) := by
  have htext := toList_toString_int n
  by_cases hn : n < 0
  · rw [if_pos hn] at htext
    rw [pyFloat_neg_digits htext (toString_ne_nil n.natAbs) fun c hc => isDigit_of_mem_toString hc,
      ofDigitChars_toString]
    have habs : -(n.natAbs : ℤ) = n := by omega
    have hcast := congrArg (Int.cast : ℤ → ℚ) habs
    rw [Rat.intCast_neg] at hcast
    rw [← hcast]
    rfl
  · rw [if_neg hn] at htext
    rw [String.toList_inj.mp htext, pyFloat_toString]
    have habs : (n.natAbs : ℤ) = n := Int.natAbs_of_nonneg (by omega)
    congr 2
    rw [← Int.cast_natCast]
    exact congrArg (Int.cast : ℤ → ℚ) habs

theorem parseFields_printf (s : Stat) :
    parseFields [s.path, asciiBytes (toString s.mtime), asciiBytes (toString s.size), asciiBytes (toString s.inode)] =
      some s.record := by
  rw [parseFields, (isNumeral_int s.mtime).fieldText, (isNumeral_nat s.size).fieldText,
    (isNumeral_nat s.inode).fieldText, Option.bind_some, Option.bind_some, Option.bind_some, pyFloat_toString_int,
    pyInt_toString, pyInt_toString]
  rfl

theorem nulSplit_cons {field : Bytes} (h : (0 : UInt8) ∉ field) (rest : Bytes) :
    nulSplit (field ++ 0 :: rest) = some (field, rest) := by
  induction field with
  | nil => rfl
  | cons b bs ih =>
      have hb : b ≠ 0 := fun heq => h (heq ▸ List.mem_cons_self)
      rw [List.cons_append, nulSplit, if_neg hb, ih fun hmem => h (List.mem_cons_of_mem b hmem)]
      rfl

theorem nulSplit_eq_none {buf : Bytes} (h : (0 : UInt8) ∉ buf) : nulSplit buf = none := by
  induction buf with
  | nil => rfl
  | cons b bs ih =>
      have hb : b ≠ 0 := fun heq => h (heq ▸ List.mem_cons_self)
      rw [nulSplit, if_neg hb, ih fun hmem => h (List.mem_cons_of_mem b hmem)]
      rfl

theorem drain_cons {field : Bytes} (h : (0 : UInt8) ∉ field) (rest : Bytes) {fields : List Bytes} (index : ℕ)
    (hlength : fields.length + 1 < 4) :
    drain ⟨field ++ 0 :: rest, fields, index⟩ = drain ⟨rest, fields ++ [field], index⟩ :=
  drain_field (nulSplit_cons h rest) hlength

/-- **One record** is read back, whatever comes behind it. -/
theorem drain_printf {s : Stat} (hpath : (0 : UInt8) ∉ s.path) (rest : Bytes) (index : ℕ) :
    drain ⟨s.printf ++ rest, [], index⟩ =
      (s.record :: (drain ⟨rest, [], index + 1⟩).1, (drain ⟨rest, [], index + 1⟩).2) := by
  have hbuf : s.printf ++ rest = s.path ++ 0 :: (asciiBytes (toString s.mtime) ++ 0 ::
      (asciiBytes (toString s.size) ++ 0 :: (asciiBytes (toString s.inode) ++ 0 :: rest))) := by
    simp [Stat.printf]
  have hparse : parseFields ([s.path, asciiBytes (toString s.mtime), asciiBytes (toString s.size)] ++
      [asciiBytes (toString s.inode)]) = some s.record := parseFields_printf s
  rw [hbuf, drain_cons hpath _ index (by simp), drain_cons (isNumeral_int s.mtime).not_mem _ index (by simp),
    drain_cons (isNumeral_nat s.size).not_mem _ index (by simp)]
  exact drain_record (nulSplit_cons (isNumeral_nat s.inode).not_mem rest) (by simp) hparse

/-- All records are read back. -/
theorem drain_stats {stats : List Stat} (hpaths : ∀ s ∈ stats, (0 : UInt8) ∉ s.path) (rest : Bytes) : ∀ index : ℕ,
    drain ⟨(stats.map Stat.printf).flatten ++ rest, [], index⟩ =
      (stats.map Stat.record ++ (drain ⟨rest, [], index + stats.length⟩).1,
        (drain ⟨rest, [], index + stats.length⟩).2) := by
  induction stats with
  | nil => exact fun _ => rfl
  | cons s stats ih =>
      intro index
      rw [List.map_cons, List.flatten_cons, List.append_assoc, drain_printf (hpaths s List.mem_cons_self),
        ih (fun s' hs' => hpaths s' (List.mem_cons_of_mem s hs')) (index + 1), List.length_cons,
        Nat.add_right_comm index 1, Nat.add_assoc index]
      rfl

/-- An output that breaks off leaves the fields of its last record. -/
theorem drain_broken {rest : Bytes} (hrest : (0 : UInt8) ∉ rest) (more : List Bytes) :
    ∀ {fields : List Bytes} {index : ℕ},
    (∀ f ∈ more, (0 : UInt8) ∉ f) → fields.length + more.length < 4 →
      drain ⟨(more.map (· ++ [0])).flatten ++ rest, fields, index⟩ = ([], .ok ⟨rest, fields ++ more, index⟩) := by
  induction more with
  | nil =>
      intro fields index _ _
      rw [List.append_nil]
      exact drain_none (nulSplit_eq_none hrest)
  | cons f more ih =>
      intro fields index hmore hlength
      rw [List.length_cons] at hlength
      have hbuf : ((f :: more).map (· ++ [0])).flatten ++ rest = f ++ 0 :: ((more.map (· ++ [0])).flatten ++ rest) := by
        simp
      rw [hbuf, drain_cons (hmore f List.mem_cons_self) _ index (by omega),
        ih (fun f' hf' => hmore f' (List.mem_cons_of_mem f hf')) (by
          rw [List.length_append, List.length_singleton]
          omega), List.append_assoc]
      rfl

/-- **The records of a walk**: however its output is cut into chunks, and wherever it breaks off, the whole records are
those that `stat` wrote, and an error says what is left of the last one. -/
theorem records_of_chunks {stats : List Stat} {fields : List Bytes} {rest : Bytes} {chunks : List Bytes}
    (hpaths : ∀ s ∈ stats, (0 : UInt8) ∉ s.path) (hfields : ∀ f ∈ fields, (0 : UInt8) ∉ f)
    (hlength : fields.length < 4) (hrest : (0 : UInt8) ∉ rest)
    (hchunks : chunks.flatten = (stats.map Stat.printf).flatten ++ ((fields.map (· ++ [0])).flatten ++ rest)) :
    iterFindPrintfRecordsStreaming chunks = (stats.map Stat.record,
      if fields = [] ∧ rest = [] then none
      else some (.leftover (fields.length + if rest = [] then 0 else 1) rest.length)) ∧
    parseFindPrintfRecords chunks.flatten =
      if fields = [] ∧ rest = [] then .ok (stats.map Stat.record)
      else .error (.leftover (fields.length + if rest = [] then 0 else 1) rest.length) := by
  have hdrain : drain { fresh with buf := chunks.flatten } =
      (stats.map Stat.record, .ok ⟨rest, fields, stats.length⟩) := by
    rw [hchunks]
    show drain ⟨(stats.map Stat.printf).flatten ++ ((fields.map (· ++ [0])).flatten ++ rest), [], 0⟩ = _
    rw [drain_stats hpaths, drain_broken hrest fields hfields (by rw [List.length_nil]; omega), List.append_nil,
      Nat.zero_add]
    rfl
  have hiter : ∀ cut : List Bytes, cut.flatten = chunks.flatten →
      iterFindPrintfRecordsStreaming cut = (stats.map Stat.record,
        if fields = [] ∧ rest = [] then none
        else some (.leftover (fields.length + if rest = [] then 0 else 1) rest.length)) := by
    intro cut hcut
    unfold iterFindPrintfRecordsStreaming
    rw [foldl_resume_fresh, hcut, hdrain]
    rfl
  refine ⟨hiter chunks rfl, ?_⟩
  have hwhole : (if chunks.flatten.isEmpty then [] else [chunks.flatten]).flatten = chunks.flatten := by
    split
    · next hempty => exact (List.isEmpty_iff.mp hempty).symm
    · exact List.flatten_singleton
  unfold parseFindPrintfRecords
  rw [hiter _ hwhole]
  split_ifs <;> rfl

/-- The output for one file. -/
def oneFile : Stat := ⟨asciiBytes "/archive/c101/1700000000", -1, 2048, 77⟩

/-- It comes in two chunks, and breaks off behind it. -/
theorem records_of_chunks_oneFile :
    iterFindPrintfRecordsStreaming [oneFile.printf.take 30, oneFile.printf.drop 30, [47]] =
        ([oneFile.record], some (.leftover 1 1)) ∧
      parseFindPrintfRecords [oneFile.printf.take 30, oneFile.printf.drop 30, [47]].flatten =
        .error (.leftover 1 1) := by
  have h := @records_of_chunks [oneFile] [] [47] [oneFile.printf.take 30, oneFile.printf.drop 30, [47]]
  refine h ?_ ?_ (by decide) (by decide) ?_
  · intro s hs
    rw [List.mem_singleton.mp hs]
    decide
  · exact fun _ h => by cases h
  · rw [List.flatten_cons, List.flatten_cons, ← List.append_assoc, List.take_append_drop]
    rfl

end FindRecords
