/-
# The duplicate scan

`find_processing_start_index` reads the sample headers of a file from the first line on and
stops at the first one whose second is not stored.  It answers the line of the header before,
so that the file is read again from there, or `-1` when every second is stored.

The seconds of the lines are `lineSecond`.  `startIndex_cases` says which lines the answer
stands for; the streaming variant gives the same answer (`findProcessingStartIndexStreaming_eq`).
-/
import HpcPerfStats.StatsParser

namespace DuplicateScan

open PyText StatsParser

/-! ## Seconds -/

/-- `_digit_line_unix_second`.  A token that begins with a digit is not an infinity, so the
cast to an integer does not overflow. -/
def digitLineUnixSecond (s : String) : Option ℤ :=
  match digitLineIdentity s with
  | some (t, _, _) => (pyFloat t).bind PyFloat.toInt
  | none => none

/-- The second of a header line. -/
def lineSecond (line : String) : Option ℤ :=
  match (lstrip line).toList.head? with
  | some c => if c.isDigit then digitLineUnixSecond (lstrip line) else none
  | none => none

/-- The seconds of the samples of a file. -/
def sampleSeconds (lines : List String) : List ℤ :=
  lines.filterMap lineSecond

/-- The second of a header is that of the sample it opens. -/
theorem lineSecond_of_headerOf {line : String} {tags : Tags} (h : headerOf line = some tags) :
    lineSecond line = tags.time.toInt := by
  rw [headerOf] at h
  rw [lineSecond]
  cases hc : (lstrip line).toList.head? with
  | none => rw [hc] at h; cases h
  | some c =>
      simp only [hc] at h ⊢
      split_ifs at h ⊢ with hd
      rw [digitLineUnixSecond]
      cases hid : digitLineIdentity (lstrip line) with
      | none => rw [hid] at h; cases h
      | some ident =>
          simp only [hid] at h ⊢
          obtain ⟨time, htime, rfl⟩ := Option.map_eq_some_iff.mp h
          rw [htime]
          rfl

/-- A line with a second opens a sample. -/
theorem headerOf_of_lineSecond {line : String} {sec : ℤ} (h : lineSecond line = some sec) :
    ∃ tags, headerOf line = some tags ∧ tags.time.toInt = some sec := by
  rw [lineSecond] at h
  rw [headerOf]
  cases hc : (lstrip line).toList.head? with
  | none => rw [hc] at h; cases h
  | some c =>
      simp only [hc] at h ⊢
      split_ifs at h ⊢ with hd
      rw [digitLineUnixSecond] at h
      cases hid : digitLineIdentity (lstrip line) with
      | none => rw [hid] at h; cases h
      | some ident =>
          simp only [hid] at h ⊢
          obtain ⟨time, htime, hint⟩ := Option.bind_eq_some_iff.mp h
          exact ⟨⟨time, ident.2.2, ident.2.1⟩, by rw [htime]; rfl, hint⟩

/-- The time of a header is finite. -/
theorem time_of_headerOf {line : String} {tags : Tags} (h : headerOf line = some tags) :
    ∃ q, tags.time = .fin q := by
  rw [headerOf] at h
  cases hc : (lstrip line).toList.head? with
  | none => rw [hc] at h; cases h
  | some c =>
      simp only [hc] at h
      split_ifs at h with hd
      unfold digitLineIdentity at h
      cases hsplit : split (lstrip line) with
      | nil => rw [hsplit] at h; cases h
      | cons t ts =>
          have hhead := head?_of_split hsplit hc (isDigit_not_isSpace hd)
          rw [hsplit] at h
          split at h
          · rename_i t' jid host heq
            split at heq
            · rename_i hts
              obtain ⟨rfl, -⟩ := List.cons.inj hts
              obtain ⟨time, htime, rfl⟩ := Option.map_eq_some_iff.mp h
              obtain ⟨rfl, -⟩ := Prod.mk.inj (Option.some.inj heq)
              exact pyFloat_of_isDigit hhead hd htime
            · cases heq
          · cases h

/-! ## The start index -/

/-- `_timestamp_present_for_duplicate`. -/
def timestampPresentForDuplicate (itimesSet : List ℤ) (timestampPresent : Option (ℤ → Bool))
    (unixSecond : ℤ) : Bool :=
  match timestampPresent with
  | some probe => probe unixSecond
  | none => itimesSet.contains unixSecond

/-- The loop of `find_processing_start_index`, over the numbered lines. -/
def startIndexLoop (present : ℤ → Bool) (lastIdx : ℤ) : List (String × ℕ) → ℤ
  | [] => -1
  | (line, i) :: rest =>
      match lineSecond line with
      | none => startIndexLoop present lastIdx rest
      | some sec => if present sec then startIndexLoop present i rest else lastIdx

/-- `find_processing_start_index`: the index and `need_archival`. -/
def findProcessingStartIndex (lines : List String) (itimesSet : List ℤ)
    (timestampPresent : Option (ℤ → Bool)) : ℤ × Bool :=
  (startIndexLoop (timestampPresentForDuplicate itimesSet timestampPresent) 0 lines.zipIdx, true)

/-- The loop of the streaming variant, with its own line counter. -/
def startIndexStreamingLoop (present : ℤ → Bool) (lastIdx lineIdx : ℤ) : List String → ℤ × Bool
  | [] => (-1, true)
  | line :: rest =>
      match lineSecond line with
      | none => startIndexStreamingLoop present lastIdx (lineIdx + 1) rest
      | some sec =>
          if present sec then startIndexStreamingLoop present lineIdx (lineIdx + 1) rest
          else (lastIdx, true)

/-- `find_processing_start_index_streaming`, over the lines of the file. -/
def findProcessingStartIndexStreaming (lines : List String) (itimesSet : List ℤ)
    (timestampPresent : Option (ℤ → Bool)) : ℤ × Bool :=
  startIndexStreamingLoop (timestampPresentForDuplicate itimesSet timestampPresent) 0 0 lines

theorem startIndexStreamingLoop_eq (present : ℤ → Bool) (lines : List String) :
    ∀ (lastIdx : ℤ) (i : ℕ), startIndexStreamingLoop present lastIdx i lines
      = (startIndexLoop present lastIdx (lines.zipIdx i), true) := by
  induction lines with
  | nil => intro lastIdx i; rfl
  | cons line rest ih =>
      intro lastIdx i
      have hnext : (i : ℤ) + 1 = (i + 1 : ℕ) := by omega
      rw [List.zipIdx_cons, startIndexStreamingLoop, startIndexLoop, hnext]
      cases lineSecond line with
      | none => exact ih lastIdx (i + 1)
      | some sec =>
          simp only
          split_ifs
          · exact ih i (i + 1)
          · rfl

/-- **The streaming variant.**  Both variants choose the same index. -/
theorem findProcessingStartIndexStreaming_eq (lines : List String) (itimesSet : List ℤ)
    (timestampPresent : Option (ℤ → Bool)) :
    findProcessingStartIndexStreaming lines itimesSet timestampPresent
      = findProcessingStartIndex lines itimesSet timestampPresent := by
  show startIndexStreamingLoop _ 0 ((0 : ℕ) : ℤ) lines = _
  rw [startIndexStreamingLoop_eq]
  rfl

/-! ## What the index stands for -/

/-- The second of the line, if it has one, is stored. -/
def Stored (present : ℤ → Bool) (line : String) : Prop :=
  ∀ sec, lineSecond line = some sec → present sec = true

/-- The line is the header of a sample that is not stored. -/
def Fresh (present : ℤ → Bool) (line : String) : Prop :=
  ∃ sec, lineSecond line = some sec ∧ present sec = false

/-- The first sample that is not stored comes behind lines without a header. -/
def FreshFirst (present : ℤ → Bool) (lines : List String) : Prop :=
  ∃ mid line post, lines = mid ++ line :: post ∧ (∀ l ∈ mid, lineSecond l = none)
    ∧ Fresh present line

/-- The file, cut at the last stored header in front of the first sample that is not stored. -/
structure ResumeSplit (present : ℤ → Bool) (lines before : List String) (header : String)
    (rest : List String) : Prop where
  lines_eq : lines = before ++ header :: rest
  before_stored : ∀ line ∈ before, Stored present line
  header_second : ∃ sec, lineSecond header = some sec ∧ present sec = true
  fresh : FreshFirst present rest

/-- A stored line comes in front of the split. -/
theorem ResumeSplit.cons {present : ℤ → Bool} {lines before rest : List String} {line header : String}
    (hstored : Stored present line) (h : ResumeSplit present lines before header rest) :
    ResumeSplit present (line :: lines) (line :: before) header rest where
  lines_eq := by
    rw [h.lines_eq]
    rfl
  before_stored := List.forall_mem_cons.mpr ⟨hstored, h.before_stored⟩
  header_second := h.header_second
  fresh := h.fresh

/-- **The start index.**  Every second is stored; or the first sample that is not stored comes
first; or the index is that of the last stored header in front of it. -/
theorem startIndex_cases (present : ℤ → Bool) (lines : List String) : ∀ (lastIdx : ℤ) (i : ℕ),
    (startIndexLoop present lastIdx (lines.zipIdx i) = -1 ∧ ∀ line ∈ lines, Stored present line)
      ∨ (startIndexLoop present lastIdx (lines.zipIdx i) = lastIdx ∧ FreshFirst present lines)
      ∨ ∃ before header rest, ResumeSplit present lines before header rest
          ∧ startIndexLoop present lastIdx (lines.zipIdx i) = ((i + before.length : ℕ) : ℤ) := by
  induction lines with
  | nil => intro lastIdx i; exact Or.inl ⟨rfl, by simp⟩
  | cons line rest ih =>
      intro lastIdx i
      rw [List.zipIdx_cons, startIndexLoop]
      cases hsec : lineSecond line with
      | none =>
          have hstored : Stored present line := by
            intro sec h
            rw [hsec] at h
            cases h
          rcases ih lastIdx (i + 1) with ⟨heq, hall⟩ | ⟨heq, mid, f, post, hl, hmid, hf⟩ |
            ⟨before, header, rest', hsplit, heq⟩
          · exact Or.inl ⟨heq, List.forall_mem_cons.mpr ⟨hstored, hall⟩⟩
          · refine Or.inr (Or.inl ⟨heq, line :: mid, f, post, by rw [hl]; rfl, ?_, hf⟩)
            exact List.forall_mem_cons.mpr ⟨hsec, hmid⟩
          · refine Or.inr (Or.inr ⟨line :: before, header, rest', hsplit.cons hstored, ?_⟩)
            simp only [heq, List.length_cons]
            omega
      | some sec =>
          simp only
          split_ifs with hpresent
          · have hstored : Stored present line := by
              intro sec' h
              rw [hsec] at h
              obtain rfl := Option.some.inj h
              exact hpresent
            rcases ih i (i + 1) with ⟨heq, hall⟩ | ⟨heq, hfresh⟩ |
              ⟨before, header, rest', hsplit, heq⟩
            · exact Or.inl ⟨heq, List.forall_mem_cons.mpr ⟨hstored, hall⟩⟩
            · -- this header is the last stored one
              exact Or.inr (Or.inr ⟨[], line, rest, ⟨rfl, by simp, ⟨sec, hsec, hpresent⟩, hfresh⟩,
                by simpa using heq⟩)
            · refine Or.inr (Or.inr ⟨line :: before, header, rest', hsplit.cons hstored, ?_⟩)
              simp only [heq, List.length_cons]
              omega
          · exact Or.inr (Or.inl ⟨rfl, [], line, rest, rfl, by simp, sec, hsec, by simpa using hpresent⟩)

/-- The index of a file. -/
def startIndex (present : ℤ → Bool) (lines : List String) : ℤ :=
  startIndexLoop present 0 lines.zipIdx

/-- In front of the first sample that is not stored nothing moves the index. -/
theorem startIndexLoop_of_freshFirst {present : ℤ → Bool} {lines : List String}
    (h : FreshFirst present lines) (lastIdx : ℤ) (i : ℕ) :
    startIndexLoop present lastIdx (lines.zipIdx i) = lastIdx := by
  obtain ⟨mid, line, post, rfl, hmid, sec, hsec, hno⟩ := h
  induction mid generalizing i with
  | nil =>
      rw [List.nil_append, List.zipIdx_cons, startIndexLoop]
      simp [hsec, hno]
  | cons l mid ih =>
      obtain ⟨hl, hmid⟩ := List.forall_mem_cons.mp hmid
      rw [List.cons_append, List.zipIdx_cons, startIndexLoop, hl]
      exact ih (i + 1) hmid

/-- The cut of a file is the one at its start index. -/
theorem startIndex_of_split {present : ℤ → Bool} {lines before rest : List String}
    {header : String} (h : ResumeSplit present lines before header rest) :
    startIndex present lines = before.length := by
  have hloop : ∀ (before : List String), (∀ line ∈ before, Stored present line) →
      ∀ (lastIdx : ℤ) (i : ℕ),
        startIndexLoop present lastIdx ((before ++ header :: rest).zipIdx i)
          = ((i + before.length : ℕ) : ℤ) := by
    intro before
    induction before with
    | nil =>
        intro _ lastIdx i
        obtain ⟨sec, hsec, hpresent⟩ := h.header_second
        rw [List.nil_append, List.zipIdx_cons, startIndexLoop]
        simp only [hsec, hpresent, if_true]
        exact startIndexLoop_of_freshFirst h.fresh i (i + 1)
    | cons line before ih =>
        intro hstored lastIdx i
        obtain ⟨hline, hbefore⟩ := List.forall_mem_cons.mp hstored
        have hnext : i + 1 + before.length = i + (line :: before).length := by
          rw [List.length_cons]
          omega
        rw [List.cons_append, List.zipIdx_cons, startIndexLoop, ← hnext]
        cases hsec : lineSecond line with
        | none => exact ih hbefore lastIdx (i + 1)
        | some sec =>
            simp only [hline sec hsec, if_true]
            exact ih hbefore i (i + 1)
  rw [startIndex, h.lines_eq, hloop before h.before_stored, Nat.zero_add]

theorem not_stored_of_fresh {present : ℤ → Bool} {line : String} (h : Fresh present line) :
    ¬Stored present line := by
  obtain ⟨sec, hsec, hno⟩ := h
  intro hstored
  rw [hstored sec hsec] at hno
  cases hno

/-- **No sample is skipped.**  A sample that is not stored lies behind the index. -/
theorem startIndex_le_of_fresh {present : ℤ → Bool} {lines : List String} {i : ℕ} {line : String}
    (hline : lines[i]? = some line) (hfresh : Fresh present line) :
    0 ≤ startIndex present lines ∧ startIndex present lines ≤ i := by
  have hmem : line ∈ lines := List.mem_of_getElem? hline
  rcases startIndex_cases present lines 0 0 with ⟨-, hall⟩ | ⟨heq, -⟩ |
    ⟨before, header, rest, hsplit, heq⟩
  · exact absurd (hall line hmem) (not_stored_of_fresh hfresh)
  · rw [startIndex, heq]
    omega
  · rw [startIndex, heq]
    have hle : before.length ≤ i := by
      by_contra hlt
      rw [hsplit.lines_eq, List.getElem?_append_left (by omega)] at hline
      exact not_stored_of_fresh hfresh (hsplit.before_stored line (List.mem_of_getElem? hline))
    omega

/-- The lines in front of the index are stored. -/
theorem stored_before_startIndex {present : ℤ → Bool} {lines : List String}
    (h : startIndex present lines ≠ -1) :
    0 ≤ startIndex present lines
      ∧ ∀ line ∈ lines.take (startIndex present lines).toNat, Stored present line := by
  rcases startIndex_cases present lines 0 0 with ⟨heq, -⟩ | ⟨heq, -⟩ |
    ⟨before, header, rest, hsplit, heq⟩
  · exact absurd heq h
  · rw [startIndex, heq]
    exact ⟨Int.le_refl 0, by simp⟩
  · rw [startIndex, heq, Nat.zero_add]
    refine ⟨by omega, ?_⟩
    rw [Int.toNat_natCast, hsplit.lines_eq, List.take_left]
    exact hsplit.before_stored

/-- With index `-1` every line is stored. -/
theorem stored_of_startIndex {present : ℤ → Bool} {lines : List String}
    (h : startIndex present lines = -1) : ∀ line ∈ lines, Stored present line := by
  rcases startIndex_cases present lines 0 0 with ⟨-, hall⟩ | ⟨heq, -⟩ |
    ⟨before, header, rest, -, heq⟩
  · exact hall
  · rw [startIndex, heq] at h
    cases h
  · rw [startIndex, heq] at h
    omega

end DuplicateScan
