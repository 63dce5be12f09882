/-
# Binding marks to samples

Two parts of the ingest give a mark the time and the host of a sample.  The parser binds a
mark to the sample that is open when the mark is read, and a mark in front of the first
header to that header (`byBlock`).  `collect_marks` binds every mark to the next header
behind it (`byNext`).  The monitor writes the header of a sample first and its marks behind
it, so the open sample is the one in which the mark was written.

`marks_agree_iff` says exactly when the two agree: every mark behind the first header is
followed by another header, and the next one has the time and the host of the open sample.
-/
import HpcPerfStats.StatsParser

namespace MarkBinding

open PyText StatsSchema MonitorMarks StatsParser

/-- The time and the host that a mark is bound to. -/
abbrev Sample : Type :=
  PyFloat × String

/-- The sample of a header line. -/
def sampleOf (line : String) : Option Sample :=
  (headerOf line).map fun t => (t.time, t.host)

/-- The sample of the first header. -/
def firstSample : List String → Option Sample
  | [] => none
  | line :: rest => (sampleOf line).or (firstSample rest)

/-- The marks of the lines, each bound to the open sample, and in front of the first header
to that of the first header. -/
def byBlock : Option Sample → List String → List Mark
  | _, [] => []
  | current, line :: rest =>
      match markOf (lstrip line) with
      | some body => ⟨body, current.or (firstSample rest)⟩ :: byBlock current rest
      | none => byBlock ((sampleOf line).or current) rest

/-- The marks of the lines, each bound to the next header. -/
def byNext : List String → List Mark
  | [] => []
  | line :: rest =>
      match markOf (lstrip line) with
      | some body => ⟨body, firstSample rest⟩ :: byNext rest
      | none => byNext rest

/-- Every mark inside a sample is followed by a header of the same time and host. -/
def FollowedBySame : Option Sample → List String → Prop
  | _, [] => True
  | current, line :: rest =>
      match markOf (lstrip line) with
      | some _ => (current = none ∨ firstSample rest = current) ∧ FollowedBySame current rest
      | none => FollowedBySame ((sampleOf line).or current) rest

instance FollowedBySame.decidable : ∀ current lines, Decidable (FollowedBySame current lines)
  | _, [] => isTrue trivial
  | current, line :: rest =>
      letI := fun c => FollowedBySame.decidable c rest
      match hm : markOf (lstrip line) with
      | some _ =>
          decidable_of_iff
            ((current = none ∨ firstSample rest = current) ∧ FollowedBySame current rest)
            (by simp only [FollowedBySame, hm])
      | none =>
          decidable_of_iff (FollowedBySame ((sampleOf line).or current) rest)
            (by simp only [FollowedBySame, hm])

/-! ## Both binders as functions of the lines -/

/-- Give the unbound marks a sample, if there is one. -/
def bindTo (sample : Option Sample) (marks : List Mark) : List Mark :=
  marks.map fun m => { m with sample := m.sample.or sample }

theorem bindPending_eq (when : PyFloat) (host : String) (marks : List Mark) :
    bindPending when host marks = bindTo (some (when, host)) marks := by
  refine List.map_congr_left fun m _ => ?_
  obtain ⟨body, sample⟩ := m
  cases sample <;> rfl

theorem bindTo_bindTo (a b : Option Sample) (marks : List Mark) :
    bindTo b (bindTo a marks) = bindTo (a.or b) marks := by
  rw [bindTo, bindTo, bindTo, List.map_map]
  refine List.map_congr_left fun m _ => ?_
  simp [Option.or_assoc]

theorem bindTo_append (a : Option Sample) (ms ns : List Mark) :
    bindTo a (ms ++ ns) = bindTo a ms ++ bindTo a ns :=
  List.map_append

theorem firstSample_of_mark {line : String} {body : MarkBody} (rest : List String)
    (h : markOf (lstrip line) = some body) : firstSample (line :: rest) = firstSample rest := by
  rw [firstSample]
  cases hh : headerOf line with
  | none => rw [sampleOf, hh]; rfl
  | some t =>
      rw [markOf_of_header hh] at h
      cases h

theorem bindTo_none (marks : List Mark) : bindTo none marks = marks := by
  refine (List.map_congr_left fun m _ => ?_).trans (List.map_id marks)
  simp

/-- Neither kind of mark. -/
theorem markOf_of_not_startsWith {s : String}
    (h : (startsWith "%jobs" s || startsWith "%affinity" s) = false) : markOf s = none := by
  rw [Bool.or_eq_false_iff] at h
  simp [markOf, h.1, h.2]

theorem head?_of_startsWith {s : String}
    (h : (startsWith "%jobs" s || startsWith "%affinity" s) = true) :
    s.toList.head? = some '%' := by
  rw [Bool.or_eq_true] at h
  rcases h with h | h
  all_goals
    obtain ⟨r, hr⟩ := List.isPrefixOf_iff_prefix.mp h
    rw [← hr]
    rfl

/-- One line of `collect_marks`: a mark is queued, a header binds what is queued. -/
theorem collectLine_eq (marks : List Mark) (line : String) :
    collectLine marks line =
      match markOf (lstrip line) with
      | some body => marks ++ [⟨body, none⟩]
      | none => bindTo (sampleOf line) marks := by
  rw [← markOf_strip]
  cases hpct : (startsWith "%jobs" (strip line) || startsWith "%affinity" (strip line)) with
  | true =>
      have hhead : (lstrip line).toList.head? = some '%' := by
        rw [← head?_strip]
        exact head?_of_startsWith hpct
      have hsample : sampleOf line = none := by
        rw [sampleOf, headerOf_of_head hhead (by decide), Option.map_none]
      cases hm : markOf (strip line) with
      | none => simp only [collectLine, hpct, if_true, hm, hsample, bindTo_none]
      | some body => simp only [collectLine, hpct, if_true, hm]
  | false =>
      simp only [collectLine, hpct, Bool.false_eq_true, if_false, markOf_of_not_startsWith hpct]
      rw [sampleOf, headerOf, head?_strip]
      cases (lstrip line).toList.head? with
      | none => simp [bindTo_none]
      | some c =>
          by_cases hd : c.isDigit = true
          · simp only [hd, if_true]
            have hsplit : split (strip line) = split (lstrip line) := split_rstrip _
            rw [hsplit, digitLineIdentity]
            rcases split (lstrip line) with _ | ⟨t, _ | ⟨jid, _ | ⟨host, tail⟩⟩⟩
            · simp [bindTo_none]
            · simp [bindTo_none]
            · simp [bindTo_none]
            · simp only
              cases pyFloat t with
              | none => simp [bindTo_none]
              | some when => simp [bindPending_eq]
          · simp [hd, bindTo_none]

/-- `collect_marks` binds every mark to the next header. -/
theorem foldl_collectLine (lines : List String) : ∀ marks : List Mark,
    lines.foldl collectLine marks = bindTo (firstSample lines) marks ++ byNext lines := by
  induction lines with
  | nil => intro marks; simp [firstSample, bindTo_none, byNext]
  | cons line rest ih =>
      intro marks
      rw [List.foldl_cons, ih, collectLine_eq, byNext]
      cases hm : markOf (lstrip line) with
      | some body =>
          simp only
          rw [firstSample_of_mark rest hm, bindTo_append, List.append_assoc]
          rfl
      | none =>
          simp only
          rw [bindTo_bindTo, firstSample]

theorem collectMarks_eq (lines : List String) : collectMarks lines = byNext lines := by
  rw [collectMarks, foldl_collectLine]
  rfl

/-- The open sample of the parser. -/
def openSample (st : SampleState) : Option Sample :=
  st.tags.map fun t => (t.time, t.host)

/-- While a sample is open no mark is pending. -/
def NonePending (st : SampleState) : Prop :=
  st.tags ≠ none → ∀ m ∈ st.marks, m.sample ≠ none

theorem nonePending_feed {st : SampleState} (h : NonePending st) (line : String) :
    NonePending (st.feed true line) := by
  rw [SampleState.feed]
  cases markOf (lstrip line) with
  | some body =>
      intro ht m hm
      rcases List.mem_append.mp hm with hm | hm
      · exact h ht m hm
      · rw [List.mem_singleton.mp hm]
        have hne : st.tags ≠ none := ht
        simpa using hne
  | none =>
      cases headerOf line with
      | none => exact h
      | some t =>
          intro _ m hm
          obtain ⟨m', -, rfl⟩ := List.mem_map.mp hm
          by_cases hs : m'.sample = none
          · simp [hs]
          · simp [hs]

/-- The sample state behind a list of lines, all of which are read. -/
theorem marks_foldl_feed (lines : List String) : ∀ st : SampleState, NonePending st →
    (lines.foldl (SampleState.feed true) st).marks
      = bindTo (firstSample lines) st.marks ++ byBlock (openSample st) lines := by
  induction lines with
  | nil => intro st _; simp [firstSample, bindTo_none, byBlock]
  | cons line rest ih =>
      intro st hst
      rw [List.foldl_cons, ih _ (nonePending_feed hst line), byBlock]
      cases hm : markOf (lstrip line) with
      | some body =>
          have hfeed : st.feed true line = st.addMark body := by
            simp only [SampleState.feed, hm]
          rw [hfeed, firstSample_of_mark rest hm]
          simp only [SampleState.addMark, bindTo_append, List.append_assoc]
          rfl
      | none =>
          cases hh : headerOf line with
          | none =>
              have hfeed : st.feed true line = st := by
                simp only [SampleState.feed, hm, hh, if_true]
              have hs : sampleOf line = none := by rw [sampleOf, hh]; rfl
              rw [hfeed, firstSample, hs]
              rfl
          | some t =>
              have hfeed : st.feed true line = st.openSample t := by
                simp only [SampleState.feed, hm, hh, if_true]
              have hs : sampleOf line = some (t.time, t.host) := by rw [sampleOf, hh]; rfl
              rw [hfeed, firstSample, hs]
              simp only [SampleState.openSample, bindPending_eq, bindTo_bindTo]
              rfl

/-- The parser moves its sample state line by line, as long as it raises no exception. -/
theorem feedLines_sampleState (lines : List String) : ∀ p p' : Parser, p.startIdx = 0 →
    p.feedLines lines = .ok p' →
      p'.sampleState = lines.foldl (SampleState.feed true) p.sampleState := by
  induction lines with
  | nil =>
      intro p p' _ h
      obtain rfl := Except.ok.inj h
      rfl
  | cons line rest ih =>
      intro p p' h0 h
      rw [Parser.feedLines, List.foldlM_cons] at h
      obtain ⟨q, hq, h⟩ := bind_ok h
      have heff := feedLine_effect hq
      rw [ih q p' (heff.startIdx.trans h0) h, List.foldl_cons, heff.sample, h0]
      rfl

/-- The parser binds every mark to the sample in which it was written. -/
theorem feedLines_marks {excludeTypes lines : List String} {p : Parser}
    (h : (Parser.init 0 excludeTypes).feedLines lines = .ok p) :
    p.marks = byBlock none lines := by
  have hst := feedLines_sampleState lines _ p rfl h
  have hmarks := marks_foldl_feed lines (Parser.init 0 excludeTypes).sampleState
    fun hne => absurd rfl hne
  rw [← hst] at hmarks
  exact hmarks

/-! ## When the two binders agree -/

theorem byBlock_eq_byNext_iff (lines : List String) : ∀ current : Option Sample,
    byBlock current lines = byNext lines ↔ FollowedBySame current lines := by
  induction lines with
  | nil => intro current; simp [byBlock, byNext, FollowedBySame]
  | cons line rest ih =>
      intro current
      rw [byBlock, byNext, FollowedBySame]
      cases markOf (lstrip line) with
      | none => exact ih _
      | some body =>
          simp only [List.cons.injEq, Mark.mk.injEq, true_and, ih current]
          refine and_congr_left fun _ => ?_
          cases current with
          | none => simp
          | some s => simp [eq_comm]

/-- **Binding.**  For every sequence of lines that the parser reads without an exception:
the parser and `collect_marks` bind every mark to the same sample, namely the one in which
the mark was written, if and only if every mark inside a sample is followed by a header with
the same time and host. -/
theorem marks_agree_iff (excludeTypes lines : List String) (p : Parser)
    (h : (Parser.init 0 excludeTypes).feedLines lines = .ok p) :
    (p.marks = collectMarks lines ∧ p.marks = byBlock none lines)
      ↔ FollowedBySame none lines := by
  rw [collectMarks_eq, feedLines_marks h, byBlock_eq_byNext_iff]
  simp

/-- Marks in front of the first header, and a mark between two headers of one sample. -/
def agreeingLines : List String :=
  ["%jobs jids=7", "1710000001.0 7 hosta", "%affinity jid=7 cpus=0-1", "1710000001 8 hosta"]

theorem marks_agree_iff_agreeingLines :
    ∃ p, (Parser.init 0 []).feedLines agreeingLines = .ok p
      ∧ p.marks = collectMarks agreeingLines := by
  have heval : ((Parser.init 0 []).feedLines agreeingLines).isOk = true
      ∧ FollowedBySame none agreeingLines := by decide +kernel
  obtain ⟨hok, hfollowed⟩ := heval
  cases hrun : (Parser.init 0 []).feedLines agreeingLines with
  | error e => rw [hrun] at hok; cases hok
  | ok p => exact ⟨p, rfl, ((marks_agree_iff [] agreeingLines p hrun).mpr hfollowed).1⟩

/-- One sample as the monitor writes it, header first, and the next sample. -/
def monitorLines : List String :=
  ["1710000001 7 hosta", "%jobs jids=7", "1710000002 7 hosta"]

/-- **A mark on the wrong sample.**  The parser binds the mark to second 1710000001, in which
it was written, and `collect_marks` to the next one. -/
theorem not_marks_agree_monitorLines :
    ∃ p, (Parser.init 0 []).feedLines monitorLines = .ok p
      ∧ p.marks = byBlock none monitorLines ∧ p.marks ≠ collectMarks monitorLines := by
  have heval : ((Parser.init 0 []).feedLines monitorLines).isOk = true
      ∧ byBlock none monitorLines ≠ collectMarks monitorLines := by decide +kernel
  obtain ⟨hok, hdiff⟩ := heval
  cases hrun : (Parser.init 0 []).feedLines monitorLines with
  | error e => rw [hrun] at hok; cases hok
  | ok p =>
      refine ⟨p, rfl, feedLines_marks hrun, ?_⟩
      rw [feedLines_marks hrun]
      exact hdiff

end MarkBinding
