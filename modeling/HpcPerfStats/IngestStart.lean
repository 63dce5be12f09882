/-
# Where an ingest starts

`_resolve_streaming_ingest_start` decides from the database where a stats file is parsed from.
When the second of the first header is not stored, the file is parsed from the first line.
Otherwise three probes are asked in turn; each may report the file as complete, and then it is
not parsed at all:

* head and tail: the second of the last header is stored
* tail window: the seconds of the last headers are stored (large files only)
* full scan: every second is stored; else its answer is the start index

The tail is read backwards in pieces (`tailLines`), which gives the lines of the file in
reverse order (`tailLines_filter`).  The answers of the database may be cached, so a probe
sees the database as it was (`Views`).
-/
import HpcPerfStats.DuplicateScan

namespace IngestStart

open PyText StatsParser DuplicateScan

/-! ## Files -/

/-- A stats file. -/
structure StatsFile where
  content : String
  deriving DecidableEq

def StatsFile.lines (f : StatsFile) : List String :=
  splitSep '\n' f.content

/-- `stats_file_size_bytes`. -/
def StatsFile.sizeBytes (f : StatsFile) : ℤ :=
  f.content.utf8ByteSize

/-- The line begins with a digit. -/
def digitLeading (line : String) : Bool :=
  match (lstrip line).toList.head? with
  | some c => c.isDigit
  | none => false

/-- The identity of a header line: the time token, the job id and the host. -/
def lineIdentity (line : String) : Option (String × String × String) :=
  if digitLeading line then digitLineIdentity (lstrip line) else none

/-- `parse_first_timestamp_line_streaming`. -/
def StatsFile.parseFirstTimestampLine (f : StatsFile) : Option (String × String × String) :=
  f.lines.findSome? lineIdentity

/-! ## Reading the tail -/

/-- The pieces of a text from its end on, each of the given size but the last. -/
def tailPieces (size : ℕ) : ℕ → List Char → List (List Char)
  | 0, _ => []
  | fuel + 1, cs =>
      if cs.isEmpty then []
      else cs.drop (cs.length - size) :: tailPieces size fuel (cs.take (cs.length - size))

/-- The lines of the pieces, newest first; the open line of a piece is carried to the next. -/
def linesOfPieces : List Char → List (List Char) → List (List Char)
  | _, [] => []
  | carry, [p] => (splitSepChars '\n' (p ++ carry)).reverse
  | carry, p :: ps =>
      match splitSepChars '\n' (p ++ carry) with
      | [] => []
      | c :: parts => parts.reverse ++ linesOfPieces c ps

/-- `tail_read_bytes`. -/
def tailReadBytes : ℕ :=
  max 4096 65536

/-- The lines of the file as the tail readers see them. -/
def StatsFile.tailLines (f : StatsFile) : List String :=
  (linesOfPieces [] (tailPieces tailReadBytes f.content.toList.length f.content.toList)).map
    String.ofList

/-- `parse_last_timestamp_line_streaming`. -/
def StatsFile.parseLastTimestampLine (f : StatsFile) : Option (String × String × String) :=
  f.tailLines.findSome? lineIdentity

/-- `_collect_tail_timestamp_lines`: up to `maxLines` lines that begin with a digit. -/
def StatsFile.collectTailTimestampLines (f : StatsFile) (maxLines : ℕ) : List String :=
  (f.tailLines.filter digitLeading).take maxLines

/-- **Reading backwards.**  However the text is cut into pieces, its lines come in reverse
order. -/
theorem linesOfPieces_eq (ps : List (List Char)) : ∀ (p carry : List Char),
    linesOfPieces carry (p :: ps)
      = (splitSepChars '\n' ((p :: ps).reverse.flatten ++ carry)).reverse := by
  induction ps with
  | nil =>
      intro p carry
      simp [linesOfPieces]
  | cons p' ps ih =>
      intro p carry
      rw [linesOfPieces]
      cases hsplit : splitSepChars '\n' (p ++ carry) with
      | nil => exact absurd hsplit (splitSepChars_ne_nil _ _)
      | cons c parts =>
          simp only
          rw [ih p' c, List.reverse_cons (a := p), List.flatten_append, List.flatten_singleton,
            List.append_assoc, splitSepChars_append hsplit, List.reverse_append]
      intro hcontra
      cases hcontra

theorem flatten_tailPieces {size : ℕ} (hsize : 0 < size) : ∀ (fuel : ℕ) (cs : List Char),
    cs.length ≤ fuel → (tailPieces size fuel cs).reverse.flatten = cs := by
  intro fuel
  induction fuel with
  | zero =>
      intro cs hlen
      rw [List.length_eq_zero_iff.mp (Nat.le_zero.mp hlen)]
      rfl
  | succ fuel ih =>
      intro cs hlen
      rw [tailPieces]
      split_ifs with hnil
      · rw [List.isEmpty_iff.mp hnil]
        rfl
      · have hpos : 0 < cs.length := by
          rw [List.length_pos_iff]
          simpa using hnil
        have hshort : (cs.take (cs.length - size)).length ≤ fuel := by
          rw [List.length_take]
          omega
        rw [List.reverse_cons, List.flatten_append, ih _ hshort, List.flatten_singleton,
          List.take_append_drop]

theorem linesOfPieces_tailPieces {size : ℕ} (hsize : 0 < size) {cs : List Char} (hne : cs ≠ []) :
    linesOfPieces [] (tailPieces size cs.length cs) = (splitSepChars '\n' cs).reverse := by
  have hflat := flatten_tailPieces hsize cs.length cs le_rfl
  cases hpieces : tailPieces size cs.length cs with
  | nil =>
      rw [hpieces] at hflat
      exact absurd hflat.symm hne
  | cons p ps =>
      rw [hpieces] at hflat
      rw [linesOfPieces_eq, hflat, List.append_nil]

/-- The tail readers see the header lines of the file, newest first. -/
theorem tailLines_filter (f : StatsFile) :
    f.tailLines.filter digitLeading = (f.lines.filter digitLeading).reverse := by
  rw [StatsFile.tailLines, StatsFile.lines, splitSep]
  by_cases hne : f.content.toList = []
  · rw [hne]
    rfl
  · rw [linesOfPieces_tailPieces (by decide) hne, List.map_reverse, List.filter_reverse]

/-! ## The database -/

/-- The hosts and seconds that `host_data` has rows for. -/
abbrev Database : Type :=
  List (String × ℤ)

/-- What the probes see: the caches hold answers that the database gave before.  A query of
the times of a host may also be cut off. -/
structure Views where
  head : Database
  second : Database
  itimes : Database
  itimesCutOff : Bool
  deriving DecidableEq

/-- The settings of the probes. -/
structure ProbeConfig where
  listendDbIngestEnabled : Bool
  streamDuplicateScanBytes : ℤ
  dbCompleteTailWindowLines : ℕ
  maxTimestampsPerEntry : ℕ

/-- The exceptions of a probe. -/
inductive ProbeError where
  | valueError
  | lookupBudgetExceeded
  deriving DecidableEq

/-- `int(float(t))`. -/
def unixSecond (t : String) : Except ProbeError ℤ :=
  ((pyFloat t).bind PyFloat.toInt).elim (.error .valueError) .ok

/-- `host_recent_timestamps_cached`: the seconds of a host in a window, or an overflow. -/
def hostRecentTimestamps (cfg : ProbeConfig) (v : Views) (host : String) (low high : ℤ) :
    Option (List ℤ) :=
  let times := ((v.itimes.filter fun e => e.1 = host ∧ low ≤ e.2 ∧ e.2 < high).map
    Prod.snd).eraseDups
  if v.itimesCutOff ∨ cfg.maxTimestampsPerEntry < times.length then none else some times

/-- The seconds around the head that a duplicate scan looks at. -/
def scanWindow (cfg : ProbeConfig) (v : Views) (host : String) (head : ℤ) : Option (List ℤ) :=
  hostRecentTimestamps cfg v host (head - 48 * 3600) (head + 72 * 3600)

/-- What a duplicate scan asks: the seconds of the window, or on overflow one query for each
second. -/
def scanProbe (cfg : ProbeConfig) (v : Views) (host : String) (head : ℤ) :
    List ℤ × Option (ℤ → Bool) :=
  match scanWindow cfg v host head with
  | some times => (times, none)
  | none => ([], some fun sec => v.second.contains (host, sec))

def scanPresent (cfg : ProbeConfig) (v : Views) (host : String) (head : ℤ) : ℤ → Bool :=
  timestampPresentForDuplicate (scanProbe cfg v host head).1 (scanProbe cfg v host head).2

/-- The queries of a scan: it stops at the first second that is not stored. -/
def probesUsed (present : ℤ → Bool) : List String → ℕ
  | [] => 0
  | line :: rest =>
      match lineSecond line with
      | none => probesUsed present rest
      | some sec => if present sec then probesUsed present rest + 1 else 1

/-- On overflow a scan has a budget of queries. -/
def checkBudget (cfg : ProbeConfig) (v : Views) (host : String) (head : ℤ) (lines : List String) :
    Except ProbeError Unit :=
  if scanWindow cfg v host head = none
      ∧ cfg.maxTimestampsPerEntry < probesUsed (scanPresent cfg v host head) lines then
    .error .lookupBudgetExceeded
  else .ok ()

/-! ## Probes -/

/-- `_try_db_complete_head_tail_fast_path`. -/
def tryDbCompleteHeadTailFastPath (cfg : ProbeConfig) (v : Views) (f : StatsFile) (host : String) :
    Except ProbeError (Option (ℤ × Bool)) :=
  if cfg.listendDbIngestEnabled then .ok none
  else
    match f.parseLastTimestampLine with
    | none => .ok none
    | some (t, _, tailHost) => do
        let tailUnix ← unixSecond t
        let tailHost := strip (if tailHost = "" then host else tailHost)
        .ok (if v.second.contains (tailHost, tailUnix) then some (-1, true) else none)

/-- `tail_window_timestamps_all_present_streaming`. -/
def tailWindowAllPresent (present : ℤ → Bool) (lines : List String) : Bool :=
  if lines.isEmpty then false
  else lines.all fun line =>
    match lineSecond line with
    | none => true
    | some sec => present sec

/-- `_try_db_complete_tail_window_fast_path`. -/
def tryDbCompleteTailWindowFastPath (cfg : ProbeConfig) (v : Views) (f : StatsFile)
    (host : String) (head : ℤ) : Except ProbeError (Option (ℤ × Bool)) :=
  if cfg.listendDbIngestEnabled then .ok none
  else if cfg.streamDuplicateScanBytes ≤ 0 then .ok none
  else if f.sizeBytes ≤ cfg.streamDuplicateScanBytes then .ok none
  else do
    let lines := f.collectTailTimestampLines cfg.dbCompleteTailWindowLines
    checkBudget cfg v host head lines
    .ok (if tailWindowAllPresent (scanPresent cfg v host head) lines then some (-1, true) else none)

/-- `_duplicate_window_start_index`. -/
def duplicateWindowStartIndex (cfg : ProbeConfig) (v : Views) (f : StatsFile) (host : String)
    (head : ℤ) : Except ProbeError (ℤ × Bool) := do
  checkBudget cfg v host head f.lines
  .ok (findProcessingStartIndexStreaming f.lines (scanProbe cfg v host head).1
    (scanProbe cfg v host head).2)

/-- The probe that reports a file as complete. -/
inductive CompleteReason where
  | headTail
  | tailWindow
  | fullScan
  deriving DecidableEq

/-- What is decided about a file. -/
inductive StartDecision where
  | parseFailure (detail : String)
  | dbComplete (reason : CompleteReason)
  | parse (startIdx : ℤ)
  deriving DecidableEq

/-- `_resolve_streaming_ingest_start`. -/
def resolveStreamingIngestStart (cfg : ProbeConfig) (v : Views) (f : StatsFile) :
    Except ProbeError StartDecision :=
  match f.parseFirstTimestampLine with
  | none => .ok (.parseFailure "initial_timestamp_not_found")
  | some (t, _, host) =>
      if host = "" then .ok (.parseFailure "initial_host_not_found")
      else do
        let host := strip host
        let head ← unixSecond t
        if v.head.contains (host, head) = false then .ok (.parse 0)
        else do
          let fast ← tryDbCompleteHeadTailFastPath cfg v f host
          match fast with
          | some (idx, _) => .ok (if idx = -1 then .dbComplete .headTail else .parse idx)
          | none => do
              let tailFast ← tryDbCompleteTailWindowFastPath cfg v f host head
              match tailFast with
              | some (idx, _) => .ok (if idx = -1 then .dbComplete .tailWindow else .parse idx)
              | none => do
                  let scan ← duplicateWindowStartIndex cfg v f host head
                  .ok (if scan.1 = -1 then .dbComplete .fullScan else .parse scan.1)

/-! ## What the decisions mean -/

section Decisions

variable {cfg : ProbeConfig} {v : Views} {f : StatsFile} {host : String} {head : ℤ}

/-- A second that the scan finds is in one of the views. -/
theorem mem_of_scanPresent {sec : ℤ} (h : scanPresent cfg v host head sec = true) :
    (host, sec) ∈ v.itimes ∨ (host, sec) ∈ v.second := by
  rw [scanPresent, scanProbe] at h
  cases hw : scanWindow cfg v host head with
  | none =>
      rw [hw] at h
      right
      simpa [timestampPresentForDuplicate] using h
  | some times =>
      rw [hw] at h
      left
      rw [scanWindow, hostRecentTimestamps] at hw
      split_ifs at hw
      obtain rfl := Option.some.inj hw
      have hmem : sec ∈ ((v.itimes.filter fun e => e.1 = host ∧ head - 48 * 3600 ≤ e.2
          ∧ e.2 < head + 72 * 3600).map Prod.snd).eraseDups := by
        simpa [timestampPresentForDuplicate] using h
      rw [List.mem_eraseDups, List.mem_map] at hmem
      obtain ⟨⟨host', sec'⟩, he, rfl⟩ := hmem
      obtain ⟨he, hcond⟩ := List.mem_filter.mp he
      obtain ⟨hhost, -, -⟩ := of_decide_eq_true hcond
      have hhost' : host' = host := hhost
      rwa [← hhost']

/-- The head-tail probe answers only when the tail is stored. -/
theorem headTail_some {r : ℤ × Bool}
    (h : tryDbCompleteHeadTailFastPath cfg v f host = .ok (some r)) :
    r.1 = -1 ∧ ∃ t jid tailHost sec, f.parseLastTimestampLine = some (t, jid, tailHost)
      ∧ unixSecond t = .ok sec
      ∧ (strip (if tailHost = "" then host else tailHost), sec) ∈ v.second := by
  rw [tryDbCompleteHeadTailFastPath] at h
  split_ifs at h
  · cases h
  · split at h
    · cases h
    · rename_i t jid tailHost hlast
      obtain ⟨sec, hsec, h⟩ := bind_ok h
      have h := Except.ok.inj h
      by_cases hmem : v.second.contains
          (strip (if tailHost = "" then host else tailHost), sec) = true
      · rw [if_pos hmem] at h
        obtain rfl := Option.some.inj h
        exact ⟨rfl, t, jid, tailHost, sec, hlast, hsec, List.contains_iff_mem.mp hmem⟩
      · rw [if_neg hmem] at h
        cases h

/-- The tail-window probe answers only when the window is stored. -/
theorem tailWindow_some {r : ℤ × Bool}
    (h : tryDbCompleteTailWindowFastPath cfg v f host head = .ok (some r)) :
    r.1 = -1 ∧ tailWindowAllPresent (scanPresent cfg v host head)
      (f.collectTailTimestampLines cfg.dbCompleteTailWindowLines) = true := by
  rw [tryDbCompleteTailWindowFastPath] at h
  split_ifs at h
  · cases h
  · cases h
  · cases h
  · obtain ⟨-, -, h⟩ := bind_ok h
    have h := Except.ok.inj h
    split_ifs at h with hall
    obtain rfl := Option.some.inj h
    exact ⟨rfl, hall⟩

theorem duplicateWindow_ok {r : ℤ × Bool}
    (h : duplicateWindowStartIndex cfg v f host head = .ok r) :
    r.1 = startIndex (scanPresent cfg v host head) f.lines := by
  rw [duplicateWindowStartIndex] at h
  obtain ⟨-, -, h⟩ := bind_ok h
  rw [← Except.ok.inj h, findProcessingStartIndexStreaming_eq]
  rfl

/-- **Decisions.**  A file is complete when the head is stored and one of the three probes
says so; it is parsed from the first line, or from the line that the full scan answers. -/
theorem resolve_cases {d : StartDecision} (h : resolveStreamingIngestStart cfg v f = .ok d) :
    (∃ detail, d = .parseFailure detail) ∨ d = .parse 0
      ∨ ∃ t jid host head, f.parseFirstTimestampLine = some (t, jid, host)
        ∧ ((d = .dbComplete .headTail
              ∧ ∃ t' jid' tailHost sec, f.parseLastTimestampLine = some (t', jid', tailHost)
                ∧ unixSecond t' = .ok sec
                ∧ (strip (if tailHost = "" then strip host else tailHost), sec) ∈ v.second)
          ∨ (d = .dbComplete .tailWindow
              ∧ tailWindowAllPresent (scanPresent cfg v (strip host) head)
                (f.collectTailTimestampLines cfg.dbCompleteTailWindowLines) = true)
          ∨ (d = .dbComplete .fullScan
              ∧ startIndex (scanPresent cfg v (strip host) head) f.lines = -1)
          ∨ (d = .parse (startIndex (scanPresent cfg v (strip host) head) f.lines)
              ∧ startIndex (scanPresent cfg v (strip host) head) f.lines ≠ -1)) := by
  rw [resolveStreamingIngestStart] at h
  split at h
  · exact Or.inl ⟨_, (Except.ok.inj h).symm⟩
  · rename_i t jid host hfirst
    split_ifs at h with hhost
    · exact Or.inl ⟨_, (Except.ok.inj h).symm⟩
    · obtain ⟨head, -, h⟩ := bind_ok h
      split_ifs at h with hpresent
      · exact Or.inr (Or.inl (Except.ok.inj h).symm)
      · refine Or.inr (Or.inr ⟨t, jid, host, head, hfirst, ?_⟩)
        obtain ⟨fast, hfast, h⟩ := bind_ok h
        cases fast with
        | some r =>
            obtain ⟨hidx, htail⟩ := headTail_some hfast
            left
            refine ⟨?_, htail⟩
            rw [← Except.ok.inj h, if_pos hidx]
        | none =>
            obtain ⟨window, hwindow, h⟩ := bind_ok h
            cases window with
            | some r =>
                obtain ⟨hidx, hall⟩ := tailWindow_some hwindow
                right; left
                refine ⟨?_, hall⟩
                rw [← Except.ok.inj h, if_pos hidx]
            | none =>
                obtain ⟨r, hr, h⟩ := bind_ok h
                right; right
                have hidx := duplicateWindow_ok hr
                rw [hidx] at h
                by_cases hall : startIndex (scanPresent cfg v (strip host) head) f.lines = -1
                · left
                  refine ⟨?_, hall⟩
                  rw [← Except.ok.inj h, if_pos hall]
                · right
                  refine ⟨?_, hall⟩
                  rw [← Except.ok.inj h, if_neg hall]

end Decisions

/-! ## The tail -/

/-- Every line that begins with a digit is a header with a number for its time. -/
def StatsFile.HeadersRead (f : StatsFile) : Prop :=
  ∀ line ∈ f.lines, digitLeading line = true → (lineSecond line).isSome = true

instance (f : StatsFile) : Decidable f.HeadersRead :=
  inferInstanceAs (Decidable (∀ line ∈ f.lines, digitLeading line = true →
    (lineSecond line).isSome = true))

/-- The second of the last sample. -/
def StatsFile.tailSecond (f : StatsFile) : Option ℤ :=
  (sampleSeconds f.lines).getLast?

theorem lineSecond_of_not_digitLeading {line : String} (h : digitLeading line = false) :
    lineSecond line = none := by
  rw [digitLeading] at h
  rw [lineSecond]
  cases hc : (lstrip line).toList.head? with
  | none => rfl
  | some c =>
      rw [hc] at h
      have hd : c.isDigit = false := h
      simp [hd]

/-- A header line, its identity and its second. -/
theorem lineSecond_of_lineIdentity {line t jid host : String}
    (h : lineIdentity line = some (t, jid, host)) :
    digitLeading line = true ∧ lineSecond line = (pyFloat t).bind PyFloat.toInt := by
  rw [lineIdentity] at h
  split_ifs at h with hd
  refine ⟨hd, ?_⟩
  rw [digitLeading] at hd
  rw [lineSecond]
  cases hc : (lstrip line).toList.head? with
  | none => rw [hc] at hd; cases hd
  | some c =>
      rw [hc] at hd
      have hd' : c.isDigit = true := hd
      simp only [hd', if_true, digitLineUnixSecond, h]

theorem host_of_lineIdentity {line t jid host : String} {tags : Tags}
    (h : lineIdentity line = some (t, jid, host)) (hheader : headerOf line = some tags) :
    tags.host = host := by
  rw [lineIdentity] at h
  split_ifs at h
  rw [headerOf] at hheader
  split at hheader
  · cases hheader
  · split_ifs at hheader
    rw [h] at hheader
    obtain ⟨time, -, rfl⟩ := Option.map_eq_some_iff.mp hheader
    rfl

theorem unixSecond_ok {t : String} {sec : ℤ} (h : unixSecond t = .ok sec) :
    (pyFloat t).bind PyFloat.toInt = some sec := by
  rw [unixSecond] at h
  cases hsec : (pyFloat t).bind PyFloat.toInt with
  | none => rw [hsec] at h; cases h
  | some sec' =>
      rw [hsec] at h
      rw [Except.ok.inj h]

/-- The seconds are those of the lines that begin with a digit. -/
theorem sampleSeconds_filter (lines : List String) :
    sampleSeconds (lines.filter digitLeading) = sampleSeconds lines := by
  rw [sampleSeconds, sampleSeconds, List.filterMap_filter]
  refine List.filterMap_congr fun line _ => ?_
  by_cases hd : digitLeading line = true
  · rw [if_pos hd]
  · rw [if_neg hd, lineSecond_of_not_digitLeading (by simpa using hd)]

/-- The last header holds the second of the last sample. -/
theorem tailSecond_of_getLast? {f : StatsFile} {line : String} {sec : ℤ}
    (h : (f.lines.filter digitLeading).getLast? = some line) (hsec : lineSecond line = some sec) :
    f.tailSecond = some sec := by
  obtain ⟨front, hfront⟩ := List.getLast?_eq_some_iff.mp h
  rw [StatsFile.tailSecond, ← sampleSeconds_filter, hfront, sampleSeconds, List.filterMap_append,
    List.filterMap_cons_some hsec]
  simp

/-- The newest line of the tail readers. -/
theorem head?_tailLines (f : StatsFile) :
    (f.tailLines.filter digitLeading).head? = (f.lines.filter digitLeading).getLast? := by
  rw [tailLines_filter, List.head?_reverse]

/-- **The tail of a file.**  When every header can be read, the last timestamp line is the
last sample. -/
theorem parseLast_eq_some {f : StatsFile} (hread : f.HeadersRead) {t jid host : String}
    (h : f.parseLastTimestampLine = some (t, jid, host)) {sec : ℤ} (hsec : unixSecond t = .ok sec) :
    f.tailSecond = some sec ∧ ∃ line ∈ f.lines, lineIdentity line = some (t, jid, host) := by
  have hfilter : ∀ lines : List String,
      lines.findSome? lineIdentity = (lines.filter digitLeading).findSome? lineIdentity := by
    intro lines
    induction lines with
    | nil => rfl
    | cons line rest ih =>
        by_cases hd : digitLeading line = true
        · rw [List.filter_cons_of_pos hd, List.findSome?_cons, List.findSome?_cons, ih]
        · have hnone : lineIdentity line = none := if_neg hd
          rw [List.filter_cons_of_neg hd, List.findSome?_cons, hnone, ih]
  rw [StatsFile.parseLastTimestampLine, hfilter] at h
  cases hlast : f.tailLines.filter digitLeading with
  | nil => rw [hlast] at h; cases h
  | cons line rest =>
      have hgetLast : (f.lines.filter digitLeading).getLast? = some line := by
        rw [← head?_tailLines, hlast]
        rfl
      have hmem := List.mem_filter.mp (List.mem_of_getLast? hgetLast)
      -- a header that can be read has an identity
      have hid : lineIdentity line = some (t, jid, host) := by
        rw [hlast, List.findSome?_cons] at h
        cases hline : lineIdentity line with
        | some ident =>
            rw [hline] at h
            exact h
        | none =>
            obtain ⟨sec', hsec'⟩ := Option.isSome_iff_exists.mp (hread line hmem.1 hmem.2)
            obtain ⟨tags, hheader, -⟩ := headerOf_of_lineSecond hsec'
            rw [lineIdentity, if_pos hmem.2] at hline
            rw [headerOf] at hheader
            split at hheader
            · cases hheader
            · split_ifs at hheader
              rw [hline] at hheader
              cases hheader
      refine ⟨tailSecond_of_getLast? hgetLast ?_, line, hmem.1, hid⟩
      rw [(lineSecond_of_lineIdentity hid).2, unixSecond_ok hsec]

/-- The tail window holds the last sample. -/
theorem tailSecond_of_window {f : StatsFile} (hread : f.HeadersRead) {present : ℤ → Bool} {n : ℕ}
    (h : tailWindowAllPresent present (f.collectTailTimestampLines n) = true) :
    ∃ sec, f.tailSecond = some sec ∧ present sec = true := by
  rw [tailWindowAllPresent] at h
  split_ifs at h with hempty
  rw [StatsFile.collectTailTimestampLines] at h hempty
  cases hlast : f.tailLines.filter digitLeading with
  | nil => rw [hlast] at hempty; simp at hempty
  | cons line rest =>
      cases n with
      | zero => simp at hempty
      | succ n =>
          have hgetLast : (f.lines.filter digitLeading).getLast? = some line := by
            rw [← head?_tailLines, hlast]
            rfl
          have hmem := List.mem_filter.mp (List.mem_of_getLast? hgetLast)
          obtain ⟨sec, hsec⟩ := Option.isSome_iff_exists.mp (hread line hmem.1 hmem.2)
          refine ⟨sec, tailSecond_of_getLast? hgetLast hsec, ?_⟩
          rw [hlast, List.take_succ_cons, List.all_cons, Bool.and_eq_true] at h
          have hline := h.1
          rw [hsec] at hline
          exact hline

end IngestStart
