/-
# Histories of ingest attempts

The database is filled by ingest attempts.  An attempt decides where to start, parses from
there and writes the rows in chunks; it may fail behind any chunk.  So what it writes are the
rows of some chunks that make up a prefix of the parsed rows.

A file that is reported as complete is not parsed again.  The probes look at its first and its
last seconds only, so what is in between must have been stored by then.  The invariant
(`TailsLast`) is that the second of the last sample of a file is stored only when all its
seconds are.  An attempt keeps it for files whose samples all write a row, when no file of the
host reaches the last second of a file before it has passed all other seconds of it
(`Regular`).

Files of one host that share a second break it (`not_complete_rotatedFiles`): the attempt of
the next file stores the last second of a file of which only a prefix is stored.
-/
import HpcPerfStats.IngestStart
import HpcPerfStats.SampleCoverage
import HpcPerfStats.Transition

namespace IngestHistory

open PyText StatsParser DuplicateScan IngestStart SharedStamp CounterDeltas DeltaChunks ResumeIndex
open SampleCoverage Transition

/-! ## Attempts -/

/-- The hosts and seconds that chunks of rows store. -/
def writtenSeconds (chunks : List (List Row)) : Database :=
  (foldChunks DeltaCarryState.empty (chunks.map (List.map statRow))).map
    fun r => (r.host, second r.time)

/-- An ingest attempt: what its probes see, how many lines it reads before it ends or fails,
and the chunks that it writes. -/
structure Attempt where
  file : StatsFile
  views : Views
  linesRead : ℕ
  chunks : List (List Row)

/-- The views hold answers that the database gave before; it only grows. -/
def Within (v : Views) (db : Database) : Prop :=
  v.head ⊆ db ∧ v.second ⊆ db ∧ v.itimes ⊆ db

instance (v : Views) (db : Database) : Decidable (Within v db) :=
  inferInstanceAs (Decidable (v.head ⊆ db ∧ v.second ⊆ db ∧ v.itimes ⊆ db))

/-- `_add_stats_file_to_db_streaming_incremental`: an attempt writes chunks that make up a
prefix of the rows parsed so far. -/
def attempt (cfg : ProbeConfig) (excludeTypes : List String) (db : Database) (e : Attempt) :
    Option Database :=
  if Within e.views db then
    match resolveStreamingIngestStart cfg e.views e.file with
    | .ok (.parse idx) =>
        match (Parser.init idx.toNat excludeTypes).feedLines (e.file.lines.take e.linesRead) with
        | .ok p => if e.chunks.flatten <+: p.rows then some (db ++ writtenSeconds e.chunks) else none
        | .error _ => none
    | _ => some db
  else none

/-! ## Regular files -/

/-- The host of a file: that of its first header. -/
def host (f : StatsFile) : Option String :=
  f.parseFirstTimestampLine.map fun ident => strip ident.2.2

/-- The other file reaches the last second of the file only behind all seconds of the file. -/
def TailBehind (f g : StatsFile) : Prop :=
  ∀ i < g.lines.length, g.lines[i]?.bind lineSecond = f.tailSecond →
    ∀ sec ∈ sampleSeconds f.lines, sec ∈ sampleSeconds (g.lines.take (i + 1))

instance (f g : StatsFile) : Decidable (TailBehind f g) :=
  inferInstanceAs (Decidable (∀ i < g.lines.length, g.lines[i]?.bind lineSecond = f.tailSecond →
    ∀ sec ∈ sampleSeconds f.lines, sec ∈ sampleSeconds (g.lines.take (i + 1))))

/-- Files that can be read header by header, each of one host, with a row for every sample,
and whose last seconds come last in every file of the host. -/
structure Regular (excludeTypes : List String) (files : List StatsFile) : Prop where
  read : ∀ f ∈ files, f.HeadersRead
  oneHost : ∀ f ∈ files, ∀ line ∈ f.lines, ∀ tags ∈ headerOf line, host f = some tags.host
  writes : ∀ f ∈ files, SamplesWrite excludeTypes [] f.lines
  tails : ∀ f ∈ files, ∀ g ∈ files, host f = host g → TailBehind f g

/-- Every second of the file is stored for its host. -/
def Complete (db : Database) (f : StatsFile) : Prop :=
  ∀ h, host f = some h → ∀ sec ∈ sampleSeconds f.lines, (h, sec) ∈ db

/-- **The invariant.**  The last second of a file is stored only when all its seconds are. -/
def TailsLast (files : List StatsFile) (db : Database) : Prop :=
  ∀ f ∈ files, ∀ h, host f = some h → ∀ sec, f.tailSecond = some sec → (h, sec) ∈ db →
    Complete db f

/-! ## What an attempt writes -/

variable {cfg : ProbeConfig} {excludeTypes : List String} {files : List StatsFile}

theorem plain_of_plainRow {r : Row} (h : plainRow r = true) : DeltaChunks.Plain (statRow r) := by
  rw [plainRow] at h
  cases hv : r.value with
  | fin v =>
      rw [hv] at h
      refine ⟨v, ?_, of_decide_eq_true h⟩
      show number r.value = some v
      rw [hv]
      rfl
  | inf negative => rw [hv] at h; cases h
  | nan => rw [hv] at h; cases h

/-- A sample with a plain row in the chunks is stored. -/
theorem mem_writtenSeconds {chunks : List (List Row)} {t : Tags} {sec : ℤ}
    (h : HasRow chunks.flatten t) (hsec : t.time.toInt = some sec) :
    (t.host, sec) ∈ writtenSeconds chunks := by
  obtain ⟨r, hr, hplain, htime, hhost⟩ := h
  obtain ⟨c, hc, hr⟩ := List.mem_flatten.mp hr
  obtain ⟨s, hs, hkey⟩ := exists_foldChunks (chunks.map (List.map statRow)) DeltaCarryState.empty
    (c.map statRow) (List.mem_map_of_mem hc) (statRow r) (List.mem_map_of_mem hr)
    (plain_of_plainRow hplain)
  refine List.mem_map.mpr ⟨s, hs, ?_⟩
  have hshost : s.host = r.host := congrArg CollapseKey.host hkey
  have hstime : s.time = (number r.time).getD 0 := congrArg CollapseKey.time hkey
  rw [hshost, hhost, hstime, htime]
  cases ht : t.time with
  | fin q =>
      rw [ht] at hsec
      rw [← Option.some.inj hsec]
      rfl
  | inf negative => rw [ht] at hsec; cases hsec
  | nan => rw [ht] at hsec; cases hsec

/-- The lines in front of the start of an attempt are stored. -/
theorem stored_before_start {db : Database} {v : Views} {f : StatsFile} {idx : ℤ}
    (hv : Within v db) (h : resolveStreamingIngestStart cfg v f = .ok (.parse idx)) {line : String}
    (hline : line ∈ f.lines.take idx.toNat) {sec : ℤ} (hsec : lineSecond line = some sec) :
    ∃ hst, host f = some hst ∧ (hst, sec) ∈ db := by
  rcases resolve_cases h with ⟨detail, hd⟩ | hd | ⟨t, jid, hst, head, hfirst, hd⟩
  · cases hd
  · obtain rfl := StartDecision.parse.inj hd
    cases hline
  · rcases hd with ⟨hd, -⟩ | ⟨hd, -⟩ | ⟨hd, -⟩ | ⟨hd, hidx⟩
    · cases hd
    · cases hd
    · cases hd
    · obtain rfl := StartDecision.parse.inj hd
      have hpresent := (stored_before_startIndex hidx).2 line hline sec hsec
      refine ⟨strip hst, by rw [host, hfirst]; rfl, ?_⟩
      rcases mem_of_scanPresent hpresent with hmem | hmem
      · exact hv.2.2 hmem
      · exact hv.2.1 hmem

/-- **What an attempt writes.**  A second that is written is that of a sample of the file, and
with it all seconds of the file up to that sample are stored. -/
theorem attempt_covers (hreg : Regular excludeTypes files) {db : Database} {e : Attempt}
    (hfile : e.file ∈ files) (hv : Within e.views db) {idx : ℤ} {p : Parser}
    (hstart : resolveStreamingIngestStart cfg e.views e.file = .ok (.parse idx))
    (hp : (Parser.init idx.toNat excludeTypes).feedLines (e.file.lines.take e.linesRead) = .ok p)
    (hchunks : e.chunks.flatten <+: p.rows) {h : String} {sec : ℤ}
    (hmem : (h, sec) ∈ writtenSeconds e.chunks) :
    host e.file = some h ∧ ∃ i < e.file.lines.length,
      e.file.lines[i]?.bind lineSecond = some sec
        ∧ ∀ sec' ∈ sampleSeconds (e.file.lines.take (i + 1)),
            (h, sec') ∈ db ++ writtenSeconds e.chunks := by
  -- the row behind the second, and its sample
  obtain ⟨s, hs, heq⟩ := List.mem_map.mp hmem
  obtain ⟨hshost, hssec⟩ := Prod.mk.inj heq
  obtain ⟨sr, hsr, hhost, htime⟩ := mem_foldChunks _ hs
  rw [← List.map_flatten] at hsr
  obtain ⟨r, hr, rfl⟩ := List.mem_map.mp hsr
  have hwrites := hreg.writes e.file hfile
  rw [← List.take_append_drop e.linesRead e.file.lines] at hwrites
  obtain ⟨a, t, ha, hlast, hrtime, hrhost, hall⟩ := covered_prefix _ hwrites hp hchunks hr
  have hinit : a <+: e.file.lines := ha.trans (List.take_prefix _ _)
  obtain ⟨line, hline, hheader⟩ := List.mem_filterMap.mp (List.mem_of_getLast? hlast)
  have hlinea : line ∈ a := List.mem_of_mem_drop hline
  have hfilehost : ∀ line ∈ a, ∀ tags, headerOf line = some tags →
      host e.file = some tags.host := by
    intro line hline tags htags
    exact hreg.oneHost e.file hfile line (hinit.subset hline) tags htags
  have hh : t.host = h := by
    rw [← hshost, hhost]
    exact hrhost.symm
  have hsec : t.time.toInt = some sec := by
    obtain ⟨q, hq⟩ := time_of_headerOf hheader
    have htime' : s.time = q := by
      rw [htime]
      show (number r.time).getD 0 = q
      rw [hrtime, hq]
      rfl
    rw [hq, ← hssec, htime']
    rfl
  refine ⟨by rw [hfilehost line hlinea t hheader, hh], ?_⟩
  -- every second up to the sample is stored
  have hstored : ∀ sec' ∈ sampleSeconds a, (h, sec') ∈ db ++ writtenSeconds e.chunks := by
    intro sec' hsec'
    obtain ⟨line', hline', hsecond⟩ := List.mem_filterMap.mp hsec'
    rw [← List.take_append_drop idx.toNat a] at hline'
    rcases List.mem_append.mp hline' with hbefore | hbehind
    · have htake : line' ∈ e.file.lines.take idx.toNat := by
        obtain ⟨z, hz⟩ := hinit
        rw [← hz, List.take_append]
        exact List.mem_append_left _ hbefore
      obtain ⟨h', hh', hold⟩ := stored_before_start hv hstart htake hsecond
      rw [hfilehost line hlinea t hheader, hh] at hh'
      obtain rfl := Option.some.inj hh'
      exact List.mem_append_left _ hold
    · obtain ⟨t', ht', hint⟩ := headerOf_of_lineSecond hsecond
      have hhost' : t'.host = h := by
        have h₁ := hfilehost line' (List.mem_of_mem_drop hbehind) t' ht'
        rw [hfilehost line hlinea t hheader, hh] at h₁
        exact (Option.some.inj h₁).symm
      apply List.mem_append_right
      rcases hall t' (List.mem_filterMap.mpr ⟨line', hbehind, ht'⟩) with rfl | hrow
      · rw [hsec] at hint
        rw [← Option.some.inj hint]
        exact hmem
      · rw [← hhost']
        exact mem_writtenSeconds hrow hint
  -- the position of the header
  obtain ⟨x, y, hxy⟩ := List.append_of_mem hlinea
  obtain ⟨z, hz⟩ := hinit
  have hlines : e.file.lines = x ++ line :: (y ++ z) := by
    rw [← hz, hxy, List.append_assoc, List.cons_append]
  refine ⟨x.length, by rw [hlines]; simp, ?_, ?_⟩
  · rw [hlines, List.getElem?_append_right le_rfl, Nat.sub_self]
    show lineSecond line = some sec
    rw [lineSecond_of_headerOf hheader, hsec]
  · intro sec' hsec'
    refine hstored sec' ?_
    have htake : e.file.lines.take (x.length + 1) = x ++ [line] := by
      rw [hlines, List.take_append, List.take_of_length_le (by omega)]
      simp
    rw [htake] at hsec'
    obtain ⟨line', hline', hsecond⟩ := List.mem_filterMap.mp hsec'
    refine List.mem_filterMap.mpr ⟨line', ?_, hsecond⟩
    rw [hxy]
    rcases List.mem_append.mp hline' with hx | hx
    · exact List.mem_append_left _ hx
    · rw [List.mem_singleton.mp hx]
      exact List.mem_append_right _ List.mem_cons_self

/-! ## Histories -/

/-- **One attempt** keeps the invariant. -/
theorem tailsLast_attempt (hreg : Regular excludeTypes files) (db : Database) (e : Attempt)
    (db' : Database) (hinv : TailsLast files db) (hfile : e.file ∈ files)
    (h : attempt cfg excludeTypes db e = some db') : TailsLast files db' := by
  rw [attempt] at h
  split_ifs at h with hv
  split at h
  · rename_i idx hstart
    split at h
    · rename_i p hp
      split_ifs at h with hchunks
      obtain rfl := Option.some.inj h
      intro f hf hst hhost sec htail hmem
      rcases List.mem_append.mp hmem with hold | hnew
      · -- the last second was stored before
        intro h' hhost' sec' hsec'
        exact List.mem_append_left _ (hinv f hf hst hhost sec htail hold h' hhost' sec' hsec')
      · -- this attempt has reached it, behind all other seconds of the file
        obtain ⟨hhost', i, hi, hsec, hall⟩ :=
          attempt_covers hreg hfile hv hstart hp hchunks hnew
        intro h' hh' sec' hsec'
        obtain rfl := Option.some.inj (hhost.symm.trans hh')
        exact hall sec' (hreg.tails f hf e.file hfile (hhost.trans hhost'.symm) i hi
          (hsec.trans htail.symm) sec' hsec')
    · cases h
  · obtain rfl := Option.some.inj h
    exact hinv

/-- A file that is reported as complete is complete, in a database with the invariant. -/
theorem complete_of_tailsLast (hreg : Regular excludeTypes files) {db : Database}
    (hinv : TailsLast files db) {f : StatsFile} (hf : f ∈ files) {v : Views} (hv : Within v db)
    {reason : CompleteReason}
    (h : resolveStreamingIngestStart cfg v f = .ok (.dbComplete reason)) : Complete db f := by
  have hscan : ∀ {hst : String} {head sec : ℤ}, scanPresent cfg v hst head sec = true →
      (hst, sec) ∈ db := by
    intro hst head sec hpresent
    rcases mem_of_scanPresent hpresent with hmem | hmem
    · exact hv.2.2 hmem
    · exact hv.2.1 hmem
  rcases resolve_cases h with ⟨detail, hd⟩ | hd | ⟨t, jid, hst, head, hfirst, hd⟩
  · cases hd
  · cases hd
  · have hhost : host f = some (strip hst) := by
      rw [host, hfirst]
      rfl
    rcases hd with ⟨-, t', jid', tailHost, sec, hlast, hsec, hmem⟩ | ⟨-, hwindow⟩ | ⟨-, hall⟩ |
      ⟨hd, -⟩
    · -- head and tail
      obtain ⟨htail, line, hline, hid⟩ := parseLast_eq_some (hreg.read f hf) hlast hsec
      obtain ⟨sec', hsec'⟩ := Option.isSome_iff_exists.mp
        (hreg.read f hf line hline (lineSecond_of_lineIdentity hid).1)
      obtain ⟨tags, hheader, -⟩ := headerOf_of_lineSecond hsec'
      have hone := hreg.oneHost f hf line hline tags hheader
      rw [hhost, host_of_lineIdentity hid hheader] at hone
      have hstrip : strip (if tailHost = "" then strip hst else tailHost) = strip hst := by
        rw [← Option.some.inj hone]
        split_ifs
        · rw [strip_strip]
        · rw [strip_strip]
      rw [hstrip] at hmem
      exact hinv f hf (strip hst) hhost sec htail (hv.2.1 hmem)
    · -- tail window
      obtain ⟨sec, htail, hpresent⟩ := tailSecond_of_window (hreg.read f hf) hwindow
      exact hinv f hf (strip hst) hhost sec htail (hscan hpresent)
    · -- full scan
      intro h' hh' sec hsec
      obtain rfl := Option.some.inj (hhost.symm.trans hh')
      obtain ⟨line, hline, hsecond⟩ := List.mem_filterMap.mp hsec
      exact hscan (stored_of_startIndex hall line hline sec hsecond)
    · cases hd

/-- The default settings, without live ingest. -/
def batchConfig : ProbeConfig :=
  ⟨false, 8388608, 500, 100000⟩

/-- The probes see the database as it is. -/
def current (db : Database) : Views :=
  ⟨db, db, db, false⟩

/-- Two samples. -/
def shortFile : StatsFile :=
  ⟨"!cpu user,E\n100 7 c1\ncpu 0 5\n110 7 c1\ncpu 0 7\n"⟩

/-- An attempt that fails behind the first sample, and one that goes through. -/
def retriedHistory : List Attempt :=
  [⟨shortFile, current [], 6, [[cpuRow 100 "user" 5]]⟩,
   ⟨shortFile, current [("c1", 100)], 6, [[cpuRow 100 "user" 5], [cpuRow 110 "user" 7]]⟩]

theorem regular_shortFile : Regular [] [shortFile] := by
  have heval : (∀ f ∈ [shortFile], f.HeadersRead)
      ∧ (∀ f ∈ [shortFile], ∀ line ∈ f.lines, ∀ tags ∈ headerOf line, host f = some tags.host)
      ∧ (∀ f ∈ [shortFile], SamplesWrite [] [] f.lines)
      ∧ ∀ f ∈ [shortFile], ∀ g ∈ [shortFile], host f = host g → TailBehind f g := by
    decide +kernel
  exact ⟨heval.1, heval.2.1, heval.2.2.1, heval.2.2.2⟩

/-- A file of three samples. -/
def rotatedFile : StatsFile :=
  ⟨"!cpu user,E\n100 7 c1\ncpu 0 5\n110 7 c1\ncpu 0 7\n120 7 c1\ncpu 0 12\n"⟩

/-- The next file of the host, which begins in the second in which the first one ends. -/
def nextFile : StatsFile :=
  ⟨"!cpu user,E\n120 8 c1\ncpu 0 12\n130 8 c1\ncpu 0 15\n"⟩

def nextRow (time : ℚ) (value : ℚ) : Row :=
  { cpuRow time "user" value with jid := "8" }

/-- The attempt of the first file fails behind its first sample, that of the next file goes
through. -/
def rotatedHistory : List Attempt :=
  [⟨rotatedFile, current [], 8, [[cpuRow 100 "user" 5]]⟩,
   ⟨nextFile, current [("c1", 100)], 6, [[nextRow 120 12, nextRow 130 15]]⟩]

end IngestHistory
