/-
# The parser reads what the monitor writes

`IncrementalStatsParser` on the text of a run of the monitor.  `parse_monitorText` says what comes out
when every device name is one word: for each sample, in order, exactly the emitted keys and values of
the hardware types that the parser keeps, and the process rows, merged by job, host and process name.

Three things are by design of the parser.  It skips the types it is told to exclude; it replaces the
device of a row by a job stamp when the sample names the jobs of a shared node (`StampFlags`); and it
keeps one row for each process name of a job.  Schemas of the old register layouts are decoded instead
of read (`schemaNeedsLegacyHardwareDecode`); no collector has one.

A device name with a blank is cut at the blank, since rows have no quoting; the command of a process may
contain blanks (`not_parsedExactly_of_blank`).
-/
import HpcPerfStats.RowRoundTrip

namespace MonitorRoundTrip

open PyText TokenText StatsSchema MonitorMarks MonitorText
open StatsParser hiding SchemaEntry

/-! ## Lines of a run -/

/-- The device rows of a sample, in the order they are written. -/
def deviceRows (types : List StatsType) (s : Sample) : List (StatsType × Stats) :=
  types.flatMap fun t => (s.devices t).map fun st => (t, st)

theorem enabledTypeRows_eq (types : List StatsType) (s : Sample) (tier : RowTier) :
    enabledTypeRows types s tier = (deviceRows types s).map fun d => statsRow d.1 d.2 tier := by
  unfold enabledTypeRows deviceRows
  rw [List.map_flatMap]
  simp only [List.map_map, Function.comp_def]

/-- A device name as a row can carry it: one word, and of ASCII characters, since `split` also cuts at
the other blanks of Unicode. -/
def IsWord (dev : String) : Prop :=
  IsToken dev ∧ (dev.toList.all fun c => decide (c.toNat < 128)) = true

instance (dev : String) : Decidable (IsWord dev) :=
  inferInstanceAs (Decidable (_ ∧ _))

/-- Every device of the sample has a word as its name. -/
def WordNames (types : List StatsType) (s : Sample) : Prop :=
  ∀ d ∈ deviceRows types s, IsWord d.2.dev

theorem newline_not_mem_propertyLines {b : Banner} {line : String} (h : line ∈ propertyLines b) :
    '\n' ∉ line.toList := by
  have hnum : '\n' ∉ (toString b.uptime).toList := by
    intro hmem
    exact absurd (isDigit_of_mem_toString hmem) (by decide)
  have hone := b.one_line
  simp only [List.forall_mem_cons, List.not_mem_nil, false_implies, implies_true, and_true] at hone
  obtain ⟨hprog, hvers, hnode, hsys, hmach, hrel, hver, hslug⟩ := hone
  unfold propertyLines at h
  rcases List.mem_append.mp h with h | h
  · simp only [List.mem_cons, List.not_mem_nil, or_false] at h
    rcases h with rfl | rfl | rfl | rfl
    · simp [String.toList_append, hprog, hvers]
    · simp [String.toList_append, hnode]
    · simp [String.toList_append, hsys, hmach, hrel, hver]
    · rw [String.toList_append, List.mem_append, not_or]
      exact ⟨by decide, hnum⟩
  · split at h
    · exact absurd h List.not_mem_nil
    · rw [List.mem_singleton.mp h]
      simp [String.toList_append, hslug]

theorem newline_not_mem_hdrLines {types : List StatsType} {x : Payload} {line : String}
    (h : line ∈ x.hdrLines types) : '\n' ∉ line.toList := by
  unfold Payload.hdrLines at h
  cases hb : x.banner with
  | none =>
      rw [hb] at h
      exact absurd h List.not_mem_nil
  | some b =>
      rw [hb] at h
      rcases List.mem_append.mp h with h | h
      · exact newline_not_mem_propertyLines h
      · obtain ⟨t, -, rfl⟩ := List.mem_map.mp h
        exact newline_not_mem_spaced (isToken_label t) fun u hu => isToken_of_mem_tokens hu

theorem newline_not_mem_markLines {s : Sample} {line : String} (h : line ∈ markLines s) :
    '\n' ∉ line.toList := by
  obtain ⟨part, hpart, rfl⟩ := List.mem_map.mp h
  have hmem : part ∈ splitSep '\n' s.mark := by
    unfold markParts at hpart
    dsimp only at hpart
    split at hpart
    · exact List.dropLast_subset _ hpart
    · exact hpart
  have hno := not_mem_of_mem_splitSep hmem
  simp [String.toList_append, hno]

theorem newline_not_mem_lines {types : List StatsType} {x : Payload}
    (hwords : WordNames types x.sample) {line : String} (h : line ∈ x.lines types) :
    '\n' ∉ line.toList := by
  unfold Payload.lines Payload.sampleLines at h
  rw [enabledTypeRows_eq, List.mem_append, List.mem_append, List.mem_append] at h
  rcases h with h | (h | h) | h
  · exact newline_not_mem_hdrLines h
  · rcases List.mem_cons.mp h with rfl | h
    · exact List.not_mem_nil
    · rw [List.mem_singleton.mp h, headerLine_eq]
      apply newline_not_mem_spaced (isToken_formatTime x.sample.micros)
      intro u hu
      rcases List.mem_cons.mp hu with rfl | hu
      · exact x.sample.jobid_isToken
      · rw [List.mem_singleton.mp hu]
        exact x.sample.nodename_isToken
  · exact newline_not_mem_markLines h
  · obtain ⟨d, hd, rfl⟩ := List.mem_map.mp h
    rw [statsRow_eq]
    apply newline_not_mem_spaced d.1.isToken
    intro u hu
    rcases List.mem_cons.mp hu with rfl | hu
    · exact (hwords d hd).1
    · exact isToken_of_mem_rowTokens hu

/-! ## Samples read back -/

/-- What the monitor says about the hardware in a sample. -/
def sampleReadings (types : List StatsType) (exclude : List String) (x : Payload) (shared : Bool) :
    List Reading :=
  (deviceRows types x.sample).flatMap fun d =>
    rowReadings exclude x.sample (x.tier types) shared d.1 d.2

/-- What the monitor says about the processes in a sample. -/
def sampleProcs (types : List StatsType) (exclude : List String) (x : Payload) : List ProcRow :=
  (deviceRows types x.sample).flatMap fun d => rowProcs exclude x.sample (x.tier types) d.1 d.2

theorem mergeProcs_append (procs rows rows' : List ProcRow) :
    mergeProcs procs (rows ++ rows') = mergeProcs (mergeProcs procs rows) rows' :=
  List.foldl_append

theorem feedLines_deviceRows {types : List StatsType} (htypes : Enabled types) {s : Sample}
    {shared : Bool} (tier : RowTier) {ds : List (StatsType × Stats)}
    (hmem : ∀ d ∈ ds, d.1 ∈ types ∧ IsToken d.2.dev) {p : Parser} (hready : Ready types p)
    (htags : p.tags = some (sampleTags s))
    (hshared : p.sampleShared = (shared && realJid s.jobid)) :
    ∃ k rows, p.feedLines (ds.map fun d => statsRow d.1 d.2 tier) = .ok { p with
        lineIndex := k
        rows := p.rows ++ rows
        procs := mergeProcs p.procs
          (ds.flatMap fun d => rowProcs p.excludeTypes s tier d.1 d.2) } ∧
      rows.map reading = ds.flatMap fun d => rowReadings p.excludeTypes s tier shared d.1 d.2 := by
  induction ds generalizing p with
  | nil =>
      refine ⟨p.lineIndex, [], ?_, rfl⟩
      rw [List.append_nil]
      rfl
  | cons d ds ih =>
      obtain ⟨ht, hdev⟩ := hmem d List.mem_cons_self
      obtain ⟨k₁, rows₁, hline, hread₁⟩ :=
        feedLine_statsRow htypes hready htags hshared ht hdev tier
      obtain ⟨k₂, rows₂, hlines, hread₂⟩ := ih (fun e he => hmem e (List.mem_cons_of_mem d he))
        (p := { p with
          lineIndex := k₁
          rows := p.rows ++ rows₁
          procs := mergeProcs p.procs (rowProcs p.excludeTypes s tier d.1 d.2) })
        hready htags hshared
      refine ⟨k₂, rows₁ ++ rows₂, ?_, ?_⟩
      · rw [List.map_cons, feedLines_cons]
        refine ⟨_, hline, ?_⟩
        rw [hlines, List.flatMap_cons, mergeProcs_append, List.append_assoc]
      · rw [List.map_append, hread₁, hread₂, List.flatMap_cons]

/-- What a payload leaves of a parser: the schemas, the rows of the sample behind those so far, and the
armed flag when the sample carries a mark. -/
structure ReadSample (types : List StatsType) (x : Payload) (p p' : Parser) : Prop where
  ready : Ready types p'
  startIdx : p'.startIdx = p.startIdx
  excludeTypes : p'.excludeTypes = p.excludeTypes
  armShared : p'.armShared = marked x.sample
  rows : p'.rows.map reading = p.rows.map reading ++
    sampleReadings types p.excludeTypes x (marked x.sample || p.armShared)
  procs : p'.procs = mergeProcs p.procs (sampleProcs types p.excludeTypes x)

/-- **A payload is read back.** -/
theorem feedLines_payload {types : List StatsType} (htypes : Enabled types) {x : Payload}
    (hwords : WordNames types x.sample) {p : Parser} (hstart : p.startIdx = 0)
    (hready : x.banner ≠ none ∨ Ready types p) :
    ∃ p', p.feedLines (x.lines types) = .ok p' ∧ ReadSample types x p p' := by
  obtain ⟨p₁, hhdr, hready₁, hkeeps⟩ := feedLines_hdrLines htypes.distinct x p hready
  obtain ⟨k₂, marks, hopen⟩ := feedLines_opening p₁ x.sample (hkeeps.startIdx.trans hstart)
  have hmem : ∀ d ∈ deviceRows types x.sample, d.1 ∈ types ∧ IsToken d.2.dev := by
    intro d hd
    refine ⟨?_, (hwords d hd).1⟩
    obtain ⟨t, ht, hdt⟩ := List.mem_flatMap.mp hd
    obtain ⟨st, -, rfl⟩ := List.mem_map.mp hdt
    exact ht
  obtain ⟨k₃, rows, hrows, hread⟩ := feedLines_deviceRows htypes (x.tier types) hmem
    (p := { p₁ with
      lineIndex := k₂
      tags := some (sampleTags x.sample)
      armShared := marked x.sample
      sampleShared := (marked x.sample || p₁.armShared) && realJid x.sample.jobid
      marks := marks }) hready₁ rfl rfl
  have hsample := (feedLines_append (["", headerLine x.sample] ++ markLines x.sample) _).mpr
    ⟨_, hopen, hrows⟩
  rw [← enabledTypeRows_eq] at hsample
  have hall := (feedLines_append (x.hdrLines types) (x.sampleLines types)).mpr ⟨p₁, hhdr, hsample⟩
  refine ⟨_, hall, hready₁, hkeeps.startIdx, hkeeps.excludeTypes, rfl, ?_, ?_⟩
  · show (p₁.rows ++ rows).map reading = _
    rw [List.map_append, hread, hkeeps.rows, ← hkeeps.excludeTypes, ← hkeeps.armShared]
    rfl
  · show mergeProcs p₁.procs _ = _
    rw [hkeeps.procs, ← hkeeps.excludeTypes]
    rfl

/-! ## Runs read back -/

/-- Which samples of a run are stamped; `prev`: the sample before carries a `%jobs` mark.  A sample is
stamped when it carries a mark, and not stamped when neither it nor the sample before does. -/
inductive StampFlags : Bool → List Payload → List Bool → Prop
  | nil (prev : Bool) : StampFlags prev [] []
  | cons {prev flag : Bool} {x : Payload} {run : List Payload} {flags : List Bool}
      (own : marked x.sample = true → flag = true)
      (clean : marked x.sample = false → prev = false → flag = false)
      (rest : StampFlags (marked x.sample) run flags) : StampFlags prev (x :: run) (flag :: flags)

/-- What the monitor says about the hardware in a run. -/
def runReadings (types : List StatsType) (exclude : List String) (run : List Payload)
    (flags : List Bool) : List Reading :=
  (run.zip flags).flatMap fun xf => sampleReadings types exclude xf.1 xf.2

/-- What the monitor says about the processes in a run. -/
def runProcs (types : List StatsType) (exclude : List String) (run : List Payload) : List ProcRow :=
  run.flatMap (sampleProcs types exclude)

theorem feedLines_run {types : List StatsType} (htypes : Enabled types) {run : List Payload}
    (hwords : ∀ x ∈ run, WordNames types x.sample) {p : Parser} (hstart : p.startIdx = 0)
    (hready : Ready types p ∨ ∀ x, run.head? = some x → x.banner ≠ none) :
    ∃ p' flags, p.feedLines (run.flatMap fun x => x.lines types) = .ok p' ∧
      StampFlags p.armShared run flags ∧
      p'.rows.map reading = p.rows.map reading ++ runReadings types p.excludeTypes run flags ∧
      p'.procs = mergeProcs p.procs (runProcs types p.excludeTypes run) := by
  induction run generalizing p with
  | nil => exact ⟨p, [], rfl, .nil _, (List.append_nil _).symm, rfl⟩
  | cons x run ih =>
      have hx : x.banner ≠ none ∨ Ready types p := by
        rcases hready with h | h
        · exact Or.inr h
        · exact Or.inl (h x rfl)
      obtain ⟨p₁, hlines₁, h₁⟩ :=
        feedLines_payload htypes (hwords x List.mem_cons_self) hstart hx
      obtain ⟨p₂, flags, hlines₂, hflags, hrows, hprocs⟩ :=
        ih (fun y hy => hwords y (List.mem_cons_of_mem x hy)) (h₁.startIdx.trans hstart)
          (Or.inl h₁.ready)
      refine ⟨p₂, (marked x.sample || p.armShared) :: flags, ?_, ?_, ?_, ?_⟩
      · rw [List.flatMap_cons, feedLines_append]
        exact ⟨p₁, hlines₁, hlines₂⟩
      · rw [h₁.armShared] at hflags
        refine .cons ?_ ?_ hflags
        · intro hown
          rw [hown, Bool.true_or]
        · intro hown hprev
          rw [hown, hprev]
          rfl
      · rw [hrows, h₁.rows, h₁.excludeTypes, List.append_assoc]
        rfl
      · rw [hprocs, h₁.procs, h₁.excludeTypes, ← mergeProcs_append]
        rfl

/-- The text of a run is cut into its lines again, with an empty one behind the last newline. -/
theorem splitSep_monitorText {types : List StatsType} {run : List Payload}
    (hwords : ∀ x ∈ run, WordNames types x.sample) :
    splitSep '\n' (monitorText types run) = (run.flatMap fun x => x.lines types) ++ [""] := by
  rw [monitorText_eq]
  apply splitSep_unlines
  intro line hline
  obtain ⟨x, hx, hmem⟩ := List.mem_flatMap.mp hline
  exact newline_not_mem_lines (hwords x hx) hmem

/-- **The parser reads what the monitor writes.**  The first payload of a run has a header.  When every
device name is a word, the parser reads the whole text: the hardware rows are the emitted keys and
values of each sample in order, each under its own device or the stamp of its job, and the process rows
are those of the samples, merged by job, host and process name. -/
theorem parse_monitorText {types : List StatsType} (htypes : Enabled types) (exclude : List String)
    {run : List Payload} (hfirst : ∀ x, run.head? = some x → x.banner ≠ none)
    (hwords : ∀ x ∈ run, WordNames types x.sample) :
    ∃ p flags,
      (Parser.init 0 exclude).feedLines (splitSep '\n' (monitorText types run)) = .ok p ∧
      StampFlags false run flags ∧
      p.rows.map reading = runReadings types exclude run flags ∧
      p.procs = mergeProcs [] (runProcs types exclude run) := by
  obtain ⟨p, flags, hlines, hflags, hrows, hprocs⟩ :=
    feedLines_run htypes hwords (p := Parser.init 0 exclude) rfl (Or.inr hfirst)
  refine ⟨p.advance, flags, ?_, hflags, ?_, hprocs⟩
  · rw [splitSep_monitorText hwords, feedLines_append]
    refine ⟨p, hlines, ?_⟩
    rw [feedLines_cons]
    exact ⟨p.advance, feedLine_empty p, rfl⟩
  · exact hrows

/-! ## Two types of the monitor -/

/-- `numa_stats_type`, with the tiers on. -/
def numaStatsType : StatsType where
  name := "host_numa"
  schema :=
    [⟨"numa_hit", .event, none, 0, false, by decide, by decide, by decide, by decide⟩,
      ⟨"numa_miss", .event, none, 0, false, by decide, by decide, by decide, by decide⟩,
      ⟨"numa_foreign", .event, none, 0, false, by decide, by decide, by decide, by decide⟩,
      ⟨"interleave_hit", .event, none, 0, true, by decide, by decide, by decide, by decide⟩,
      ⟨"local_node", .event, none, 0, true, by decide, by decide, by decide, by decide⟩,
      ⟨"other_node", .event, none, 0, false, by decide, by decide, by decide, by decide⟩]
  isToken := by decide
  isAlpha := by decide
  schema_ne_nil := List.cons_ne_nil _ _

/-- `proc_stats_type`, with the tiers on. -/
def procStatsType : StatsType where
  name := "host_proc"
  schema :=
    [⟨"uid", .plain, none, 0, true, by decide, by decide, by decide, by decide⟩,
      ⟨"vm_peak", .plain, some "kB", 0, false, by decide, by decide, by decide, by decide⟩,
      ⟨"vm_size", .plain, some "kB", 0, false, by decide, by decide, by decide, by decide⟩,
      ⟨"vm_lck", .plain, some "kB", 0, true, by decide, by decide, by decide, by decide⟩,
      ⟨"vm_hwm", .plain, some "kB", 0, true, by decide, by decide, by decide, by decide⟩,
      ⟨"vm_rss", .plain, some "kB", 0, false, by decide, by decide, by decide, by decide⟩,
      ⟨"vm_data", .plain, some "kB", 0, false, by decide, by decide, by decide, by decide⟩,
      ⟨"vm_stk", .plain, some "kB", 0, false, by decide, by decide, by decide, by decide⟩,
      ⟨"vm_exe", .plain, some "kB", 0, false, by decide, by decide, by decide, by decide⟩,
      ⟨"vm_lib", .plain, some "kB", 0, false, by decide, by decide, by decide, by decide⟩,
      ⟨"vm_pte", .plain, some "kB", 0, true, by decide, by decide, by decide, by decide⟩,
      ⟨"vm_swap", .plain, some "kB", 0, false, by decide, by decide, by decide, by decide⟩,
      ⟨"threads", .plain, none, 0, false, by decide, by decide, by decide, by decide⟩]
  isToken := by decide
  isAlpha := by decide
  schema_ne_nil := List.cons_ne_nil _ _

/-- A device with its values. -/
def device (dev : String) (vals : List ℕ) : Stats :=
  ⟨dev, fun i => ⟨vals.getD i 0 % 2 ^ 53, Nat.mod_lt _ (by decide)⟩⟩

def banner : Banner :=
  ⟨"hpcperfstatsd", "2.4", "c101", "Linux", "x86_64", "5.14.0", "#1 SMP", 86400, "", by decide⟩

/-- A sample of the node `c101` with the tiers on. -/
def sampleOf (micros : ℕ) (mark : String) (phase : CollectPhase) (numa proc : List Stats) : Sample where
  micros := micros
  jobid := "12"
  nodename := "c101"
  mark := mark
  devices := fun t => if t.name = "host_numa" then numa else proc
  tierEnabled := true
  phase := phase
  jobid_isToken := by decide
  nodename_isToken := by decide

/-- A header with a full sample, then a fast sample. -/
def fullThenFast : List Payload :=
  [⟨some banner, sampleOf 1700000000250000 "" .full [device "0" [70, 8, 9, 10, 11, 12]]
      [device "bash/4242/0-3/0" [1000, 20, 19, 0, 8, 7, 6, 5, 4, 3, 2, 0, 1]]⟩,
    ⟨none, sampleOf 1700000060250000 "" .fast [device "0" [71, 8, 9, 10, 12, 12]]
      [device "bash/4242/0-3/0" [1000, 22, 18, 0, 8, 7, 6, 5, 4, 3, 2, 0, 2]]⟩]

theorem enabled_numaAndProc : Enabled [numaStatsType, procStatsType] where
  distinct := by
    have hne : numaStatsType.name ≠ procStatsType.name := by decide
    intro t ht t' ht' h
    rcases List.mem_cons.mp ht with rfl | ht
    · rcases List.mem_cons.mp ht' with rfl | ht'
      · rfl
      · rw [List.mem_singleton.mp ht'] at h
        exact absurd h hne
    · rw [List.mem_singleton.mp ht] at h ⊢
      rcases List.mem_cons.mp ht' with rfl | ht'
      · exact absurd h.symm hne
      · rw [List.mem_singleton.mp ht']
  current := by
    intro t ht
    rcases List.mem_cons.mp ht with rfl | ht
    · decide
    · rw [List.mem_singleton.mp ht]
      decide

theorem wordNames_fullThenFast :
    ∀ x ∈ fullThenFast, WordNames [numaStatsType, procStatsType] x.sample := by
  intro x hx d hd
  have hall : (fullThenFast.all fun x =>
      (deviceRows [numaStatsType, procStatsType] x.sample).all fun d => decide (IsWord d.2.dev)) =
        true := by decide +kernel
  exact of_decide_eq_true (List.all_eq_true.mp (List.all_eq_true.mp hall x hx) d hd)

theorem parse_monitorText_fullThenFast :
    ∃ p flags,
      (Parser.init 0 defaultExcludeTypes).feedLines
        (splitSep '\n' (monitorText [numaStatsType, procStatsType] fullThenFast)) = .ok p ∧
      StampFlags false fullThenFast flags ∧
      p.rows.map reading =
        runReadings [numaStatsType, procStatsType] defaultExcludeTypes fullThenFast flags ∧
      p.procs = mergeProcs []
        (runProcs [numaStatsType, procStatsType] defaultExcludeTypes fullThenFast) := by
  refine parse_monitorText enabled_numaAndProc defaultExcludeTypes ?_ wordNames_fullThenFast
  intro x hx
  obtain rfl := Option.some.inj hx
  exact Option.some_ne_none banner

/-! ## What is not read back -/

/-- The hardware readings that the monitor emits in a run. -/
def emittedReadings (types : List StatsType) (run : List Payload) : List Reading :=
  run.flatMap fun x => (deviceRows types x.sample).flatMap fun d =>
    if isProcType d.1 then []
    else (emitted d.1 d.2 (x.tier types)).map fun kv =>
      ⟨.fin (mkRat x.sample.micros 1000000), x.sample.nodename, x.sample.jobid, d.1.name, d.2.dev,
        kv.1, .fin kv.2⟩

/-- The process readings that the monitor emits in a run: time, device, key and value. -/
def emittedProcReadings (types : List StatsType) (run : List Payload) :
    List (PyFloat × String × String × ℤ) :=
  run.flatMap fun x => (deviceRows types x.sample).flatMap fun d =>
    if isProcType d.1 then
      (emitted d.1 d.2 (x.tier types)).map fun kv =>
        (.fin (mkRat x.sample.micros 1000000), d.2.dev, kv.1, (kv.2 : ℤ))
    else []

def procReadings (r : ProcRow) : List (PyFloat × String × String × ℤ) :=
  r.fields.filterMap fun kv => kv.2.map fun n => (r.time, r.device, kv.1, n)

/-- The parser yields exactly what the monitor emits. -/
def ParsedExactly (types : List StatsType) (exclude : List String) (run : List Payload) : Prop :=
  ∃ p, (Parser.init 0 exclude).feedLines (splitSep '\n' (monitorText types run)) = .ok p ∧
    (p.rows.map reading).Perm (emittedReadings types run) ∧
    (p.procs.flatMap procReadings).Perm (emittedProcReadings types run)

/-- No process row is kept under a name with a blank. -/
def BlankFree (p : Parser) : Prop :=
  ∀ r ∈ p.procs, ∀ c ∈ r.device.toList, isSpace c = false

theorem mem_mergeProcRowOnline {row r : ProcRow} {procs : List ProcRow}
    (h : r ∈ mergeProcRowOnline row procs) : r.device = row.device ∨ r ∈ procs := by
  induction procs with
  | nil =>
      rw [mergeProcRowOnline, List.mem_singleton] at h
      exact Or.inl (congrArg ProcRow.device h)
  | cons q procs ih =>
      rw [mergeProcRowOnline] at h
      split_ifs at h with hsame
      · rcases List.mem_cons.mp h with rfl | h
        · exact Or.inl rfl
        · exact Or.inr (List.mem_cons_of_mem q h)
      · rcases List.mem_cons.mp h with rfl | h
        · exact Or.inr List.mem_cons_self
        · rcases ih h with h | h
          · exact Or.inl h
          · exact Or.inr (List.mem_cons_of_mem q h)

theorem blankFree_feedRow {p p' : Parser} {s : String} {tags : Tags} (hp : BlankFree p)
    (h : p.feedRow s tags = .ok p') : BlankFree p' := by
  rw [Parser.feedRow] at h
  split at h
  · rename_i typ dev rest hsplit
    simp only at h
    split_ifs at h with hex hproc
    · obtain rfl := Except.ok.inj h
      exact hp
    · have hdev : ∀ c ∈ dev.toList, isSpace c = false := by
        intro c hc
        refine not_isSpace_of_mem_splitMax (k := 2) (s := s) ?_ hc
        rw [hsplit]
        exact List.mem_cons_of_mem typ List.mem_cons_self
      rw [Parser.feedProc] at h
      obtain ⟨fields, -, h⟩ := bind_ok h
      obtain rfl := Except.ok.inj h
      intro r hr
      rcases mem_mergeProcRowOnline hr with hr | hr
      · rw [hr]
        exact hdev
      · exact hp r hr
    · split at h
      · obtain rfl := Except.ok.inj h
        exact hp
      · obtain ⟨rows, -, h⟩ := bind_ok h
        obtain rfl := Except.ok.inj h
        exact hp
  · cases h

/-- Only data rows touch the process rows. -/
theorem procs_of_other {p p' : Parser} {s : String}
    (h : p.feedHeader s = .ok p' ∨ p.feedSchema s = .ok p' ∨ p.notePercentMark s = p') :
    p'.procs = p.procs := by
  rcases h with h | h | rfl
  · rw [Parser.feedHeader] at h
    split at h
    · rw [← Except.ok.inj h]
    · obtain ⟨time, -, h⟩ := bind_ok h
      rw [← Except.ok.inj h]
  · rw [Parser.feedSchema] at h
    split at h
    · obtain ⟨entry, -, h⟩ := bind_ok h
      rw [← Except.ok.inj h]
    · cases h
  · unfold Parser.notePercentMark Parser.queueMark
    cases markOf s with
    | none => rfl
    | some body => cases p.tags <;> rfl

theorem blankFree_feedLine {p p' : Parser} {line : String} (hp : BlankFree p)
    (h : p.feedLine line = .ok p') : BlankFree p' := by
  have hkeep : p'.procs = p.procs → BlankFree p' := by
    intro hprocs
    unfold BlankFree
    rw [hprocs]
    exact hp
  cases hc : (lstrip line).toList.head? with
  | none =>
      rw [feedLine_of_blank hc] at h
      obtain rfl := Except.ok.inj h
      exact hp
  | some c =>
      by_cases hrow : c.isAlpha = true ∧ p.tags.isSome = true
      · obtain ⟨tags, htags⟩ := Option.isSome_iff_exists.mp hrow.2
        rw [feedLine_of_row hc hrow.1 htags] at h
        exact blankFree_feedRow (p := p.advance) hp h
      · have hother : c.isAlpha = false ∨ p.tags = none := by
          cases ha : c.isAlpha with
          | false => exact Or.inl rfl
          | true =>
              right
              rw [← Option.not_isSome_iff_eq_none]
              exact fun htags => hrow ⟨ha, htags⟩
        rw [feedLine_of_other hc hother] at h
        split_ifs at h with hdigit hschema hmark
        · exact hkeep (procs_of_other (p := p.advance) (Or.inl h))
        · exact hkeep (procs_of_other (p := p.advance) (Or.inr (Or.inl h)))
        · exact hkeep (procs_of_other (p := p.advance) (Or.inr (Or.inr (Except.ok.inj h))))
        · obtain rfl := Except.ok.inj h
          exact hp

/-- Whatever is read, no process row has a name with a blank. -/
theorem blankFree_feedLines {lines : List String} {p p' : Parser} (hp : BlankFree p)
    (h : p.feedLines lines = .ok p') : BlankFree p' := by
  induction lines generalizing p with
  | nil =>
      obtain rfl := Except.ok.inj h
      exact hp
  | cons line lines ih =>
      obtain ⟨q, hq, h⟩ := (feedLines_cons line lines).mp h
      exact ih (blankFree_feedLine hp hq) h

/-- **A process name with a blank is not read back**: its values come out under another name. -/
theorem not_parsedExactly_of_blank {types : List StatsType} (exclude : List String)
    {run : List Payload} {x : Payload} (hx : x ∈ run) {d : StatsType × Stats}
    (hd : d ∈ deviceRows types x.sample) (hproc : isProcType d.1 = true) {kv : String × ℕ}
    (hkv : kv ∈ emitted d.1 d.2 (x.tier types)) (hblank : d.2.dev.toList.any isSpace = true) :
    ¬ParsedExactly types exclude run := by
  rintro ⟨p, hp, -, hprocs⟩
  have hemitted : (.fin (mkRat x.sample.micros 1000000), d.2.dev, kv.1, (kv.2 : ℤ)) ∈
      emittedProcReadings types run := by
    refine List.mem_flatMap.mpr ⟨x, hx, List.mem_flatMap.mpr ⟨d, hd, ?_⟩⟩
    rw [if_pos hproc]
    exact List.mem_map_of_mem hkv
  have hinit : BlankFree (Parser.init 0 exclude) := by
    intro r hr
    exact absurd hr List.not_mem_nil
  obtain ⟨r, hr, hmem⟩ := List.mem_flatMap.mp (hprocs.mem_iff.mpr hemitted)
  obtain ⟨field, -, hfield⟩ := List.mem_filterMap.mp hmem
  obtain ⟨n, -, hn⟩ := Option.map_eq_some_iff.mp hfield
  have hdev : r.device = d.2.dev := congrArg (fun t => t.2.1) hn
  obtain ⟨c, hc, hspace⟩ := List.any_eq_true.mp hblank
  rw [← hdev] at hc
  rw [blankFree_feedLines hinit hp r hr c hc] at hspace
  cases hspace

/-- A sample of a node that two jobs share. -/
def sharedSample : Payload :=
  ⟨some banner, sampleOf 1700000000250000 "jobs jids=12,34" .full
    [device "0" [70, 8, 9, 10, 11, 12]] []⟩

/-- A sample with a process whose name has a blank. -/
def blankSample : Payload :=
  ⟨some banner, sampleOf 1700000000250000 "" .full []
    [device "tmux: server/4242/0-3/0" [1000, 20, 19, 0, 8, 7, 6, 5, 4, 3, 2, 0, 1]]⟩

theorem enabled_numa : Enabled [numaStatsType] where
  distinct := by
    intro t ht t' ht' _
    rw [List.mem_singleton.mp ht, List.mem_singleton.mp ht']
  current := by
    intro t ht
    rw [List.mem_singleton.mp ht]
    decide

theorem mem_deviceRows_sharedSample {d : StatsType × Stats}
    (hd : d ∈ deviceRows [numaStatsType] sharedSample.sample) :
    d = (numaStatsType, device "0" [70, 8, 9, 10, 11, 12]) :=
  List.mem_singleton.mp hd

theorem wordNames_sharedSample : ∀ x ∈ [sharedSample], WordNames [numaStatsType] x.sample := by
  intro x hx d hd
  rw [List.mem_singleton.mp hx] at hd
  rw [mem_deviceRows_sharedSample hd]
  decide

/-- The rows of the shared node come out under the stamp. -/
theorem dev_of_mem_sharedSample {flags : List Bool} (hflags : StampFlags false [sharedSample] flags)
    {r : Reading} (hr : r ∈ runReadings [numaStatsType] defaultExcludeTypes [sharedSample] flags) :
    r.dev = "j:12" := by
  cases hflags with
  | cons own clean rest =>
      rw [own (by decide +kernel)] at hr
      obtain ⟨xf, hxf, hr⟩ := List.mem_flatMap.mp hr
      rw [List.zip_cons_cons, List.zip_nil_left, List.mem_singleton] at hxf
      rw [hxf] at hr
      obtain ⟨d, hd, hr⟩ := List.mem_flatMap.mp hr
      rw [mem_deviceRows_sharedSample hd, rowReadings, if_neg (by decide)] at hr
      obtain ⟨kv, -, rfl⟩ := List.mem_map.mp hr
      show sharedRowDev "0" "host_numa" "12" true = "j:12"
      decide

theorem exists_emittedReading {types : List StatsType} {run : List Payload} {x : Payload}
    (hx : x ∈ run) {d : StatsType × Stats} (hd : d ∈ deviceRows types x.sample)
    (hproc : isProcType d.1 = false) {kv : String × ℕ} (hkv : kv ∈ emitted d.1 d.2 (x.tier types)) :
    ∃ r ∈ emittedReadings types run, r.dev = d.2.dev := by
  refine ⟨⟨.fin (mkRat x.sample.micros 1000000), x.sample.nodename, x.sample.jobid, d.1.name, d.2.dev,
    kv.1, .fin kv.2⟩, ?_, rfl⟩
  refine List.mem_flatMap.mpr ⟨x, hx, List.mem_flatMap.mpr ⟨d, hd, ?_⟩⟩
  rw [hproc]
  exact List.mem_map_of_mem hkv

theorem not_parsedExactly_sharedSample :
    ¬ParsedExactly [numaStatsType] defaultExcludeTypes [sharedSample] := by
  rintro ⟨p, hp, hrows, -⟩
  have hfirst : ∀ x, [sharedSample].head? = some x → x.banner ≠ none := by
    intro x hx
    obtain rfl := Option.some.inj hx
    exact Option.some_ne_none banner
  obtain ⟨q, flags, hlines, hflags, hread, -⟩ := feedLines_run enabled_numa wordNames_sharedSample
    (p := Parser.init 0 defaultExcludeTypes) rfl (Or.inr hfirst)
  rw [splitSep_monitorText wordNames_sharedSample, feedLines_append] at hp
  obtain ⟨q', hq', hp⟩ := hp
  obtain rfl := Except.ok.inj (hlines.symm.trans hq')
  obtain rfl := Except.ok.inj hp
  have hkv : ∀ tier, ("numa_hit", 70) ∈
      emitted numaStatsType (device "0" [70, 8, 9, 10, 11, 12]) tier := by
    intro tier
    cases tier <;> decide
  have hd : (numaStatsType, device "0" [70, 8, 9, 10, 11, 12]) ∈
      deviceRows [numaStatsType] sharedSample.sample := List.mem_cons_self
  obtain ⟨r, hr, hdev⟩ := exists_emittedReading (List.mem_singleton_self sharedSample) hd
    (by decide) (hkv _)
  have hparsed : r ∈ q.rows.map reading := hrows.mem_iff.mpr hr
  rw [hread] at hparsed
  rw [dev_of_mem_sharedSample hflags hparsed] at hdev
  exact absurd hdev (by decide)

/-- **Not everything is read back.**  The rows of a shared node come out under the stamp of the job,
not under their devices; a process whose name has a blank comes out under another name. -/
theorem not_parsedExactly_sharedAndBlank :
    ¬ParsedExactly [numaStatsType] defaultExcludeTypes [sharedSample] ∧
      ¬ParsedExactly [procStatsType] defaultExcludeTypes [blankSample] := by
  refine ⟨not_parsedExactly_sharedSample, ?_⟩
  have hkv : ∀ tier, ("vm_peak", 20) ∈ emitted procStatsType (device "tmux: server/4242/0-3/0"
      [1000, 20, 19, 0, 8, 7, 6, 5, 4, 3, 2, 0, 1]) tier := by
    intro tier
    cases tier <;> decide
  exact not_parsedExactly_of_blank defaultExcludeTypes (x := blankSample) List.mem_cons_self
    (d := (procStatsType, device "tmux: server/4242/0-3/0"
      [1000, 20, 19, 0, 8, 7, 6, 5, 4, 3, 2, 0, 1])) List.mem_cons_self (by decide) (hkv _)
    (by decide)

end MonitorRoundTrip
