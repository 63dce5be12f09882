/-
# The two collection tiers of the monitor daemon

With `enable_slow_tier` on, the slow keys of the static table, and every key that ends in `_error` or `_errors`,
are collected only in the full phase: once every `sample_freq_slow` seconds and with every `$` header.  The phase
is a global of the daemon.  `Daemon.callback` is one callback of its loop, `Daemon.payloads` are the payloads it
has built.

A payload at a boundary has a `$` header or the mark of a begin or an end of a job.  Headers and job ends force
the full phase, a job begin does not: it is collected in the phase that the last callback left.
`boundariesFull_iff` says when all payloads at boundaries are full, over every run.
-/
import HpcPerfStats.PyText
import HpcPerfStats.Transition
import Mathlib.Data.Rat.Floor

namespace CollectTier

open PyText Transition

/-! ## Tiers and phases -/

/-- `se_collect_tier`. -/
inductive Tier
  | fast
  | slow
  deriving DecidableEq

/-- `enum collect_phase`. -/
inductive Phase
  | fastOnly
  | full
  deriving DecidableEq

/-- `enum stats_row_tier`. -/
inductive RowTier
  | legacy
  | full
  | fast
  deriving DecidableEq

structure SchemaEntry where
  key : String
  tier : Tier

structure StatsType where
  name : String
  schema : List SchemaEntry

/-- `collect_tier_slow_table`. -/
def slowTable : List (String × String) :=
  [("host_lnet", "msgs_alloc_max"), ("host_lnet", "msgs_alloc"), ("host_lnet", "errors"),
    ("host_lnet", "rx_msgs_dropped"), ("host_lnet", "rx_bytes_dropped"), ("lustre_mdc", "ldlm_cancel"),
    ("lustre_mdc", "mds_close"), ("lustre_mdc", "mds_getattr"), ("lustre_mdc", "mds_getattr_lock"),
    ("lustre_mdc", "mds_getxattr"), ("lustre_mdc", "mds_readpage"), ("lustre_mdc", "mds_statfs"),
    ("lustre_mdc", "mds_sync"), ("host_mem", "anon_huge_pages"), ("host_mem", "anon_pages"),
    ("host_mem", "bounce"), ("host_mem", "dirty"), ("host_mem", "huge_pages_free"),
    ("host_mem", "huge_pages_total"), ("host_mem", "inactive"), ("host_mem", "mapped"),
    ("host_mem", "nfs_unstable"), ("host_mem", "page_tables"), ("host_mem", "writeback"),
    ("host_net", "collisions"), ("host_net", "rx_dropped"), ("host_net", "tx_dropped"),
    ("host_nfs", "xprt_bad_xids"), ("host_nfs", "xprt_bklog_u"), ("host_nfs", "xprt_req_u"),
    ("host_nfs", "read_timeouts"), ("host_nfs", "write_timeouts"), ("beegfs_client", "vfs_read_ops"),
    ("beegfs_client", "vfs_write_ops"), ("beegfs_client", "vfs_read_bytes"),
    ("beegfs_client", "vfs_write_bytes"), ("beegfs_client", "vfs_open_ops"),
    ("beegfs_client", "vfs_close_ops"), ("beegfs_client", "vfs_getattr_ops"),
    ("beegfs_client", "vfs_setattr_ops"), ("beegfs_client", "vfs_truncate_ops"),
    ("beegfs_client", "vfs_readdir_ops"), ("beegfs_client", "vfs_create_ops"),
    ("beegfs_client", "vfs_mkdir_ops"), ("beegfs_client", "vfs_rmdir_ops"),
    ("beegfs_client", "vfs_rename_ops"), ("beegfs_client", "vfs_unlink_ops"),
    ("beegfs_client", "vfs_link_ops"), ("beegfs_client", "vfs_statfs_ops"), ("host_proc", "uid"),
    ("host_proc", "vm_lck"), ("host_proc", "vm_pte"), ("host_proc", "vm_hwm"), ("host_ps", "load_1"),
    ("host_ps", "load_5"), ("host_ps", "load_15"), ("host_numa", "local_node"),
    ("host_numa", "interleave_hit"), ("host_tmpfs", "bytes_avail"), ("host_tmpfs", "bytes_used"),
    ("host_tmpfs", "files_used"), ("host_vfs", "dentry_use"), ("host_vfs", "file_use"),
    ("host_vfs", "inode_use"), ("host_vm", "nr_anon_transparent_hugepages"), ("host_vm", "pgpgin"),
    ("host_vm", "pgpgout"), ("host_vm", "pswpin"), ("host_vm", "pswpout"), ("host_vm", "pgalloc_normal"),
    ("host_vm", "pgfree"), ("host_vm", "pgactivate"), ("host_vm", "pgdeactivate"), ("host_vm", "pgfault"),
    ("host_vm", "pgmajfault"), ("host_vm", "pgrefill_normal"), ("host_vm", "pgsteal_normal"),
    ("host_vm", "pgscan_kswapd_normal"), ("host_vm", "pgscan_direct_normal"), ("host_vm", "pginodesteal"),
    ("host_vm", "slabs_scanned"), ("host_vm", "kswapd_steal"), ("host_vm", "kswapd_inodesteal"),
    ("host_vm", "pageoutrun"), ("host_vm", "allocstall"), ("host_vm", "pgrotated"),
    ("host_vm", "thp_fault_alloc"), ("host_vm", "thp_fault_fallback"), ("host_vm", "thp_collapse_alloc"),
    ("host_vm", "thp_collapse_alloc_failed"), ("host_vm", "thp_split"),
    ("host_cpu_hw", "cpu_util_total_accum_us"), ("host_cpu_hw", "cpu_util_user_accum_us"),
    ("host_cpu_hw", "cpu_util_sys_accum_us"), ("host_cpu_hw", "cpu_util_irq_accum_us"),
    ("host_cpu_hw", "cpu_util_nice_accum_us"), ("host_cpu_hw", "dcgm_cpu_power_util_w"),
    ("host_cpu_hw", "dcgm_cpu_power_limit_w"), ("nvidia_gpu", "gpu_count"), ("amd_gpu", "gpu_count"),
    ("intel_gpu", "gpu_count")]

/-- `collect_tier_key_has_error_suffix`. -/
def keyHasErrorSuffix (key : String) : Bool :=
  "_error".toList.isSuffixOf key.toList || "_errors".toList.isSuffixOf key.toList

/-- `collect_tier_key_is_slow`. -/
def keyIsSlow (typeName key : String) : Bool :=
  keyHasErrorSuffix key || slowTable.contains (typeName, key)

/-- `collect_tier_apply_to_type`. -/
def applyToType (enabled : Bool) (type : StatsType) : StatsType :=
  if enabled then
    { type with schema := type.schema.map fun se =>
        if keyIsSlow type.name se.key then { se with tier := .slow } else se }
  else type

/-- A type that was just initialised: all its keys are fast until the table is applied. -/
def initType (enabled : Bool) (type : String × List String) : StatsType :=
  applyToType enabled ⟨type.1, type.2.map fun key => ⟨key, .fast⟩⟩

/-- `collect_tier_key_active`. -/
def keyActive (enabled : Bool) (phase : Phase) (se : SchemaEntry) : Bool :=
  !enabled || phase == .full || se.tier == .fast

/-- `stats_buffer_row_tier_decide`. -/
def rowTierDecide (isSchemaPayload tierEnabled : Bool) (phase : Phase) : RowTier :=
  if !tierEnabled then .legacy
  else if isSchemaPayload || phase == .full then .full
  else .fast

/-- `stats_format_row_key_emitted`. -/
def rowKeyEmitted (tier : RowTier) (se : SchemaEntry) : Bool :=
  tier != .fast || se.tier == .fast

/-- `monitor_timing_normalize_period`. -/
def normalizePeriod (period : ℚ) : ℚ :=
  if period ≤ 0 then 1 else period

/-- `monitor_collect_slow_slot`. -/
def collectSlowSlot (now period : ℚ) : ℤ :=
  ⌊max now 0 / normalizePeriod period⌋

/-- `monitor_collect_should_run_slow`. -/
def shouldRunSlow (now : ℚ) (lastSlowSlot : ℤ) (period : ℚ) : Bool :=
  collectSlowSlot now period != lastSlowSlot

/-! ## The daemon -/

/-- The mark lines of the job file's watcher. -/
inductive Mark
  | jobBegin (jobid : String)
  | jobEnd (jobid : String)

/-- A payload: the keys of the types, and those that were collected for it and are written. -/
structure Payload where
  header : Bool
  jobid : String
  mark : Option Mark
  tier : RowTier
  keys : List (String × String)
  values : List (String × String)

/-- The settings that `read_conf_file` leaves. -/
structure Settings where
  enableSlowTier : Bool
  sampleFreqSlow : ℚ

structure Daemon where
  jobid : String
  tierEnabled : Bool
  sampleFreqSlow : ℚ
  phase : Phase
  lastSlowSlot : ℤ
  types : List StatsType
  payloads : List Payload

/-- What becomes of a payload: no buffer for it, a failure while it is built, or it is built. -/
inductive Outcome
  | noBuffer
  | failed
  | built
  deriving DecidableEq

/-- `type key` for the entries that are selected. -/
def keysOf (select : SchemaEntry → Bool) (types : List StatsType) : List (String × String) :=
  types.flatMap fun type => (type.schema.filter select).map fun se => (type.name, se.key)

/-- The payload that is built in the phase of the daemon. -/
def Daemon.payload (d : Daemon) (writeHdr : Bool) (mark : Option Mark) : Payload :=
  let tier := rowTierDecide writeHdr d.tierEnabled d.phase
  { header := writeHdr
    jobid := d.jobid
    mark
    tier
    keys := keysOf (fun _ => true) d.types
    values := keysOf (fun se => keyActive d.tierEnabled d.phase se && rowKeyEmitted tier se) d.types }

/-- `monitor_daemon_collect_to_ring`. -/
def Daemon.collectToRing (d : Daemon) (writeHdr : Bool) (mark : Option Mark) (outcome : Outcome) : Daemon :=
  let forced := if writeHdr then { d with phase := .full } else d
  match outcome with
  | .noBuffer => d
  | .failed => forced
  | .built => { forced with payloads := forced.payloads ++ [forced.payload writeHdr mark] }

/-- `stats_runtime_collect_phase_for_tick`. -/
def Daemon.collectPhaseForTick (d : Daemon) (now : ℚ) : Daemon :=
  if !d.tierEnabled then { d with phase := .full }
  else if shouldRunSlow now d.lastSlowSlot d.sampleFreqSlow then
    { d with phase := .full, lastSlowSlot := collectSlowSlot now d.sampleFreqSlow }
  else { d with phase := .fastOnly }

/-- `monitor_daemon_jobid_assign`. -/
def jobidAssign (src : String) : String :=
  if src = "" then "-" else src

/-- `monitor_daemon_fd_apply_jobid_change`. -/
def Daemon.applyJobidChange (d : Daemon) (newJobid : String) (outcome : Outcome) : Daemon :=
  if newJobid ≠ "-" then
    { d with jobid := jobidAssign newJobid }.collectToRing false
      (some (.jobBegin (jobidAssign newJobid))) outcome
  else d.collectToRing true (some (.jobEnd d.jobid)) outcome

/-- The callbacks.  The job file comes with the word that is read from it. -/
inductive Callback
  | sample (now : ℚ) (outcome : Outcome)
  | rotate (outcome : Outcome)
  | jobFile (word : Option String) (outcome : Outcome)
  | reload (settings : Settings) (types : List (String × List String)) (outcome : Outcome)
  | send

/-- One callback: `monitor_daemon_sample_timer_cb`, `monitor_daemon_rotate_timer_cb`, `monitor_daemon_fd_cb`,
`monitor_daemon_signal_cb_hup` and `monitor_daemon_send_timer_cb`. -/
def Daemon.callback (d : Daemon) : Callback → Daemon
  | .sample now outcome => (d.collectPhaseForTick now).collectToRing false none outcome
  | .rotate outcome => d.collectToRing true none outcome
  | .jobFile word outcome =>
      let newJobid := word.getD "-"
      if d.jobid ≠ newJobid then
        { d.applyJobidChange newJobid outcome with jobid := jobidAssign newJobid }
      else d
  | .reload settings types outcome =>
      { d with
        lastSlowSlot := -1
        tierEnabled := settings.enableSlowTier
        sampleFreqSlow := settings.sampleFreqSlow
        types := types.map (initType settings.enableSlowTier) }.collectToRing true none outcome
  | .send => d

/-- The daemon after its start: the types are made and a first header is collected. -/
def Daemon.start (settings : Settings) (types : List (String × List String)) (jobid : String)
    (outcome : Outcome) : Daemon :=
  (⟨jobid, settings.enableSlowTier, settings.sampleFreqSlow, .full, -1,
    types.map (initType settings.enableSlowTier), []⟩ : Daemon).collectToRing true none outcome

def step (d : Daemon) (cb : Callback) : Option Daemon :=
  some (d.callback cb)

/-! ## Boundaries -/

/-- The payload has a `$` header or the mark of a job. -/
def Payload.Boundary (p : Payload) : Prop :=
  p.header = true ∨ p.mark ≠ none

/-- The payload is collected at full tier: no row is `@fast`, and every key has a value. -/
def Payload.Full (p : Payload) : Prop :=
  p.tier ≠ .fast ∧ ∀ key ∈ p.keys, key ∈ p.values

/-- Every payload at a boundary is full. -/
def Daemon.BoundariesFull (d : Daemon) : Prop :=
  ∀ p ∈ d.payloads, p.Boundary → p.Full

/-- The daemon collects every key: the tiers are off, or it is in the full phase. -/
def Daemon.CollectsAll (d : Daemon) : Prop :=
  d.tierEnabled = false ∨ d.phase = .full

instance (d : Daemon) : Decidable d.CollectsAll :=
  inferInstanceAs (Decidable (_ ∨ _))

/-- **The condition on a callback.**  When the job file names another job, all keys are being collected. -/
def StepOk (d : Daemon) : Callback → Prop
  | .jobFile (some word) .built => word ≠ d.jobid → word ≠ "-" → d.CollectsAll
  | _ => True

/-! ## What a payload has -/

theorem mem_keysOf_of_forall {select : SchemaEntry → Bool} {types : List StatsType}
    (h : ∀ se, select se = true) : ∀ key ∈ keysOf (fun _ => true) types, key ∈ keysOf select types := by
  have hsame : select = fun _ => true := by
    funext se
    exact h se
  rw [hsame]
  exact fun key hkey => hkey

theorem rowTierDecide_full_ne_fast (writeHdr tierEnabled : Bool) :
    rowTierDecide writeHdr tierEnabled .full ≠ .fast := by
  cases writeHdr with
  | false =>
      cases tierEnabled with
      | false => decide
      | true => decide
  | true =>
      cases tierEnabled with
      | false => decide
      | true => decide

/-- While all keys are being collected, a payload of another tier than `@fast` is full. -/
theorem payload_full_of_collectsAll {d : Daemon} {writeHdr : Bool} (hall : d.CollectsAll)
    (htier : rowTierDecide writeHdr d.tierEnabled d.phase ≠ .fast) (mark : Option Mark) :
    (d.payload writeHdr mark).Full := by
  refine ⟨htier, mem_keysOf_of_forall fun se => ?_⟩
  rw [Bool.and_eq_true]
  constructor
  · unfold keyActive
    rcases hall with hen | hphase
    · rw [hen]
      rfl
    · rw [hphase]
      simp
  · unfold rowKeyEmitted
    rw [Bool.or_eq_true]
    exact Or.inl (by simpa using htier)

/-- A payload without the header is full exactly when all keys are being collected. -/
theorem payload_full_iff {d : Daemon} {mark : Option Mark} :
    (d.payload false mark).Full ↔ d.CollectsAll := by
  constructor
  · rintro ⟨htier, -⟩
    by_contra hno
    apply htier
    unfold Daemon.CollectsAll at hno
    rw [not_or] at hno
    show rowTierDecide false d.tierEnabled d.phase = .fast
    unfold rowTierDecide
    have hen : d.tierEnabled = true := by simpa using hno.1
    have hphase : (d.phase == Phase.full) = false := by simpa using hno.2
    rw [hen, hphase]
    rfl
  · intro hall
    have htier : rowTierDecide false d.tierEnabled d.phase ≠ .fast := by
      rcases hall with hen | hphase
      · rw [hen]
        exact RowTier.noConfusion
      · rw [hphase]
        exact rowTierDecide_full_ne_fast false d.tierEnabled
    exact payload_full_of_collectsAll hall htier mark

/-- A payload with the header is collected in the full phase. -/
theorem payload_full_of_header {d : Daemon} (hphase : d.phase = .full) (mark : Option Mark) :
    (d.payload true mark).Full := by
  have htier : rowTierDecide true d.tierEnabled d.phase ≠ .fast := by
    rw [hphase]
    exact rowTierDecide_full_ne_fast true d.tierEnabled
  exact payload_full_of_collectsAll (Or.inr hphase) htier mark

/-! ## What a callback adds -/

/-- The payloads that a collection adds. -/
def Daemon.added (d : Daemon) (writeHdr : Bool) (mark : Option Mark) (outcome : Outcome) : List Payload :=
  if outcome = .built then [(if writeHdr then { d with phase := .full } else d).payload writeHdr mark] else []

theorem payloads_collectToRing (d : Daemon) (writeHdr : Bool) (mark : Option Mark) (outcome : Outcome) :
    (d.collectToRing writeHdr mark outcome).payloads = d.payloads ++ d.added writeHdr mark outcome := by
  unfold Daemon.collectToRing Daemon.added
  cases outcome with
  | noBuffer => exact (List.append_nil _).symm
  | failed =>
      cases writeHdr with
      | false => exact (List.append_nil _).symm
      | true => exact (List.append_nil _).symm
  | built =>
      cases writeHdr with
      | false => rfl
      | true => rfl

/-- With the header everything is full. -/
theorem added_header (d : Daemon) (mark : Option Mark) (outcome : Outcome) :
    ∀ p ∈ d.added true mark outcome, p.Full := by
  intro p hp
  unfold Daemon.added at hp
  by_cases hbuilt : outcome = .built
  · rw [if_pos hbuilt] at hp
    rw [List.mem_singleton.mp hp]
    exact payload_full_of_header rfl mark
  · rw [if_neg hbuilt] at hp
    cases hp

/-- A sample is at no boundary. -/
theorem added_sample (d : Daemon) (outcome : Outcome) : ∀ p ∈ d.added false none outcome, ¬p.Boundary := by
  intro p hp
  unfold Daemon.added at hp
  by_cases hbuilt : outcome = .built
  · rw [if_pos hbuilt] at hp
    rw [List.mem_singleton.mp hp]
    rintro (h | h)
    · cases h
    · exact h rfl
  · rw [if_neg hbuilt] at hp
    cases hp

/-- The payload at the begin of the job `word`. -/
def Daemon.beginPayload (d : Daemon) (word : String) : Payload :=
  { d with jobid := jobidAssign word }.payload false (some (.jobBegin (jobidAssign word)))

/-- What a callback adds: payloads that are full where they are at a boundary, or that of a job begin. -/
inductive Adds (d : Daemon) (cb : Callback) (ps : List Payload) : Prop
  | plain (hok : StepOk d cb) (hfull : ∀ p ∈ ps, p.Boundary → p.Full)
  | jobBegin (word : String) (hcb : cb = .jobFile (some word) .built) (hother : word ≠ d.jobid)
      (hjob : word ≠ "-") (hps : ps = [d.beginPayload word])

theorem adds_jobFile (d : Daemon) (word : Option String) (outcome : Outcome) :
    ∃ ps, (d.callback (.jobFile word outcome)).payloads = d.payloads ++ ps ∧
      Adds d (.jobFile word outcome) ps := by
  by_cases hsame : d.jobid = word.getD "-"
  · have hcb : d.callback (.jobFile word outcome) = d := by
      simp only [Daemon.callback]
      rw [if_neg (by simpa using hsame)]
    refine ⟨[], by rw [hcb, List.append_nil], Adds.plain ?_ (by rintro p ⟨⟩)⟩
    unfold StepOk
    split
    · rename_i word' heq
      cases heq
      exact fun hne => absurd hsame.symm hne
    · trivial
  · have hcb : (d.callback (.jobFile word outcome)).payloads =
        (d.applyJobidChange (word.getD "-") outcome).payloads := by
      simp only [Daemon.callback]
      rw [if_pos hsame]
    unfold Daemon.applyJobidChange at hcb
    by_cases hidle : word.getD "-" = "-"
    · rw [if_neg (by simpa using hidle), payloads_collectToRing] at hcb
      refine ⟨_, hcb, Adds.plain ?_ fun p hp _ => added_header d _ outcome p hp⟩
      unfold StepOk
      split
      · rename_i word' heq
        cases heq
        exact fun _ hne => absurd hidle hne
      · trivial
    · rw [if_pos hidle, payloads_collectToRing] at hcb
      cases word with
      | none => exact absurd rfl hidle
      | some word =>
          rw [Option.getD_some] at hidle hsame hcb
          refine ⟨_, hcb, ?_⟩
          cases outcome with
          | noBuffer => exact Adds.plain trivial (by rintro p ⟨⟩)
          | failed => exact Adds.plain trivial (by rintro p ⟨⟩)
          | built => exact Adds.jobBegin word rfl (Ne.symm hsame) hidle rfl

/-- **One callback.** -/
theorem adds_callback (d : Daemon) (cb : Callback) :
    ∃ ps, (d.callback cb).payloads = d.payloads ++ ps ∧ Adds d cb ps := by
  cases cb with
  | sample now outcome =>
      have hsame : (d.collectPhaseForTick now).payloads = d.payloads := by
        unfold Daemon.collectPhaseForTick
        split_ifs
        · rfl
        · rfl
        · rfl
      have h := payloads_collectToRing (d.collectPhaseForTick now) false none outcome
      rw [hsame] at h
      exact ⟨_, h, Adds.plain trivial fun p hp hbound => absurd hbound (added_sample _ outcome p hp)⟩
  | rotate outcome =>
      exact ⟨_, payloads_collectToRing d true none outcome,
        Adds.plain trivial fun p hp _ => added_header d none outcome p hp⟩
  | reload settings types outcome =>
      exact ⟨_, payloads_collectToRing _ true none outcome,
        Adds.plain trivial fun p hp _ => added_header _ none outcome p hp⟩
  | send => exact ⟨[], (List.append_nil _).symm, Adds.plain trivial (by rintro p ⟨⟩)⟩
  | jobFile word outcome => exact adds_jobFile d word outcome

/-! ## Runs -/

theorem beginPayload_full_iff {d : Daemon} {word : String} :
    (d.beginPayload word).Full ↔ d.CollectsAll :=
  payload_full_iff

/-- Whether a callback keeps the payloads at boundaries full. -/
theorem boundariesFull_callback {d : Daemon} (hd : d.BoundariesFull) (cb : Callback) :
    (d.callback cb).BoundariesFull ↔ StepOk d cb := by
  obtain ⟨ps, hps, hadds⟩ := adds_callback d cb
  have hiff : (d.callback cb).BoundariesFull ↔ ∀ p ∈ ps, p.Boundary → p.Full := by
    unfold Daemon.BoundariesFull
    rw [hps, List.forall_mem_append]
    exact and_iff_right hd
  rw [hiff]
  cases hadds with
  | plain hok hfull => exact iff_of_true hfull hok
  | jobBegin word hcb hother hjob hword =>
      subst hcb hword
      have hboundary : (d.beginPayload word).Boundary := Or.inr (Option.some_ne_none _)
      rw [List.forall_mem_singleton]
      constructor
      · exact fun h _ _ => beginPayload_full_iff.mp (h hboundary)
      · exact fun h _ => beginPayload_full_iff.mpr (h hother hjob)

theorem boundariesFull_start (settings : Settings) (types : List (String × List String)) (jobid : String)
    (outcome : Outcome) : (Daemon.start settings types jobid outcome).BoundariesFull := by
  intro p hp _
  unfold Daemon.start at hp
  rw [payloads_collectToRing] at hp
  exact added_header _ none outcome p hp

/-- Every payload with a header is full. -/
def Daemon.HeadersFull (d : Daemon) : Prop :=
  ∀ p ∈ d.payloads, p.header = true → p.Full

/-- **Headers are always full.**  So are the ends of jobs, which come with one. -/
theorem headersFull (settings : Settings) (types : List (String × List String)) (jobid : String)
    (outcome : Outcome) (cbs : List Callback) (d : Daemon)
    (hrun : exec step (Daemon.start settings types jobid outcome) cbs = some d) : d.HeadersFull := by
  refine exec_invariant_of_step (I := Daemon.HeadersFull) ?_ cbs _ d ?_ hrun
  · rintro d cb d' hd ⟨⟩
    obtain ⟨ps, hps, hadds⟩ := adds_callback d cb
    unfold Daemon.HeadersFull
    rw [hps, List.forall_mem_append]
    refine ⟨hd, ?_⟩
    cases hadds with
    | plain _ hfull => exact fun p hp hheader => hfull p hp (Or.inl hheader)
    | jobBegin word hcb hother hjob hword =>
        subst hword
        rw [List.forall_mem_singleton]
        rintro ⟨⟩
  · exact fun p hp hheader => boundariesFull_start settings types jobid outcome p hp (Or.inl hheader)

/-- **When the payloads at boundaries are full.**  In every state of a run every payload at a boundary is full,
exactly when all keys are being collected whenever the job file names another job. -/
theorem boundariesFull_iff (settings : Settings) (types : List (String × List String)) (jobid : String)
    (outcome : Outcome) (cbs : List Callback) :
    (∀ n d, exec step (Daemon.start settings types jobid outcome) (cbs.take n) = some d → d.BoundariesFull) ↔
      Respects step StepOk (Daemon.start settings types jobid outcome) cbs := by
  refine exec_invariant_iff ?_ ?_ cbs _ (boundariesFull_start settings types jobid outcome)
  · rintro d cb d' hd ⟨⟩
    exact boundariesFull_callback hd cb
  · rintro d cb ⟨⟩

/-- A job that begins after a fast sample: its first payload is fast. -/
theorem not_boundariesFull_of_fast_begin :
    ¬∀ (settings : Settings) (types : List (String × List String)) (jobid : String) (outcome : Outcome)
      (cbs : List Callback) (d : Daemon),
      exec step (Daemon.start settings types jobid outcome) cbs = some d → d.BoundariesFull := by
  intro h
  have hall := h ⟨true, 600⟩ [("host_net", ["rx_bytes", "rx_dropped"])] "-" .built
    [.sample 1200 .built, .sample 1230 .built, .jobFile (some "77") .built] _ rfl
  have hlast : ∃ p ∈ ((((Daemon.start ⟨true, 600⟩ [("host_net", ["rx_bytes", "rx_dropped"])] "-" .built).callback
      (.sample 1200 .built)).callback (.sample 1230 .built)).callback (.jobFile (some "77") .built)).payloads,
      p.mark.isSome = true ∧ p.tier = .fast := by
    decide +kernel
  obtain ⟨p, hp, hmark, htier⟩ := hlast
  exact (hall p hp (Or.inr (Option.isSome_iff_ne_none.mp hmark))).1 htier

end CollectTier
