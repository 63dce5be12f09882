/-
# The payloads of a shared node

On a node with several jobs a sample is one burst of payloads: one for each job, and one under `-` for what no
job has.  A row filter decides which rows a payload has:

* a CPU row goes by the CPU list of the payload, of a job the CPUs that its processes may run on, of `-` the
  online CPUs that are in no list of a job;
* a `host_proc` row goes to the job that has the pid in the row's device;
* a GPU row goes by the GPUs that the job was granted, and to `-` when the GPU is an NVIDIA device that no job
  was granted.

The lists are written into buffers of 512 bytes.  What a job's list drops is in no job's list and goes to `-`;
what the list of `-` drops is lost.  `burst_covers_iff` says when the burst has what it should have.
-/
import HpcPerfStats.CpuList
import Mathlib.Data.Char
import Mathlib.Data.Int.Bitwise
import Mathlib.Data.List.Lex

namespace SharedBurst

open CpuList

/-- A C string. -/
abbrev Dev := List Char

/-! ## GPUs -/

/-- `enum job_gpu_autodetect`. -/
inductive AutoDetect
  | off
  | nvml
  | nvidia
  | rsmi
  | oneapi
  | full
  | unknown
  deriving DecidableEq

/-- `(int)v`. -/
def toInt (v : ℤ) : ℤ :=
  Int.bmod v (2 ^ 32)

/-- `set_add_dev`. -/
def addDev (devs : List Dev) (dev : Dev) : List Dev :=
  if dev.isEmpty then devs
  else if devs.contains dev then devs
  else if devs.length ≥ 64 then devs
  else devs ++ [dev.take 15]

/-- A sorted list without its repetitions. -/
def unique (last : Option Dev) : List Dev → List Dev
  | [] => []
  | dev :: devs => if last = some dev then unique last devs else dev :: unique (some dev) devs

/-- `set_sort_unique`. -/
def sortUnique (devs : List Dev) : List Dev :=
  unique none (devs.mergeSort fun a b => decide (a ≤ b))

/-- `job_gpu_set_union`. -/
def union (a b : List Dev) : List Dev :=
  sortUnique (b.foldl addDev (a.foldl addDev []))

/-- `job_gpu_set_diff`. -/
def diff (whole subtract : List Dev) : List Dev :=
  sortUnique ((whole.filter fun dev => !subtract.contains dev).foldl addDev [])

/-- The device of a granted number.  No hook maps NVML indices outside the tests. -/
def mapDev (ad : AutoDetect) (v : ℤ) : Option Dev :=
  match ad with
  | .nvml | .nvidia | .full => if toInt v < 0 then none else some ((toString (toInt v)).toList.take 15)
  | .rsmi | .oneapi => some ((toString v).toList.take 15)
  | .off | .unknown => none

def skipGrant (c : Char) : Bool :=
  c == ',' || isSpaceC c

/-- The loop of `job_gpu_assign_map_grant`. -/
def grantLoop (ad : AutoDetect) : ℕ → List Char → List Dev → List Dev
  | 0, _, devs => devs
  | fuel + 1, cs, devs =>
      match cs.dropWhile skipGrant with
      | [] => devs
      | c :: cs' =>
          match strtol (c :: cs') with
          | none => grantLoop ad fuel ((c :: cs').dropWhile (· != ',')) devs
          | some v =>
              if v.outOfRange || decide (v.value < 0) then
                grantLoop ad fuel ((c :: cs').dropWhile (· != ',')) devs
              else
                match mapDev ad v.value with
                | none => grantLoop ad fuel v.rest devs
                | some dev => grantLoop ad fuel v.rest (addDev devs dev)

/-- `job_gpu_assign_map_grant`. -/
def mapGrant (ad : AutoDetect) (jobGpus : List Char) : List Dev :=
  if ad = .off ∨ ad = .unknown then []
  else sortUnique (grantLoop ad jobGpus.length jobGpus [])

/-- `minor_to_dev`: no hook maps minor numbers outside the tests. -/
def minorToDev (_minor : ℤ) : Option Dev :=
  none

/-- The minor number of an open device file. -/
def nvidiaMinor (target : List Char) : Option ℤ :=
  if "/dev/nvidia".toList.isPrefixOf target then
    match target.drop 11 with
    | c :: cs =>
        if c.isDigit then
          match strtol (c :: cs) with
          | some v => if v.rest.isEmpty && !v.outOfRange then some (toInt v.value) else none
          | none => none
        else none
    | [] => none
  else none

/-- `job_gpu_assign_scan_fds`, on what the descriptors of the processes link to. -/
def scanFds (targets : List (List Char)) : List Dev :=
  sortUnique ((targets.filterMap fun target => (nvidiaMinor target).bind minorToDev).foldl addDev [])

/-! ## The node -/

/-- A job that was discovered. -/
structure Job where
  jid : String
  pids : List ℕ
  jobGpus : List Char

/-- A process, as `host_proc` reads it. -/
structure Process where
  name : List Char
  pid : ℕ
  cmask : List Char
  mmask : List Char

/-- The device of a process row. -/
def Process.dev (p : Process) : Dev :=
  (p.name ++ '/' :: (toString p.pid).toList ++ '/' :: p.cmask ++ '/' :: p.mmask).take 511

/-- What `sched_getaffinity` gives: a set, `EPERM` or `ESRCH`, another error. -/
inductive Affinity
  | cpus (set : ℕ → Bool)
  | skipped
  | failed

/-- The GPUs that are not from NVIDIA. -/
inductive OtherGpu
  | amd
  | intel

def OtherGpu.stName : OtherGpu → String
  | .amd => "amd_gpu"
  | .intel => "intel_gpu"

/-- The line of the kernel's file of online CPUs. -/
def onlineLine (online : ℕ → Bool) (possible : ℕ) : List Char :=
  listText (runs online possible) ++ ['\n']

/-- What a burst reads from the node.  The CPU numbers are below `possible`, and the kernel's file is at most a
page. -/
structure Node where
  possible : ℕ
  online : ℕ → Bool
  conf : ℕ
  onlineReadable : Bool
  affinity : ℕ → Affinity
  sampleLimit : ℤ
  autodetect : AutoDetect
  fdTargets : ℕ → List (List Char)
  nvidiaNdev : ℕ
  otherGpus : List (OtherGpu × Dev)
  processes : List Process
  possible_le : possible ≤ 2 ^ 31
  conf_lt : conf < 2 ^ 31
  line_fits : (onlineLine online possible).length < 4096

/-- What `fgets` reads of the file of online CPUs. -/
def Node.readOnlineLine (node : Node) : Option (List Char) :=
  if node.onlineReadable then some ((onlineLine node.online node.possible).take 4095) else none

/-- The size of the sets of `job_sched_affinity_read_online`. -/
def Node.ncpus (node : Node) : ℕ :=
  max node.conf 1024

/-- `job_sched_affinity_read_online`. -/
def Node.readOnline (node : Node) : Option (ℕ → Bool) :=
  node.readOnlineLine.bind fun line => parseCpulistInto line node.ncpus

/-- The affinities of the first processes that can be read, and whether one can. -/
def Node.sampleAffinity (node : Node) (limit : ℕ) : List ℕ → ℕ → (ℕ → Bool) → Option ((ℕ → Bool) × Bool)
  | [], sampled, set => some (set, decide (0 < sampled))
  | pid :: pids, sampled, set =>
      if limit ≤ sampled then some (set, decide (0 < sampled))
      else
        match node.affinity pid with
        | .failed => none
        | .skipped => node.sampleAffinity limit pids sampled set
        | .cpus own =>
            node.sampleAffinity limit pids (sampled + 1) fun cpu => set cpu || (decide (cpu < node.ncpus) && own cpu)

/-- `job_sched_affinity_union_cpulist`, with the buffer of its caller. -/
def Node.unionCpulist (node : Node) (pids : List ℕ) : List Char :=
  if pids.isEmpty then []
  else
    match node.readOnline with
    | none => []
    | some _ =>
        let limit := if node.sampleLimit ≤ 0 then 8 else node.sampleLimit.toNat
        match node.sampleAffinity limit pids 0 fun _ => false with
        | some (set, true) => (formatCpulist set node.ncpus 512).1
        | _ => []

/-- `job_sched_affinity_remainder_cpulist`, with the buffer of its caller. -/
def Node.remainderCpulist (node : Node) (claimed : List (List Char)) : List Char :=
  match node.readOnlineLine with
  | none => []
  | some line => (cpulistSubtract line claimed 512).1

/-- `fill_available_gpus`. -/
def Node.available (node : Node) : List Dev :=
  (List.range (min node.nvidiaNdev 64)).map fun i => (toString i).toList

/-- The GPUs of a job: those granted and those in use. -/
def Node.gpusOf (node : Node) (job : Job) : List Dev :=
  union (mapGrant node.autodetect job.jobGpus) (scanFds (job.pids.flatMap node.fdTargets))

/-- The type and device of every GPU row. -/
def Node.gpus (node : Node) : List (String × Dev) :=
  (List.range node.nvidiaNdev).map (fun i => ("nvidia_gpu", (toString i).toList)) ++
    node.otherGpus.map fun g => (g.1.stName, g.2)

/-! ## The row filter -/

/-- `proc_dev_pid`: the number behind the first `/`. -/
def procDevPid (dev : Dev) : Option ℤ :=
  match dev.dropWhile (· != '/') with
  | [] => none
  | _ :: p =>
      match strtol p with
      | none => none
      | some v =>
          match v.rest with
          | [] => some (toInt v.value)
          | c :: _ => if c = '/' then some (toInt v.value) else none

/-- `job_cgroup_mem_keep_dev`. -/
def jobCgroupMemKeepDev (jid : String) (dev : Dev) : Bool :=
  jid != "" && decide (("j:" ++ jid).toList.length < 35) && dev == ("j:" ++ jid).toList

/-- A payload, with the context of its row filter. -/
structure Payload where
  jid : String
  entry : Option Job
  gpus : List Dev
  cpulist : Option (List Char)
  includeNodeWide : Bool
  includeProc : Bool
  includeGpu : Bool

/-- `emit_row_filter`. -/
def Payload.keeps (p : Payload) (stName : String) (dev : Dev) : Bool :=
  if stName = "host_proc" then
    match p.includeProc, p.entry, procDevPid dev with
    | true, some entry, some pid => entry.pids.any fun own => decide ((own : ℤ) = pid)
    | _, _, _ => false
  else if stName = "nvidia_gpu" ∨ stName = "amd_gpu" ∨ stName = "intel_gpu" then
    p.includeGpu && p.gpus.contains dev
  else if stName = "host_cpu" ∨ stName = "host_cpu_hw" then
    match p.cpulist with
    | some cpulist => cpuDevInList cpulist dev
    | none => p.includeNodeWide
  else if stName = "host_mem_job" then
    match p.entry with
    | some entry => jobCgroupMemKeepDev entry.jid dev
    | none => false
  else p.includeNodeWide

/-! ## The burst -/

/-- The payload of one of several jobs. -/
def Node.jobPayload (node : Node) (job : Job) : Payload :=
  { jid := job.jid
    entry := some job
    gpus := node.gpusOf job
    cpulist := some (node.unionCpulist job.pids)
    includeNodeWide := false
    includeProc := true
    includeGpu := true }

/-- The GPUs that jobs claim. -/
def Node.claimedGpus (node : Node) (jobs : List Job) : List Dev :=
  jobs.foldl (fun claimed job => union claimed (node.gpusOf job)) []

/-- The CPU lists that are not empty. -/
def Node.cpuLists (node : Node) (jobs : List Job) : List (List Char) :=
  (jobs.map fun job => node.unionCpulist job.pids).filter fun list => !list.isEmpty

/-- The payload under `-` next to several jobs. -/
def Node.restPayload (node : Node) (jobs : List Job) : Payload :=
  { jid := "-"
    entry := none
    gpus := diff node.available (node.claimedGpus jobs)
    cpulist := some (node.remainderCpulist (node.cpuLists jobs))
    includeNodeWide := true
    includeProc := false
    includeGpu := true }

/-- `job_shared_emit_sample_burst`. -/
def burst (node : Node) : List Job → List Payload
  | [] =>
      [{ jid := "-"
         entry := none
         gpus := []
         cpulist := none
         includeNodeWide := true
         includeProc := false
         includeGpu := false }]
  | [job] =>
      [{ jid := job.jid
         entry := some job
         gpus := node.gpusOf job
         cpulist := none
         includeNodeWide := true
         includeProc := true
         includeGpu := true }]
  | jobs => jobs.map node.jobPayload ++ [node.restPayload jobs]

/-! ## What a burst should have -/

/-- Every online CPU has its rows, process rows are with their jobs, and every GPU has its rows. -/
structure Covers (node : Node) (payloads : List Payload) : Prop where
  cpus : ∀ cpu, cpu < node.possible → node.online cpu = true → ∀ stName ∈ ["host_cpu", "host_cpu_hw"],
    ∃ p ∈ payloads, p.keeps stName (toString cpu).toList = true
  procs : ∀ p ∈ payloads, ∀ process ∈ node.processes, p.keeps "host_proc" process.dev = true →
    ∃ job, p.entry = some job ∧ process.pid ∈ job.pids
  gpus : ∀ g ∈ node.gpus, ∃ p ∈ payloads, p.keeps g.1 g.2 = true

/-- The CPU is in the list of a job. -/
def Node.listed (node : Node) (jobs : List Job) (cpu : ℕ) : Bool :=
  jobs.any fun job => cpuDevInList (node.unionCpulist job.pids) (toString cpu).toList

/-- The online CPUs that are in no list of a job. -/
def Node.unlisted (node : Node) (jobs : List Job) (cpu : ℕ) : Bool :=
  decide (cpu < node.possible) && node.online cpu && !node.listed jobs cpu

/-- The size of the sets in which the rest is found. -/
def Node.restNcpus (node : Node) (jobs : List Job) : ℕ :=
  subtractNcpus (onlineLine node.online node.possible :: node.cpuLists jobs)

/-- **The condition on the node and its jobs.**  The file of online CPUs can be read and the text of the CPUs in no
job's list fits into 512 bytes; no name of a process makes its row look like that of a job's process; every GPU
is one of the first 64 NVIDIA devices or granted to a job. -/
structure BurstOk (node : Node) (jobs : List Job) : Prop where
  cpus : (node.onlineReadable = true ∧
      (listText (runs (node.unlisted jobs) (node.restNcpus jobs))).length < 512) ∨
    ∀ cpu < node.possible, node.online cpu = false
  procs : ∀ process ∈ node.processes, ∀ job ∈ jobs, ∀ pid ∈ job.pids,
    procDevPid process.dev = some (pid : ℤ) → process.pid ∈ job.pids
  gpus : ∀ g ∈ node.gpus, g.2 ∈ node.available ∨ ∃ job ∈ jobs, g.2 ∈ node.gpusOf job

/-! ## Sets of GPUs -/

/-- No name is cut. -/
def Short (devs : List Dev) : Prop :=
  ∀ dev ∈ devs, dev.length ≤ 15

theorem mem_unique (dev : Dev) (devs : List Dev) :
    ∀ last, dev ∈ unique last devs ∨ last = some dev ↔ dev ∈ devs ∨ last = some dev := by
  induction devs with
  | nil => exact fun last => Iff.rfl
  | cons d devs ih =>
      intro last
      rw [unique]
      split_ifs with hlast
      · rw [ih last, List.mem_cons]
        constructor
        · exact fun h => h.imp_left Or.inr
        · rintro ((rfl | h) | h)
          · exact Or.inr hlast
          · exact Or.inl h
          · exact Or.inr h
      · have hd := ih (some d)
        rw [Option.some.injEq] at hd
        rw [List.mem_cons, List.mem_cons]
        refine or_congr_left ?_
        rw [or_comm, eq_comm, hd, or_comm, eq_comm]

theorem mem_sortUnique {dev : Dev} {devs : List Dev} : dev ∈ sortUnique devs ↔ dev ∈ devs := by
  have h := mem_unique dev (devs.mergeSort fun a b => decide (a ≤ b)) none
  simp only [reduceCtorEq, or_false] at h
  unfold sortUnique
  rw [h, List.mem_mergeSort]

theorem mem_of_mem_addDev {devs : List Dev} {dev d : Dev} (hdev : dev.length ≤ 15) (h : d ∈ addDev devs dev) :
    d ∈ devs ∨ d = dev := by
  unfold addDev at h
  split_ifs at h
  · exact Or.inl h
  · exact Or.inl h
  · exact Or.inl h
  · rcases List.mem_append.mp h with h | h
    · exact Or.inl h
    · rw [List.mem_singleton.mp h, List.take_of_length_le hdev]
      exact Or.inr rfl

theorem mem_of_mem_foldl_addDev {d : Dev} {devs : List Dev} (hdevs : Short devs) :
    ∀ {acc : List Dev}, d ∈ devs.foldl addDev acc → d ∈ acc ∨ d ∈ devs := by
  induction devs with
  | nil => exact fun h => Or.inl h
  | cons dev devs ih =>
      intro acc h
      obtain ⟨hdev, hrest⟩ := List.forall_mem_cons.mp hdevs
      rcases ih hrest h with h | h
      · rcases mem_of_mem_addDev hdev h with h | rfl
        · exact Or.inl h
        · exact Or.inr List.mem_cons_self
      · exact Or.inr (List.mem_cons_of_mem dev h)

theorem mem_of_mem_union {a b : List Dev} {d : Dev} (ha : Short a) (hb : Short b) (h : d ∈ union a b) :
    d ∈ a ∨ d ∈ b := by
  unfold union at h
  rw [mem_sortUnique] at h
  rcases mem_of_mem_foldl_addDev hb h with h | h
  · rcases mem_of_mem_foldl_addDev ha h with h | h
    · cases h
    · exact Or.inl h
  · exact Or.inr h

theorem short_addDev {devs : List Dev} (h : Short devs) (dev : Dev) : Short (addDev devs dev) := by
  unfold addDev
  split_ifs
  · exact h
  · exact h
  · exact h
  · intro d hd
    rcases List.mem_append.mp hd with hd | hd
    · exact h d hd
    · rw [List.mem_singleton.mp hd]
      exact List.length_take_le 15 dev

theorem short_foldl_addDev (devs : List Dev) : ∀ {acc : List Dev}, Short acc → Short (devs.foldl addDev acc) := by
  induction devs with
  | nil => exact fun h => h
  | cons dev devs ih => exact fun h => ih (short_addDev h dev)

theorem short_nil : Short [] := by
  rintro d ⟨⟩

theorem short_sortUnique {devs : List Dev} (h : Short devs) : Short (sortUnique devs) :=
  fun d hd => h d (mem_sortUnique.mp hd)

theorem short_union (a b : List Dev) : Short (union a b) :=
  short_sortUnique (short_foldl_addDev b (short_foldl_addDev a short_nil))

theorem mem_foldl_addDev {d : Dev} {devs : List Dev} (hdevs : Short devs) (hne : ∀ dev ∈ devs, dev ≠ []) :
    ∀ {acc : List Dev}, acc.length + devs.length ≤ 64 → d ∈ acc ∨ d ∈ devs → d ∈ devs.foldl addDev acc := by
  induction devs with
  | nil => exact fun _ h => h.resolve_right List.not_mem_nil
  | cons dev devs ih =>
      intro acc hroom h
      obtain ⟨hdev, hshort⟩ := List.forall_mem_cons.mp hdevs
      obtain ⟨hdevNe, hrest⟩ := List.forall_mem_cons.mp hne
      rw [List.length_cons] at hroom
      have hadd : addDev acc dev = if acc.contains dev then acc else acc ++ [dev] := by
        unfold addDev
        rw [if_neg (by simpa using hdevNe), if_neg (show ¬acc.length ≥ 64 by omega), List.take_of_length_le hdev]
      have hlength : (addDev acc dev).length ≤ acc.length + 1 := by
        rw [hadd]
        split_ifs
        · omega
        · rw [List.length_append, List.length_singleton]
      have hkeeps : ∀ d, d ∈ acc ∨ d = dev → d ∈ addDev acc dev := by
        intro d hd
        rw [hadd]
        split_ifs with hin
        · rcases hd with hd | rfl
          · exact hd
          · exact List.contains_iff_mem.mp hin
        · rcases hd with hd | rfl
          · exact List.mem_append_left _ hd
          · exact List.mem_append_right _ List.mem_cons_self
      refine ih hshort hrest (by omega) ?_
      rcases h with h | h
      · exact Or.inl (hkeeps d (Or.inl h))
      · rcases List.mem_cons.mp h with rfl | h
        · exact Or.inl (hkeeps d (Or.inr rfl))
        · exact Or.inr h

/-- A difference of a set that is small enough. -/
theorem mem_diff {whole : List Dev} (hshort : Short whole) (hne : ∀ dev ∈ whole, dev ≠ []) (hlen : whole.length ≤ 64)
    {subtract : List Dev} {d : Dev} : d ∈ diff whole subtract ↔ d ∈ whole ∧ d ∉ subtract := by
  have hfilter : ∀ dev ∈ whole.filter fun dev => !subtract.contains dev, dev ∈ whole := fun dev h =>
    (List.mem_filter.mp h).1
  have hmem : d ∈ whole.filter (fun dev => !subtract.contains dev) ↔ d ∈ whole ∧ d ∉ subtract := by
    rw [List.mem_filter, Bool.not_eq_true', ← Bool.not_eq_true, List.contains_iff_mem]
  unfold diff
  rw [mem_sortUnique, ← hmem]
  constructor
  · intro h
    exact (mem_of_mem_foldl_addDev (fun dev h => hshort dev (hfilter dev h)) h).resolve_left List.not_mem_nil
  · intro h
    refine mem_foldl_addDev (fun dev h => hshort dev (hfilter dev h)) (fun dev h => hne dev (hfilter dev h)) ?_
      (Or.inr h)
    have := List.length_filter_le (fun dev => !subtract.contains dev) whole
    rw [List.length_nil]
    omega

/-! ## GPU rows -/

theorem mem_available {node : Node} {d : Dev} :
    d ∈ node.available ↔ ∃ i, i < node.nvidiaNdev ∧ i < 64 ∧ (toString i).toList = d := by
  unfold Node.available
  rw [List.mem_map]
  simp only [List.mem_range, Nat.lt_min, and_assoc]

theorem short_available (node : Node) : Short node.available := by
  have hsmall : ∀ i < 64, (toString i).toList.length ≤ 15 := by decide
  intro d hd
  obtain ⟨i, -, hi, rfl⟩ := mem_available.mp hd
  exact hsmall i hi

theorem available_ne_nil (node : Node) : ∀ d ∈ node.available, d ≠ [] := by
  intro d hd
  obtain ⟨i, -, -, rfl⟩ := mem_available.mp hd
  exact TokenText.toString_ne_nil i

theorem length_available (node : Node) : node.available.length ≤ 64 := by
  unfold Node.available
  rw [List.length_map, List.length_range]
  exact min_le_right _ _

theorem exists_of_mem_claimedGpus {node : Node} {jobs : List Job} {d : Dev} (h : d ∈ node.claimedGpus jobs) :
    ∃ job ∈ jobs, d ∈ node.gpusOf job := by
  have hgo : ∀ (jobs : List Job) (acc : List Dev), Short acc →
      d ∈ jobs.foldl (fun claimed job => union claimed (node.gpusOf job)) acc →
        d ∈ acc ∨ ∃ job ∈ jobs, d ∈ node.gpusOf job := by
    intro jobs
    induction jobs with
    | nil => exact fun acc _ h => Or.inl h
    | cons job jobs ih =>
        intro acc hacc h
        rcases ih _ (short_union _ _) h with h | ⟨j, hj, h⟩
        · rcases mem_of_mem_union hacc (short_union _ _) h with h | h
          · exact Or.inl h
          · exact Or.inr ⟨job, List.mem_cons_self, h⟩
        · exact Or.inr ⟨j, List.mem_cons_of_mem job hj, h⟩
  exact (hgo jobs [] short_nil h).resolve_left List.not_mem_nil

theorem gpuType_of_mem {node : Node} {g : String × Dev} (hg : g ∈ node.gpus) :
    g.1 ≠ "host_proc" ∧ (g.1 = "nvidia_gpu" ∨ g.1 = "amd_gpu" ∨ g.1 = "intel_gpu") := by
  rcases List.mem_append.mp hg with h | h
  · obtain ⟨i, -, rfl⟩ := List.mem_map.mp h
    have hne : "nvidia_gpu" ≠ "host_proc" := by decide
    exact ⟨hne, Or.inl rfl⟩
  · obtain ⟨⟨other, dev⟩, -, rfl⟩ := List.mem_map.mp h
    cases other with
    | amd => exact ⟨by simp only [OtherGpu.stName]; decide, Or.inr (Or.inl rfl)⟩
    | intel => exact ⟨by simp only [OtherGpu.stName]; decide, Or.inr (Or.inr rfl)⟩

theorem keeps_gpu {node : Node} {g : String × Dev} (hg : g ∈ node.gpus) (p : Payload) :
    p.keeps g.1 g.2 = true ↔ p.includeGpu = true ∧ g.2 ∈ p.gpus := by
  obtain ⟨hproc, hgpu⟩ := gpuType_of_mem hg
  unfold Payload.keeps
  rw [if_neg hproc, if_pos hgpu, Bool.and_eq_true, List.contains_iff_mem]

/-- The payloads of several jobs. -/
theorem exists_mem_burst {node : Node} {j₁ j₂ : Job} {jobs : List Job} {q : Payload → Prop} :
    (∃ p ∈ burst node (j₁ :: j₂ :: jobs), q p) ↔
      (∃ job ∈ j₁ :: j₂ :: jobs, q (node.jobPayload job)) ∨ q (node.restPayload (j₁ :: j₂ :: jobs)) := by
  have hburst : burst node (j₁ :: j₂ :: jobs) =
      (j₁ :: j₂ :: jobs).map node.jobPayload ++ [node.restPayload (j₁ :: j₂ :: jobs)] := rfl
  rw [hburst]
  constructor
  · rintro ⟨p, hp, h⟩
    rcases List.mem_append.mp hp with hp | hp
    · obtain ⟨job, hjob, rfl⟩ := List.mem_map.mp hp
      exact Or.inl ⟨job, hjob, h⟩
    · rw [List.mem_singleton.mp hp] at h
      exact Or.inr h
  · rintro (⟨job, hjob, h⟩ | h)
    · exact ⟨_, List.mem_append_left _ (List.mem_map_of_mem hjob), h⟩
    · exact ⟨_, List.mem_append_right _ List.mem_cons_self, h⟩

/-- A GPU has its rows when it is one of the available ones or a job's. -/
theorem gpu_covered_iff {node : Node} {j₁ j₂ : Job} {jobs : List Job} {g : String × Dev} (hg : g ∈ node.gpus) :
    (∃ p ∈ burst node (j₁ :: j₂ :: jobs), p.keeps g.1 g.2 = true) ↔
      g.2 ∈ node.available ∨ ∃ job ∈ j₁ :: j₂ :: jobs, g.2 ∈ node.gpusOf job := by
  rw [exists_mem_burst]
  simp only [keeps_gpu hg]
  constructor
  · rintro (⟨job, hjob, -, h⟩ | ⟨-, h⟩)
    · exact Or.inr ⟨job, hjob, h⟩
    · exact Or.inl ((mem_diff (short_available node) (available_ne_nil node) (length_available node)).mp h).1
  · intro h
    by_cases hjob : ∃ job ∈ j₁ :: j₂ :: jobs, g.2 ∈ node.gpusOf job
    · obtain ⟨job, hjob, hmem⟩ := hjob
      exact Or.inl ⟨job, hjob, rfl, hmem⟩
    · -- no job has it, so no job claims it
      refine Or.inr ⟨rfl, ?_⟩
      refine (mem_diff (short_available node) (available_ne_nil node) (length_available node)).mpr
        ⟨h.resolve_right hjob, fun hclaimed => hjob (exists_of_mem_claimedGpus hclaimed)⟩

/-! ## Process rows -/

theorem keeps_proc (p : Payload) (dev : Dev) :
    p.keeps "host_proc" dev = true ↔ p.includeProc = true ∧
      ∃ job, p.entry = some job ∧ ∃ pid ∈ job.pids, procDevPid dev = some (pid : ℤ) := by
  unfold Payload.keeps
  rw [if_pos rfl]
  split
  · rename_i entry pid hproc hentry hpid
    rw [List.any_eq_true, hentry]
    constructor
    · rintro ⟨own, hown, heq⟩
      rw [decide_eq_true_eq] at heq
      exact ⟨hproc, entry, rfl, own, hown, by rw [hpid, heq]⟩
    · rintro ⟨-, job, hjob, own, hown, heq⟩
      obtain rfl := Option.some.inj hjob
      rw [hpid, Option.some.injEq] at heq
      exact ⟨own, hown, decide_eq_true heq.symm⟩
  · rename_i hno
    refine iff_of_false Bool.false_ne_true ?_
    rintro ⟨hproc, job, hjob, pid, -, hpid⟩
    exact hno job pid hproc hjob hpid

/-- The row of a process whose name has no `/` names its pid. -/
theorem procDevPid_of_name {process : Process} (hname : '/' ∉ process.name) (hlen : process.name.length ≤ 15)
    (hpid : process.pid < 2 ^ 31) : procDevPid process.dev = some (process.pid : ℤ) := by
  have hdigits : (toString process.pid).toList.length ≤ 10 := by
    rw [Nat.toString_eq_ofList_toDigits, String.toList_ofList]
    exact (Nat.length_toDigits_le_iff (by decide) (by decide)).mpr (by omega)
  obtain ⟨rest, hdev⟩ : ∃ rest, process.dev =
      process.name ++ '/' :: ((toString process.pid).toList ++ '/' :: rest) := by
    refine ⟨(process.cmask ++ '/' :: process.mmask).take
      (511 - (process.name ++ '/' :: ((toString process.pid).toList ++ ['/'])).length), ?_⟩
    have hsplit : process.name ++ '/' :: (toString process.pid).toList ++ '/' :: process.cmask ++ '/' :: process.mmask =
        (process.name ++ '/' :: ((toString process.pid).toList ++ ['/'])) ++ (process.cmask ++ '/' :: process.mmask) := by
      simp only [List.append_assoc, List.cons_append, List.nil_append]
    unfold Process.dev
    rw [hsplit, List.take_append, List.take_of_length_le]
    · simp only [List.append_assoc, List.cons_append, List.nil_append]
    · rw [List.length_append, List.length_cons, List.length_append, List.length_singleton]
      omega
  have hdrop : process.dev.dropWhile (· != '/') = '/' :: ((toString process.pid).toList ++ '/' :: rest) := by
    rw [hdev, List.dropWhile_append_of_pos]
    · exact List.dropWhile_cons_of_neg (by decide)
    · intro c hc
      rw [bne_iff_ne]
      rintro rfl
      exact hname hc
  have hread : strtol ((toString process.pid).toList ++ '/' :: rest) = some ⟨process.pid, false, '/' :: rest⟩ := by
    refine strtol_toString (by omega) ?_
    rintro c ⟨⟩
    decide
  have hint : toInt (process.pid : ℤ) = process.pid := by
    unfold toInt
    rw [Int.bmod_eq_of_le (by omega) (by omega)]
  unfold procDevPid
  rw [hdrop]
  simp only [hread, if_true, hint]

/-! ## CPU rows -/

theorem keeps_cpu {p : Payload} {cpulist : List Char} (hp : p.cpulist = some cpulist) {stName : String}
    (hst : stName ∈ ["host_cpu", "host_cpu_hw"]) (dev : Dev) : p.keeps stName dev = cpuDevInList cpulist dev := by
  unfold Payload.keeps
  simp only [List.mem_cons, List.not_mem_nil, or_false] at hst
  rcases hst with rfl | rfl
  · rw [if_neg (by decide), if_neg (by decide), if_pos (by decide), hp]
  · rw [if_neg (by decide), if_neg (by decide), if_pos (by decide), hp]

theorem held_runs_of_le {set : ℕ → Bool} {ncpus : ℕ} (h : ncpus ≤ 2 ^ 31) : ∀ r ∈ runs set ncpus, Held r :=
  held_runs fun cpu hcpu _ => by omega

/-- The text of ranges. -/
def IsList (list : List Char) : Prop :=
  ∃ rs, list = listText rs ∧ ∀ r ∈ rs, Held r

theorem isList_nil : IsList [] :=
  ⟨[], rfl, by rintro r ⟨⟩⟩

theorem isList_unionCpulist (node : Node) (pids : List ℕ) : IsList (node.unionCpulist pids) := by
  unfold Node.unionCpulist
  by_cases hpids : pids.isEmpty = true
  · rw [if_pos hpids]
    exact isList_nil
  rw [if_neg hpids]
  cases node.readOnline with
  | none => exact isList_nil
  | some online =>
      simp only
      split
      · rename_i set _
        obtain ⟨pre, post, hsplit, htext, -, -⟩ := formatCpulist_spec set node.ncpus (show 0 < 512 by omega)
        refine ⟨pre, htext, fun r hr => ?_⟩
        have hncpus : node.ncpus ≤ 2 ^ 31 := by
          have := node.conf_lt
          unfold Node.ncpus
          omega
        have hmem : r ∈ runs set node.ncpus := by
          rw [hsplit]
          exact List.mem_append_left _ hr
        exact held_runs_of_le hncpus r hmem
      · exact isList_nil

theorem readOnlineLine_eq {node : Node} (h : node.onlineReadable = true) :
    node.readOnlineLine = some (onlineLine node.online node.possible) := by
  unfold Node.readOnlineLine
  rw [if_pos h, List.take_of_length_le (by have := node.line_fits; omega)]

theorem readOnlineLine_unreadable {node : Node} (h : node.onlineReadable = false) : node.readOnlineLine = none := by
  unfold Node.readOnlineLine
  rw [if_neg (by simp [h])]

theorem unionCpulist_unreadable {node : Node} (h : node.onlineReadable = false) (pids : List ℕ) :
    node.unionCpulist pids = [] := by
  have hread : node.readOnline = none := by
    unfold Node.readOnline
    rw [readOnlineLine_unreadable h]
    rfl
  unfold Node.unionCpulist
  rw [hread]
  split_ifs
  · rfl
  · rfl
  · rfl

theorem cpuDevInList_nil (dev : Dev) : cpuDevInList [] dev = false := by
  unfold cpuDevInList
  rfl

/-- The set that a list of a job is parsed into. -/
theorem parse_isList {list : List Char} (hlist : IsList list) {lists : List (List Char)} (hmem : list ∈ lists) :
    ∃ set, parseCpulistInto list (subtractNcpus lists) = some set ∧
      ∀ cpu < 2 ^ 63, set cpu = cpuDevInList list (toString cpu).toList := by
  obtain ⟨rs, rfl, hrs⟩ := hlist
  have hmem' : listText rs ++ [] ∈ lists := by
    rw [List.append_nil]
    exact hmem
  obtain ⟨set, hset, hiff⟩ := parseCpulistInto_listText (Or.inl rfl) hrs (lt_subtractNcpus (Or.inl rfl) hrs hmem')
  rw [List.append_nil] at hset
  refine ⟨set, hset, fun cpu hcpu => ?_⟩
  rw [Bool.eq_iff_iff, hiff, cpuDevInList_listText hrs hcpu]

/-- The lists of the jobs take the CPUs off that they list. -/
theorem claims_eq_listed (node : Node) (jobs : List Job) {cpu : ℕ} (hcpu : cpu < 2 ^ 63) :
    (((node.cpuLists jobs).filterMap fun list =>
      if list.isEmpty then none else parseCpulistInto list (node.restNcpus jobs)).any fun set => set cpu) =
      node.listed jobs cpu := by
  have hparse : ∀ list ∈ node.cpuLists jobs, ∃ set, parseCpulistInto list (node.restNcpus jobs) = some set ∧
      set cpu = cpuDevInList list (toString cpu).toList := by
    intro list hlist
    obtain ⟨job, -, heq⟩ := List.mem_map.mp (List.mem_filter.mp hlist).1
    obtain ⟨set, hset, hiff⟩ := parse_isList (heq ▸ isList_unionCpulist node job.pids)
      (List.mem_cons_of_mem (onlineLine node.online node.possible) hlist)
    exact ⟨set, hset, hiff cpu hcpu⟩
  rw [Bool.eq_iff_iff, List.any_eq_true, Node.listed, List.any_eq_true]
  constructor
  · rintro ⟨set, hset, hin⟩
    obtain ⟨list, hlist, hparsed⟩ := List.mem_filterMap.mp hset
    obtain ⟨set', hset', heq⟩ := hparse list hlist
    split_ifs at hparsed
    rw [hset', Option.some.injEq] at hparsed
    subst hparsed
    obtain ⟨job, hjob, rfl⟩ := List.mem_map.mp (List.mem_filter.mp hlist).1
    exact ⟨job, hjob, heq ▸ hin⟩
  · rintro ⟨job, hjob, hin⟩
    have hne : (node.unionCpulist job.pids).isEmpty = false := by
      rw [List.isEmpty_eq_false_iff]
      intro hnil
      rw [hnil, cpuDevInList_nil] at hin
      cases hin
    have hlist : node.unionCpulist job.pids ∈ node.cpuLists jobs :=
      List.mem_filter.mpr ⟨List.mem_map_of_mem hjob, by rw [hne]; rfl⟩
    obtain ⟨set, hset, heq⟩ := hparse _ hlist
    refine ⟨set, List.mem_filterMap.mpr ⟨_, hlist, ?_⟩, heq ▸ hin⟩
    rw [if_neg (by simp [hne]), hset]

/-- The list of the rest. -/
theorem remainderCpulist_eq {node : Node} (h : node.onlineReadable = true) (jobs : List Job) :
    node.remainderCpulist (node.cpuLists jobs) =
      (formatCpulist (node.unlisted jobs) (node.restNcpus jobs) 512).1 := by
  have honlineHeld : ∀ r ∈ runs node.online node.possible, Held r := held_runs_of_le node.possible_le
  have hfits : ∀ r ∈ runs node.online node.possible, r.2 < node.restNcpus jobs :=
    lt_subtractNcpus (Or.inr rfl) honlineHeld List.mem_cons_self
  obtain ⟨online, honline, honlineIff⟩ := parseCpulistInto_listText (Or.inr rfl) honlineHeld hfits
  have honlineSet : ∀ cpu, online cpu = (decide (cpu < node.possible) && node.online cpu) := by
    intro cpu
    rw [Bool.eq_iff_iff, honlineIff, covers_runs, Bool.and_eq_true, decide_eq_true_eq]
  have hrest : (fun cpu => online cpu && !(((node.cpuLists jobs).filterMap fun list =>
      if list.isEmpty then none else parseCpulistInto list (node.restNcpus jobs)).any fun set => set cpu)) =
      node.unlisted jobs := by
    funext cpu
    rw [honlineSet]
    unfold Node.unlisted
    by_cases hcpu : cpu < node.possible
    · have hpossible := node.possible_le
      rw [claims_eq_listed node jobs (by omega)]
    · rw [decide_eq_false hcpu]
      rfl
  unfold Node.remainderCpulist
  rw [readOnlineLine_eq h]
  simp only
  unfold cpulistSubtract
  have hline : (onlineLine node.online node.possible).isEmpty = false := by
    rw [List.isEmpty_eq_false_iff]
    exact List.append_ne_nil_of_right_ne_nil _ (List.cons_ne_nil _ _)
  rw [hline, if_neg (by decide)]
  have hread : parseCpulistInto (onlineLine node.online node.possible) (node.restNcpus jobs) = some online := honline
  unfold Node.restNcpus at hread
  simp only [hread]
  exact congrArg (fun set => (formatCpulist set (node.restNcpus jobs) 512).1) hrest

/-- A CPU that has its rows. -/
theorem cpu_covered_iff {node : Node} {j₁ j₂ : Job} {jobs : List Job} {stName : String}
    (hst : stName ∈ ["host_cpu", "host_cpu_hw"]) (cpu : ℕ) :
    (∃ p ∈ burst node (j₁ :: j₂ :: jobs), p.keeps stName (toString cpu).toList = true) ↔
      node.listed (j₁ :: j₂ :: jobs) cpu = true ∨
        cpuDevInList (node.remainderCpulist (node.cpuLists (j₁ :: j₂ :: jobs))) (toString cpu).toList = true := by
  rw [exists_mem_burst, Node.listed, List.any_eq_true, keeps_cpu rfl hst]
  have hjob : ∀ job : Job, (node.jobPayload job).keeps stName (toString cpu).toList =
      cpuDevInList (node.unionCpulist job.pids) (toString cpu).toList := fun job => keeps_cpu rfl hst _
  simp only [hjob]

theorem unlisted_iff {node : Node} {jobs : List Job} {cpu : ℕ} :
    node.unlisted jobs cpu = true ↔ cpu < node.possible ∧ node.online cpu = true ∧ node.listed jobs cpu = false := by
  unfold Node.unlisted
  rw [Bool.and_eq_true, Bool.and_eq_true, decide_eq_true_eq, Bool.not_eq_true', and_assoc]

/-- Without the file of the online CPUs every list is empty. -/
theorem listed_unreadable {node : Node} (h : node.onlineReadable = false) (jobs : List Job) (cpu : ℕ) :
    node.listed jobs cpu = false := by
  rw [Node.listed, List.any_eq_false]
  intro job _
  rw [unionCpulist_unreadable h, cpuDevInList_nil]
  exact Bool.false_ne_true

theorem remainderCpulist_unreadable {node : Node} (h : node.onlineReadable = false) (jobs : List Job) :
    node.remainderCpulist (node.cpuLists jobs) = [] := by
  unfold Node.remainderCpulist
  rw [readOnlineLine_unreadable h]

/-- The runs of the rest are below the bound of the online CPUs. -/
theorem held_runs_unlisted (node : Node) (jobs : List Job) :
    ∀ r ∈ runs (node.unlisted jobs) (node.restNcpus jobs), Held r := by
  have hpossible := node.possible_le
  refine held_runs fun cpu _ hcpu => ?_
  have hlt := (unlisted_iff.mp hcpu).1
  omega

/-- The sets are large enough for every online CPU. -/
theorem lt_restNcpus {node : Node} (jobs : List Job) {cpu : ℕ} (hcpu : cpu < node.possible)
    (hon : node.online cpu = true) : cpu < node.restNcpus jobs := by
  have hset : node.restNcpus jobs = subtractNcpus (onlineLine node.online node.possible :: node.cpuLists jobs) := rfl
  obtain ⟨r, hr, -, hle⟩ := (covers_runs node.online node.possible cpu).mpr ⟨hcpu, hon⟩
  have hlt : r.2 < node.restNcpus jobs :=
    lt_subtractNcpus (Or.inr rfl) (held_runs_of_le node.possible_le) List.mem_cons_self r hr
  omega

/-- **The rest is listed in full** when its text fits. -/
theorem remainder_full_iff {node : Node} (h : node.onlineReadable = true) (jobs : List Job) :
    (∀ cpu, node.unlisted jobs cpu = true →
      cpuDevInList (node.remainderCpulist (node.cpuLists jobs)) (toString cpu).toList = true) ↔
      (listText (runs (node.unlisted jobs) (node.restNcpus jobs))).length < 512 := by
  have hpossible := node.possible_le
  obtain ⟨pre, post, hsplit, htext, -, hfits⟩ :=
    formatCpulist_spec (node.unlisted jobs) (node.restNcpus jobs) (show 0 < 512 by omega)
  have hrest := remainderCpulist_eq h jobs
  rw [htext] at hrest
  have hpreHeld : ∀ r ∈ pre, Held r := fun r hr =>
    held_runs_unlisted node jobs r (by rw [hsplit]; exact List.mem_append_left _ hr)
  constructor
  · intro hall
    refine hfits.mp ?_
    by_contra hpost
    obtain ⟨r, rs, rfl⟩ := List.exists_cons_of_ne_nil hpost
    have hbounds := runsFrom_bounds (node.unlisted jobs) (node.restNcpus jobs) (node.restNcpus jobs) 0
    -- the first CPU that is dropped
    have hr : r ∈ runs (node.unlisted jobs) (node.restNcpus jobs) := by
      rw [hsplit]
      exact List.mem_append_right _ List.mem_cons_self
    have hle := (hbounds.1 r hr).2.1
    have hin := ((covers_runs _ _ r.1).mp ⟨r, hr, le_rfl, hle⟩).2
    have hcpu := (unlisted_iff.mp hin).1
    have hkept := hall r.1 hin
    rw [hrest, cpuDevInList_listText hpreHeld (by omega)] at hkept
    obtain ⟨r', hr', -, hr'le⟩ := hkept
    have hpair : (pre ++ r :: rs).Pairwise fun r r' => r.2 < r'.1 := by
      rw [← hsplit]
      exact hbounds.2
    have hlt := (List.pairwise_append.mp hpair).2.2 r' hr' r List.mem_cons_self
    omega
  · intro hlen cpu hcpu
    obtain ⟨hbelow, hon, -⟩ := unlisted_iff.mp hcpu
    rw [hfits.mpr hlen, List.append_nil] at hsplit
    rw [hrest, cpuDevInList_listText hpreHeld (by omega), ← hsplit, covers_runs]
    exact ⟨lt_restNcpus jobs hbelow hon, hcpu⟩

/-- All online CPUs have their rows when the file can be read and the rest fits, or when there are none. -/
theorem cpus_covered_iff {node : Node} {j₁ j₂ : Job} {jobs : List Job} :
    (∀ cpu, cpu < node.possible → node.online cpu = true → ∀ stName ∈ ["host_cpu", "host_cpu_hw"],
      ∃ p ∈ burst node (j₁ :: j₂ :: jobs), p.keeps stName (toString cpu).toList = true) ↔
      (node.onlineReadable = true ∧ (listText (runs (node.unlisted (j₁ :: j₂ :: jobs))
        (node.restNcpus (j₁ :: j₂ :: jobs)))).length < 512) ∨ ∀ cpu < node.possible, node.online cpu = false := by
  constructor
  · intro h
    cases hread : node.onlineReadable with
    | false =>
        refine Or.inr fun cpu hcpu => ?_
        by_contra hon
        have hkept := (cpu_covered_iff List.mem_cons_self cpu).mp
          (h cpu hcpu (by simpa using hon) "host_cpu" List.mem_cons_self)
        rw [listed_unreadable hread, remainderCpulist_unreadable hread, cpuDevInList_nil] at hkept
        exact hkept.elim Bool.false_ne_true Bool.false_ne_true
    | true =>
        refine Or.inl ⟨rfl, (remainder_full_iff hread _).mp fun cpu hcpu => ?_⟩
        obtain ⟨hbelow, hon, hlisted⟩ := unlisted_iff.mp hcpu
        have hkept := (cpu_covered_iff List.mem_cons_self cpu).mp (h cpu hbelow hon "host_cpu" List.mem_cons_self)
        rw [hlisted] at hkept
        exact hkept.resolve_left Bool.false_ne_true
  · rintro (⟨hread, hlen⟩ | hnone)
    · intro cpu hcpu hon stName hst
      rw [cpu_covered_iff hst]
      by_cases hlisted : node.listed (j₁ :: j₂ :: jobs) cpu = true
      · exact Or.inl hlisted
      · refine Or.inr ((remainder_full_iff hread _).mpr hlen cpu (unlisted_iff.mpr ⟨hcpu, hon, ?_⟩))
        simpa using hlisted
    · intro cpu hcpu hon
      rw [hnone cpu hcpu] at hon
      cases hon

/-- **When a burst has what it should have.** -/
theorem burst_covers_iff (node : Node) (j₁ j₂ : Job) (jobs : List Job) :
    Covers node (burst node (j₁ :: j₂ :: jobs)) ↔ BurstOk node (j₁ :: j₂ :: jobs) := by
  have hprocs : (∀ p ∈ burst node (j₁ :: j₂ :: jobs), ∀ process ∈ node.processes,
      p.keeps "host_proc" process.dev = true → ∃ job, p.entry = some job ∧ process.pid ∈ job.pids) ↔
      ∀ process ∈ node.processes, ∀ job ∈ j₁ :: j₂ :: jobs, ∀ pid ∈ job.pids,
        procDevPid process.dev = some (pid : ℤ) → process.pid ∈ job.pids := by
    constructor
    · intro h process hprocess job hjob pid hpid hdev
      have hmem : node.jobPayload job ∈ burst node (j₁ :: j₂ :: jobs) :=
        List.mem_append_left _ (List.mem_map_of_mem hjob)
      obtain ⟨job', hentry, hown⟩ := h _ hmem process hprocess
        ((keeps_proc _ _).mpr ⟨rfl, job, rfl, pid, hpid, hdev⟩)
      exact (Option.some.inj hentry : job = job') ▸ hown
    · intro h p hp process hprocess hkeeps
      obtain ⟨hproc, job, hentry, pid, hpid, hdev⟩ := (keeps_proc _ _).mp hkeeps
      refine ⟨job, hentry, ?_⟩
      rcases List.mem_append.mp (show p ∈ (j₁ :: j₂ :: jobs).map node.jobPayload ++
        [node.restPayload (j₁ :: j₂ :: jobs)] from hp) with hp | hp
      · obtain ⟨job', hjob', rfl⟩ := List.mem_map.mp hp
        obtain rfl : job' = job := Option.some.inj hentry
        exact h process hprocess job' hjob' pid hpid hdev
      · rw [List.mem_singleton.mp hp] at hproc
        cases hproc
  constructor
  · intro h
    exact ⟨cpus_covered_iff.mp h.cpus, hprocs.mp h.procs, fun g hg => (gpu_covered_iff hg).mp (h.gpus g hg)⟩
  · intro h
    exact ⟨cpus_covered_iff.mpr h.cpus, hprocs.mpr h.procs, fun g hg => (gpu_covered_iff hg).mpr (h.gpus g hg)⟩

/-- A node of 300 CPUs of which every second one is online, and two jobs on a CPU each. -/
def smtOff : Node where
  possible := 300
  online := fun cpu => cpu % 2 == 0
  conf := 300
  onlineReadable := true
  affinity := fun pid => .cpus fun cpu => if pid = 100 then cpu == 0 else cpu == 2
  sampleLimit := 8
  autodetect := .off
  fdTargets := fun _ => []
  nvidiaNdev := 0
  otherGpus := []
  processes := []
  possible_le := by decide
  conf_lt := by decide
  line_fits := by decide +kernel

theorem covers_singleton {n cpu : ℕ} : CpuList.Covers [(n, n)] cpu ↔ cpu = n := by
  unfold CpuList.Covers
  simp only [List.mem_singleton, exists_eq_left]
  omega

theorem held_singleton {n : ℕ} (hn : n < 2 ^ 63) : ∀ r ∈ [(n, n)], Held r := by
  intro r hr
  rw [List.mem_singleton.mp hr]
  exact ⟨le_rfl, hn⟩

/-- The list of the other CPUs takes 540 bytes: the last ones are in no payload. -/
theorem not_covers_smtOff : ¬Covers smtOff (burst smtOff [⟨"11", [100], []⟩, ⟨"12", [200], []⟩]) := by
  intro h
  have heval : smtOff.unionCpulist [100] = listText [(0, 0)] ∧ smtOff.unionCpulist [200] = listText [(2, 2)] ∧
      smtOff.restNcpus [⟨"11", [100], []⟩, ⟨"12", [200], []⟩] = 1024 := by decide +kernel
  obtain ⟨hfirst, hsecond, hncpus⟩ := heval
  have hrest : smtOff.unlisted [⟨"11", [100], []⟩, ⟨"12", [200], []⟩] =
      fun cpu => decide (cpu < 300) && (cpu % 2 == 0 && decide (2 < cpu)) := by
    funext cpu
    by_cases hcpu : cpu < 300
    · have hlisted : smtOff.listed [⟨"11", [100], []⟩, ⟨"12", [200], []⟩] cpu = true ↔ cpu = 0 ∨ cpu = 2 := by
        unfold Node.listed
        simp only [List.any_cons, List.any_nil, Bool.or_false, Bool.or_eq_true, hfirst, hsecond]
        rw [cpuDevInList_listText (held_singleton (by omega)) (by omega),
          cpuDevInList_listText (held_singleton (by omega)) (by omega), covers_singleton, covers_singleton]
      have hpossible : smtOff.possible = 300 := rfl
      have honline : smtOff.online cpu = (cpu % 2 == 0) := rfl
      unfold Node.unlisted
      rw [hpossible, honline, Bool.and_assoc]
      refine congrArg _ ?_
      rw [Bool.eq_iff_iff, Bool.and_eq_true, Bool.and_eq_true, Bool.not_eq_true', ← Bool.not_eq_true, hlisted,
        decide_eq_true_eq, beq_iff_eq]
      omega
    · unfold Node.unlisted
      rw [decide_eq_false (p := cpu < smtOff.possible) hcpu, decide_eq_false hcpu, Bool.false_and, Bool.false_and,
        Bool.false_and]
  rcases cpus_covered_iff.mp h.cpus with ⟨-, hlen⟩ | hnone
  · rw [hncpus, hrest] at hlen
    revert hlen
    decide +kernel
  · exact absurd (hnone 0 (by decide)) (by decide)

end SharedBurst
