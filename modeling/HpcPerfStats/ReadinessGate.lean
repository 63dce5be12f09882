/-
# Which closed stats files may be archived (`sync_timedb_ingest_readiness.py`)

A closed stats file may be archived or removed when the database has the seconds of its first and of its last
sample, or when a mark says so.  The gate asks this about one path (`stats_file_head_ingested_in_db`), or
about many paths at once (`build_head_ingest_ready_set`): there the seconds of all paths of a host are merged,
and one query reads the seconds of the host in the window that they span (`sync_timedb_host_itimes.py`).

* `World` is what both read: the configuration, the stats files, the marks and the table `host_data`;
* `hostSecondsAllPresent_iff` says that the lookup by windows, with its cap and its fallback, finds exactly the
  seconds that are in the table;
* `Agreement` is the condition under which the two gates split alike: no stamp makes a read raise, and whenever
  both seconds of an unmarked path are in the table, so are those of every other closed path at its hosts.

The main result is `filter_paths_eq_iff`.  The caches are left out: they start empty, and the table does not
change during a call, so that an entry is what the query would yield again.  A stamp is a natural number of
seconds (the line begins with a digit), a time of the table any number of microseconds.
-/
import Mathlib.Data.List.Basic
import Mathlib.Tactic.Linarith
import HpcPerfStats.CompleteMarks
import HpcPerfStats.PyDict

namespace ReadinessGate

open CompleteMarks (Key)

/-! ## What the gates read -/

/-- The exception that reading a stamp such as `12x` raises. -/
inductive ReadError where
  | badStamp
  deriving DecidableEq, Repr

/-- A host name, stripped, and the Unix second of a stamp. -/
abbrev Identity := String × ℕ

/-- What the gates see of a stats file: its `os.stat`, and what `read_stats_file_head_identity` and
`read_stats_file_tail_identity` make of it. -/
structure StatsFile where
  mtime : ℤ
  size : ℕ
  head : Except ReadError (Option Identity)
  tail : Except ReadError (Option Identity)

structure World where
  /-- `sync_archive_require_db_ingest` -/
  gateEnabled : Bool
  /-- `listend_db_ingest_enabled` -/
  liveOn : Bool
  file : String → Option StatsFile
  /-- `stats_file_is_active_segment` -/
  active : String → Bool
  fileCompleteMarks : List Key
  zeroHostMarks : List Key
  /-- host and time (in microseconds) of the rows of `host_data` -/
  hostData : List (String × ℤ)
  /-- `sync_host_itimes_cache_max_timestamps_per_entry` -/
  maxTimestamps : ℕ
  /-- the query for the window of a host runs into a statement timeout -/
  queryBounded : String → ℕ → ℕ → Bool

namespace World

variable (w : World)

/-- `path_fingerprint_key`. -/
def fingerprint (path : String) : Option Key :=
  (w.file path).map fun f => ⟨path, f.mtime, f.size⟩

/-- `has_file_complete_ingest_mark(path) or has_zero_host_ingest_mark(path)`. -/
def marked (path : String) : Bool :=
  match w.fingerprint path with
  | none => false
  | some key => w.fileCompleteMarks.contains key || w.zeroHostMarks.contains key

/-- `host_data` has a row of the host in that second: `head_timestamp_present_in_db` and each answer of
`host_timestamp_seconds_present_batch`. -/
def present (e : Identity) : Bool :=
  w.hostData.any fun r => decide (r.1 = e.1 ∧ (e.2 : ℤ) * 1000000 ≤ r.2 ∧ r.2 < (e.2 + 1) * 1000000)

end World

/-! ## The seconds of a host in a window -/

/-- `set.add`. -/
def insert {α : Type*} [DecidableEq α] (x : α) (s : List α) : List α :=
  if x ∈ s then s else s ++ [x]

@[simp] theorem mem_insert {α : Type*} [DecidableEq α] {x y : α} {s : List α} :
    y ∈ insert x s ↔ y ∈ s ∨ y = x := by
  unfold insert
  split_ifs with hx
  · constructor
    · exact Or.inl
    · rintro (hy | rfl)
      · exact hy
      · exact hx
  · rw [List.mem_append, List.mem_singleton]

/-- The sub-windows of 24 hours from `cur` on, `fuel` of them at most. -/
def chunksFrom : ℕ → ℕ → ℕ → List (ℕ × ℕ)
  | 0, _, _ => []
  | fuel + 1, cur, high =>
      if cur < high then (cur, min (cur + 86400) high) :: chunksFrom fuel (min (cur + 86400) high) high
      else []

/-- `_iter_host_itimes_chunk_bounds`, in seconds. -/
def iterHostItimesChunkBounds (low high : ℕ) : List (ℕ × ℕ) :=
  if high - low ≤ 86400 then [(low, high)] else chunksFrom (high - low) low high

/-- `int(dt.timestamp())`. -/
def unixSecond (t : ℤ) : ℤ :=
  t.tdiv 1000000

namespace World

variable (w : World)

/-- The times of a host in a window. -/
def times (host : String) (low high : ℕ) : List ℤ :=
  (w.hostData.filter fun r =>
    decide (r.1 = host ∧ (low : ℤ) * 1000000 ≤ r.2 ∧ r.2 < (high : ℤ) * 1000000)).map Prod.snd

/-- Add the second of a time to the set; nothing when the set gets larger than the cap. -/
def addTime (s : List ℤ) (t : ℤ) : Option (List ℤ) :=
  if w.maxTimestamps < (insert (unixSecond t) s).length then none else some (insert (unixSecond t) s)

/-- `_collect_distinct_unix_seconds`; nothing stands for the overflow. -/
def collectDistinctUnixSeconds (host : String) (low high : ℕ) (s : List ℤ) : Option (List ℤ) :=
  (w.times host low high).foldlM w.addTime s

/-- `host_recent_timestamps_cached`: the distinct seconds of the host, window by window.  A statement timeout
counts as an overflow. -/
def hostRecentTimestamps (host : String) (low high : ℕ) : Option (List ℤ) :=
  (iterHostItimesChunkBounds low high).foldlM (fun s c =>
    if w.queryBounded host c.1 c.2 then none else w.collectDistinctUnixSeconds host c.1 c.2 s) []

/-- `host_sampled_timestamp_seconds_all_present`. -/
def hostSecondsAllPresent (host : String) (seconds : List ℕ) : Bool :=
  match seconds.min?, seconds.max? with
  | some low, some high =>
      match w.hostRecentTimestamps host low (high + 1) with
      | none => seconds.all fun sec => w.present (host, sec)
      | some itimes => seconds.all fun sec => decide ((sec : ℤ) ∈ itimes)
  | _, _ => false

end World

/-! ## The seconds that the lookup finds -/

/-- The sub-windows cover the window. -/
theorem mem_chunksFrom {x high : ℤ} : ∀ {fuel cur end_ : ℕ}, end_ - cur ≤ fuel → (end_ : ℤ) = high →
    ((∃ c ∈ chunksFrom fuel cur end_, (c.1 : ℤ) * 1000000 ≤ x ∧ x < (c.2 : ℤ) * 1000000) ↔
      (cur : ℤ) * 1000000 ≤ x ∧ x < high * 1000000) := by
  intro fuel
  induction fuel with
  | zero =>
      intro cur end_ hfuel hhigh
      constructor
      · rintro ⟨c, hc, -⟩
        cases hc
      · rintro ⟨hlow, hx⟩
        exfalso
        omega
  | succ fuel ih =>
      intro cur end_ hfuel hhigh
      rw [chunksFrom]
      split_ifs with hlt
      · rw [List.exists_mem_cons_iff, ih (by omega) hhigh]
        dsimp only
        constructor
        · rintro (⟨hlow, hx⟩ | ⟨hlow, hx⟩)
          · constructor
            · exact hlow
            · omega
          · constructor
            · omega
            · exact hx
        · rintro ⟨hlow, hx⟩
          omega
      · constructor
        · rintro ⟨c, hc, -⟩
          cases hc
        · rintro ⟨hlow, hx⟩
          exfalso
          omega

theorem mem_iterHostItimesChunkBounds {low high : ℕ} {x : ℤ} :
    (∃ c ∈ iterHostItimesChunkBounds low high, (c.1 : ℤ) * 1000000 ≤ x ∧ x < (c.2 : ℤ) * 1000000) ↔
      (low : ℤ) * 1000000 ≤ x ∧ x < (high : ℤ) * 1000000 := by
  unfold iterHostItimesChunkBounds
  split_ifs
  · rw [List.exists_mem_cons_iff]
    constructor
    · rintro (h | ⟨c, hc, -⟩)
      · exact h
      · cases hc
    · exact Or.inl
  · exact mem_chunksFrom le_rfl rfl

namespace World

variable {w : World}

theorem mem_times {host : String} {low high : ℕ} {t : ℤ} :
    t ∈ w.times host low high ↔
      (host, t) ∈ w.hostData ∧ (low : ℤ) * 1000000 ≤ t ∧ t < (high : ℤ) * 1000000 := by
  unfold times
  rw [List.mem_map]
  constructor
  · rintro ⟨⟨h, u⟩, hmem, rfl⟩
    rw [List.mem_filter, decide_eq_true_eq] at hmem
    obtain ⟨hmem, rfl, hwindow⟩ := hmem
    exact ⟨hmem, hwindow⟩
  · rintro ⟨hmem, hwindow⟩
    refine ⟨(host, t), ?_, rfl⟩
    rw [List.mem_filter, decide_eq_true_eq]
    exact ⟨hmem, rfl, hwindow⟩

/-- Without an overflow, the seconds of the times have been added. -/
theorem mem_foldlM_addTime {x : ℤ} (ts : List ℤ) : ∀ {s s' : List ℤ}, ts.foldlM w.addTime s = some s' →
    (x ∈ s' ↔ x ∈ s ∨ ∃ t ∈ ts, unixSecond t = x) := by
  induction ts with
  | nil =>
      intro s s' h
      obtain rfl : s = s' := Option.some.inj h
      simp
  | cons t ts ih =>
      intro s s' h
      rw [List.foldlM_cons, Option.bind_eq_bind, Option.bind_eq_some_iff] at h
      obtain ⟨u, hu, hrest⟩ := h
      unfold addTime at hu
      split_ifs at hu
      obtain rfl := Option.some.inj hu
      rw [ih hrest, mem_insert, List.exists_mem_cons_iff, or_assoc, eq_comm]

/-- Without an overflow or a timeout, the seconds of the host in all windows have been added. -/
theorem mem_foldlM_chunks {host : String} {x : ℤ} (cs : List (ℕ × ℕ)) : ∀ {s s' : List ℤ},
    cs.foldlM (fun s c => if w.queryBounded host c.1 c.2 then none
      else w.collectDistinctUnixSeconds host c.1 c.2 s) s = some s' →
    (x ∈ s' ↔ x ∈ s ∨ ∃ t, (host, t) ∈ w.hostData ∧ unixSecond t = x ∧
      ∃ c ∈ cs, (c.1 : ℤ) * 1000000 ≤ t ∧ t < (c.2 : ℤ) * 1000000) := by
  induction cs with
  | nil =>
      intro s s' h
      obtain rfl : s = s' := Option.some.inj h
      simp
  | cons c cs ih =>
      intro s s' h
      rw [List.foldlM_cons, Option.bind_eq_bind, Option.bind_eq_some_iff] at h
      obtain ⟨u, hu, hrest⟩ := h
      split_ifs at hu
      rw [ih hrest, mem_foldlM_addTime _ hu, or_assoc]
      refine or_congr_right ?_
      constructor
      · rintro (⟨t, ht, hsecond⟩ | ⟨t, hmem, hsecond, c', hc', hwindow⟩)
        · rw [mem_times] at ht
          exact ⟨t, ht.1, hsecond, c, List.mem_cons_self, ht.2⟩
        · exact ⟨t, hmem, hsecond, c', List.mem_cons_of_mem _ hc', hwindow⟩
      · rintro ⟨t, hmem, hsecond, c', hc', hwindow⟩
        rcases List.mem_cons.mp hc' with rfl | hc'
        · exact Or.inl ⟨t, mem_times.mpr ⟨hmem, hwindow⟩, hsecond⟩
        · exact Or.inr ⟨t, hmem, hsecond, c', hc', hwindow⟩

theorem present_iff {e : Identity} :
    w.present e = true ↔
      ∃ t, (e.1, t) ∈ w.hostData ∧ (e.2 : ℤ) * 1000000 ≤ t ∧ t < (e.2 + 1) * 1000000 := by
  unfold present
  rw [List.any_eq_true]
  constructor
  · rintro ⟨⟨h, t⟩, hmem, hrow⟩
    rw [decide_eq_true_eq] at hrow
    obtain ⟨rfl, hwindow⟩ := hrow
    exact ⟨t, hmem, hwindow⟩
  · rintro ⟨t, hmem, hwindow⟩
    refine ⟨(e.1, t), hmem, ?_⟩
    rw [decide_eq_true_eq]
    exact ⟨rfl, hwindow⟩

/-- A time that is not before 1970 has the second whose window it lies in. -/
theorem unixSecond_eq_iff {t : ℤ} (ht : 0 ≤ t) {sec : ℕ} :
    unixSecond t = sec ↔ (sec : ℤ) * 1000000 ≤ t ∧ t < (sec + 1) * 1000000 := by
  unfold unixSecond
  rw [Int.tdiv_eq_ediv_of_nonneg ht]
  omega

/-- Without an overflow or a timeout, the seconds found in the window are those in the table. -/
theorem mem_hostRecentTimestamps {host : String} {low high : ℕ} {itimes : List ℤ}
    (h : w.hostRecentTimestamps host low high = some itimes) {sec : ℕ} (hlow : low ≤ sec)
    (hhigh : sec < high) : (sec : ℤ) ∈ itimes ↔ w.present (host, sec) = true := by
  rw [mem_foldlM_chunks _ h, present_iff]
  simp only [List.not_mem_nil, false_or, mem_iterHostItimesChunkBounds]
  constructor
  · rintro ⟨t, hmem, hsecond, hwindow, -⟩
    exact ⟨t, hmem, (unixSecond_eq_iff (by omega)).mp hsecond⟩
  · rintro ⟨t, hmem, hfrom, hto⟩
    refine ⟨t, hmem, (unixSecond_eq_iff (by omega)).mpr ⟨hfrom, hto⟩, ?_, ?_⟩
    · omega
    · omega

/-- **The lookup of a host.**  Whether the windows are read or each second is asked for, all seconds are found
exactly when all are in the table. -/
theorem hostSecondsAllPresent_iff {host : String} {seconds : List ℕ} :
    w.hostSecondsAllPresent host seconds = true ↔
      seconds ≠ [] ∧ ∀ sec ∈ seconds, w.present (host, sec) = true := by
  unfold hostSecondsAllPresent
  cases seconds with
  | nil => simp
  | cons a as =>
      have hmem : a ∈ a :: as := List.mem_cons_self
      obtain ⟨low, hlow⟩ := Option.isSome_iff_exists.mp (List.isSome_min?_of_mem hmem)
      obtain ⟨high, hhigh⟩ := Option.isSome_iff_exists.mp (List.isSome_max?_of_mem hmem)
      have hle : ∀ sec ∈ a :: as, low ≤ sec := (List.min?_eq_some_iff.mp hlow).2
      have hge : ∀ sec ∈ a :: as, sec ≤ high := (List.max?_eq_some_iff.mp hhigh).2
      rw [hlow, hhigh]
      dsimp only
      rw [and_iff_right (List.cons_ne_nil a as)]
      cases hrecent : w.hostRecentTimestamps host low (high + 1) with
      | none => rw [List.all_eq_true]
      | some itimes =>
          rw [List.all_eq_true]
          refine forall₂_congr fun sec hsec => ?_
          rw [decide_eq_true_eq,
            mem_hostRecentTimestamps hrecent (hle sec hsec) (Nat.lt_succ_of_le (hge sec hsec))]

end World

/-! ## Seconds by host -/

/-- `d.setdefault(host, set()).update(seconds)`. -/
def addSeconds (d : List (String × List ℕ)) (host : String) (seconds : List ℕ) :
    List (String × List ℕ) :=
  PyDict.set d host (seconds.foldl (fun s x => insert x s) ((d.lookup host).getD []))

/-- The dictionary has the second at the host. -/
def At (d : List (String × List ℕ)) (e : Identity) : Prop :=
  ∃ seconds, d.lookup e.1 = some seconds ∧ e.2 ∈ seconds

/-- No host is there without a second. -/
def Filled (d : List (String × List ℕ)) : Prop :=
  ∀ host seconds, d.lookup host = some seconds → seconds ≠ []

theorem mem_foldl_insert {x : ℕ} (seconds : List ℕ) : ∀ s : List ℕ,
    x ∈ seconds.foldl (fun s x => insert x s) s ↔ x ∈ s ∨ x ∈ seconds := by
  induction seconds with
  | nil =>
      intro s
      simp
  | cons y seconds ih =>
      intro s
      rw [List.foldl_cons, ih, mem_insert, List.mem_cons, or_assoc]

theorem at_addSeconds {d : List (String × List ℕ)} {host : String} {seconds : List ℕ} {e : Identity} :
    At (addSeconds d host seconds) e ↔ At d e ∨ e.1 = host ∧ e.2 ∈ seconds := by
  unfold At addSeconds
  by_cases hhost : e.1 = host
  · subst hhost
    rw [PyDict.lookup_set_self]
    simp only [Option.some.injEq, exists_eq_left', mem_foldl_insert, true_and]
    refine or_congr_left ?_
    cases d.lookup e.1 with
    | none => simp
    | some old => simp
  · rw [PyDict.lookup_set_of_ne _ _ hhost]
    simp [hhost]

theorem filled_addSeconds {d : List (String × List ℕ)} {host : String} {seconds : List ℕ}
    (hd : Filled d) (hseconds : seconds ≠ []) : Filled (addSeconds d host seconds) := by
  intro h s hs
  unfold addSeconds at hs
  by_cases hhost : h = host
  · subst hhost
    rw [PyDict.lookup_set_self, Option.some.injEq] at hs
    obtain ⟨x, hx⟩ := List.exists_mem_of_ne_nil seconds hseconds
    rw [← hs]
    apply List.ne_nil_of_mem
    exact (mem_foldl_insert _ _).mpr (Or.inr hx)
  · rw [PyDict.lookup_set_of_ne _ _ hhost] at hs
    exact hd h s hs

/-! ## The two gates -/

namespace World

variable (w : World)

/-- `head_tail_identity_as_gate_identities` for one path: both stamps must be readable. -/
def gateIdentities (path : String) : Option (List (String × List ℕ)) :=
  match w.file path with
  | none => none
  | some f =>
      match f.head, f.tail with
      | .ok (some head), .ok (some tail) =>
          some (addSeconds (addSeconds [] head.1 [head.2]) tail.1 [tail.2])
      | _, _ => none

/-- The seconds of all closed paths, by host. -/
def secondsByHost (paths : List String) : List (String × List ℕ) :=
  paths.foldl (fun d path =>
    if w.active path then d
    else
      match w.gateIdentities path with
      | none => d
      | some sampled => sampled.foldl (fun d e => addSeconds d e.1 e.2) d) []

/-- `host_ok.get(host, False)`. -/
def hostOk (paths : List String) (host : String) : Bool :=
  match (w.secondsByHost paths).lookup host with
  | none => false
  | some seconds => w.hostSecondsAllPresent host seconds

/-- The paths that are ready through the database. -/
def sampledReady (paths : List String) (path : String) : Bool :=
  !w.liveOn && !w.active path &&
    match w.gateIdentities path with
    | none => false
    | some sampled => sampled.all fun e => w.hostOk paths e.1

/-- `path in build_head_ingest_ready_set(paths, …)`, for a path of the list. -/
def headIngestReady (paths : List String) (path : String) : Bool :=
  !w.gateEnabled || w.sampledReady paths path || (!w.active path && w.marked path)

/-- `filter_paths_head_ingested` with batched gate identities. -/
def filterPathsHeadIngested (paths : List String) : List String × List String :=
  (paths.filter (w.headIngestReady paths), paths.filter (!w.headIngestReady paths ·))

/-- `_path_head_tail_ready_in_db`. -/
def pathHeadTailReady (path : String) : Except ReadError Bool :=
  match w.file path with
  | none => .ok false
  | some f => do
      match ← f.head with
      | none => .ok false
      | some head =>
          if !w.present head then .ok false
          else
            match ← f.tail with
            | none => .ok false
            | some tail => if head = tail then .ok true else .ok (w.present tail)

/-- `stats_file_head_ingested_in_db`, with empty caches. -/
def statsFileHeadIngested (path : String) : Except ReadError Bool :=
  if !w.gateEnabled then .ok true
  else if (w.fingerprint path).isNone then .ok false
  else if w.active path then .ok false
  else if w.marked path then .ok true
  else if w.liveOn then .ok false
  else w.pathHeadTailReady path

end World

/-- The loop of `filter_paths_head_ingested` that asks about each path alone. -/
def splitPaths (ask : String → Except ReadError Bool) :
    List String → Except ReadError (List String × List String)
  | [] => .ok ([], [])
  | path :: rest => do
      let ready ← ask path
      let (ok, skipped) ← splitPaths ask rest
      if ready then .ok (path :: ok, skipped) else .ok (ok, path :: skipped)

/-- Where a path goes, by its answer. -/
theorem splitPaths_mem {ask : String → Except ReadError Bool} : ∀ {paths r s : List String},
    splitPaths ask paths = .ok (r, s) →
      ∀ path ∈ paths, (ask path = .ok true ∧ path ∈ r) ∨ (ask path = .ok false ∧ path ∈ s) := by
  intro paths
  induction paths with
  | nil => exact fun _ path hpath => nomatch hpath
  | cons p rest ih =>
      intro r s h path hpath
      rw [splitPaths] at h
      cases hask : ask p with
      | error e =>
          rw [hask] at h
          cases h
      | ok ready =>
          cases hrest : splitPaths ask rest with
          | error e =>
              rw [hask, hrest] at h
              cases h
          | ok rs =>
              obtain ⟨r', s'⟩ := rs
              rw [hask, hrest] at h
              cases ready <;> cases h
              · rcases List.mem_cons.mp hpath with rfl | hpath
                · exact Or.inr ⟨hask, List.mem_cons_self⟩
                · exact (ih hrest path hpath).imp_right fun ⟨ha, hm⟩ => ⟨ha, List.mem_cons_of_mem _ hm⟩
              · rcases List.mem_cons.mp hpath with rfl | hpath
                · exact Or.inl ⟨hask, List.mem_cons_self⟩
                · exact (ih hrest path hpath).imp_left fun ⟨ha, hm⟩ => ⟨ha, List.mem_cons_of_mem _ hm⟩

/-- The split agrees with a Boolean test exactly when each answer does. -/
theorem splitPaths_eq_iff {ask : String → Except ReadError Bool} {b : String → Bool}
    (paths : List String) :
    splitPaths ask paths = .ok (paths.filter b, paths.filter (!b ·)) ↔
      ∀ path ∈ paths, ask path = .ok (b path) := by
  constructor
  · intro h path hpath
    rcases splitPaths_mem h path hpath with ⟨hask, hmem⟩ | ⟨hask, hmem⟩
    · rw [hask, (List.mem_filter.mp hmem).2]
    · have hb := (List.mem_filter.mp hmem).2
      rw [Bool.not_eq_true'] at hb
      rw [hask, hb]
  · intro h
    induction paths with
    | nil => rfl
    | cons p rest ih =>
        have hrest := ih fun path hpath => h path (List.mem_cons_of_mem _ hpath)
        rw [splitPaths, h p List.mem_cons_self, hrest]
        cases hp : b p with
        | true =>
            rw [List.filter_cons_of_pos hp, List.filter_cons_of_neg (by rw [hp]; decide)]
            rfl
        | false =>
            rw [List.filter_cons_of_neg (by rw [hp]; decide), List.filter_cons_of_pos (by rw [hp]; rfl)]
            rfl

/-! ## What the batched gate asks -/

namespace World

variable (w : World)

/-- Host and second of the first and of the last sample, when both can be read. -/
def stamps (path : String) : List Identity :=
  match w.file path with
  | none => []
  | some f =>
      match f.head, f.tail with
      | .ok (some head), .ok (some tail) => [head, tail]
      | _, _ => []

variable {w}

/-- The gate identities of a path are its two stamps, by host. -/
theorem gateIdentities_cases (path : String) :
    (w.gateIdentities path = none ∧ w.stamps path = []) ∨
      ∃ head tail, w.gateIdentities path =
          some (addSeconds (addSeconds [] head.1 [head.2]) tail.1 [tail.2]) ∧
        w.stamps path = [head, tail] := by
  unfold gateIdentities stamps
  cases hf : w.file path with
  | none => exact Or.inl ⟨rfl, rfl⟩
  | some f =>
      dsimp only
      split
      · rename_i head tail hhead htail
        exact Or.inr ⟨head, tail, rfl, rfl⟩
      · exact Or.inl ⟨rfl, rfl⟩

/-- The dictionary of two stamps. -/
theorem addSeconds_two (head tail : Identity) :
    addSeconds (addSeconds [] head.1 [head.2]) tail.1 [tail.2] =
      if head.1 = tail.1 then [(tail.1, insert tail.2 [head.2])]
      else [(head.1, [head.2]), (tail.1, [tail.2])] := by
  split_ifs with hhost
  · simp [addSeconds, PyDict.set, hhost, insert]
  · have hb : (tail.1 == head.1) = false := by
      rw [beq_eq_false_iff_ne]
      exact Ne.symm hhost
    simp [addSeconds, PyDict.set, hhost, insert, List.lookup_cons, hb]

/-- The entries of the dictionary of two stamps. -/
theorem mem_addSeconds_two {head tail e : Identity} :
    (∃ entry ∈ addSeconds (addSeconds [] head.1 [head.2]) tail.1 [tail.2],
      e.1 = entry.1 ∧ e.2 ∈ entry.2) ↔ e ∈ [head, tail] := by
  rw [addSeconds_two]
  split_ifs with hhost
  · simp [Prod.ext_iff, hhost, ← and_or_left]
  · rw [List.exists_mem_cons_iff, List.exists_mem_cons_iff]
    simp [Prod.ext_iff]

/-- The hosts of the dictionary of two stamps. -/
theorem mem_hosts_two {head tail : Identity} {entry : String × List ℕ}
    (h : entry ∈ addSeconds (addSeconds [] head.1 [head.2]) tail.1 [tail.2]) :
    ∃ e ∈ [head, tail], e.1 = entry.1 := by
  rw [addSeconds_two] at h
  split_ifs at h
  · rw [List.mem_singleton] at h
    exact ⟨tail, by simp, by rw [h]⟩
  · rcases List.mem_cons.mp h with rfl | h
    · exact ⟨head, by simp, rfl⟩
    · rw [List.mem_singleton] at h
      exact ⟨tail, by simp, by rw [h]⟩

/-- The merge of the entries of a dictionary. -/
theorem at_foldl_addSeconds {e : Identity} (sampled : List (String × List ℕ)) :
    ∀ d : List (String × List ℕ),
      At (sampled.foldl (fun d entry => addSeconds d entry.1 entry.2) d) e ↔
        At d e ∨ ∃ entry ∈ sampled, e.1 = entry.1 ∧ e.2 ∈ entry.2 := by
  induction sampled with
  | nil =>
      intro d
      simp
  | cons entry sampled ih =>
      intro d
      rw [List.foldl_cons, ih, at_addSeconds, List.exists_mem_cons_iff, or_assoc]

theorem filled_foldl_addSeconds (sampled : List (String × List ℕ)) :
    ∀ d : List (String × List ℕ), Filled d → (∀ entry ∈ sampled, entry.2 ≠ []) →
      Filled (sampled.foldl (fun d entry => addSeconds d entry.1 entry.2) d) := by
  induction sampled with
  | nil => exact fun d hd _ => hd
  | cons entry sampled ih =>
      intro d hd hne
      rw [List.foldl_cons]
      exact ih _ (filled_addSeconds hd (hne entry List.mem_cons_self))
        fun e he => hne e (List.mem_cons_of_mem _ he)

/-- The merged seconds of the hosts are the stamps of the closed paths. -/
theorem secondsByHost_spec (paths : List String) : ∀ d : List (String × List ℕ), Filled d →
    Filled (paths.foldl (fun d path =>
      if w.active path then d
      else
        match w.gateIdentities path with
        | none => d
        | some sampled => sampled.foldl (fun d e => addSeconds d e.1 e.2) d) d) ∧
    ∀ e, At (paths.foldl (fun d path =>
      if w.active path then d
      else
        match w.gateIdentities path with
        | none => d
        | some sampled => sampled.foldl (fun d e => addSeconds d e.1 e.2) d) d) e ↔
      At d e ∨ ∃ q ∈ paths, w.active q = false ∧ e ∈ w.stamps q := by
  -- induction on the paths: an active path, or one without a gate, adds no stamp
  induction paths with
  | nil =>
      intro d hd
      refine ⟨hd, fun e => ?_⟩
      simp
  | cons q rest ih =>
      intro d hd
      rw [List.foldl_cons]
      simp only [List.exists_mem_cons_iff]
      cases hactive : w.active q with
      | true =>
          rw [if_pos rfl]
          refine ⟨(ih d hd).1, fun e => ?_⟩
          rw [(ih d hd).2]
          simp
      | false =>
          rw [if_neg Bool.false_ne_true]
          rcases gateIdentities_cases (w := w) q with ⟨hgate, hstamps⟩ | ⟨head, tail, hgate, hstamps⟩
          · rw [hgate, hstamps]
            refine ⟨(ih d hd).1, fun e => ?_⟩
            rw [(ih d hd).2]
            simp
          · rw [hgate, hstamps]
            have hfilled := filled_foldl_addSeconds
              (addSeconds (addSeconds [] head.1 [head.2]) tail.1 [tail.2]) d hd ?_
            · refine ⟨(ih _ hfilled).1, fun e => ?_⟩
              rw [(ih _ hfilled).2, at_foldl_addSeconds, mem_addSeconds_two, or_assoc]
              simp
            · intro entry hentry
              rw [addSeconds_two] at hentry
              split_ifs at hentry
              · rw [List.mem_singleton] at hentry
                rw [hentry]
                exact List.ne_nil_of_mem (mem_insert.mpr (Or.inr rfl))
              · rcases List.mem_cons.mp hentry with rfl | hentry
                · exact List.cons_ne_nil _ _
                · rw [List.mem_singleton] at hentry
                  rw [hentry]
                  exact List.cons_ne_nil _ _

/-- A host is judged by the stamps of all closed paths. -/
theorem hostOk_iff {paths : List String} {host : String} :
    w.hostOk paths host = true ↔
      (∃ q ∈ paths, w.active q = false ∧ ∃ e ∈ w.stamps q, e.1 = host) ∧
        ∀ q ∈ paths, w.active q = false → ∀ e ∈ w.stamps q, e.1 = host → w.present e = true := by
  obtain ⟨hfilled, hat⟩ := secondsByHost_spec (w := w) paths [] nofun
  have hat' : ∀ e, At (w.secondsByHost paths) e ↔
      ∃ q ∈ paths, w.active q = false ∧ e ∈ w.stamps q := by
    intro e
    unfold secondsByHost
    rw [hat]
    refine or_iff_right ?_
    rintro ⟨seconds, hlookup, -⟩
    cases hlookup
  unfold hostOk
  cases hlookup : (w.secondsByHost paths).lookup host with
  | none =>
      refine iff_of_false Bool.false_ne_true ?_
      rintro ⟨⟨q, hq, hactive, e, he, rfl⟩, -⟩
      obtain ⟨seconds, hseconds, -⟩ := (hat' e).mpr ⟨q, hq, hactive, he⟩
      rw [hlookup] at hseconds
      cases hseconds
  | some seconds =>
      have hne : seconds ≠ [] := hfilled host seconds hlookup
      have hmem : ∀ sec, sec ∈ seconds ↔ ∃ q ∈ paths, w.active q = false ∧ (host, sec) ∈ w.stamps q := by
        intro sec
        rw [← hat' (host, sec)]
        constructor
        · intro hsec
          exact ⟨seconds, hlookup, hsec⟩
        · rintro ⟨s, hs, hsec⟩
          rw [hlookup, Option.some.injEq] at hs
          exact hs ▸ hsec
      dsimp only
      rw [hostSecondsAllPresent_iff, and_iff_right hne]
      constructor
      · intro hall
        obtain ⟨sec, hsec⟩ := List.exists_mem_of_ne_nil seconds hne
        obtain ⟨q, hq, hactive, hstamp⟩ := (hmem sec).mp hsec
        refine ⟨⟨q, hq, hactive, (host, sec), hstamp, rfl⟩, ?_⟩
        rintro q hq hactive ⟨h, sec⟩ he rfl
        exact hall sec ((hmem sec).mpr ⟨q, hq, hactive, he⟩)
      · rintro ⟨-, hall⟩ sec hsec
        obtain ⟨q, hq, hactive, hstamp⟩ := (hmem sec).mp hsec
        exact hall q hq hactive (host, sec) hstamp rfl

/-- **The batched gate.**  A closed path is ready through the database when the stamps of all closed paths at
its hosts are in the table. -/
theorem sampledReady_iff {paths : List String} {path : String} (hpath : path ∈ paths) :
    w.sampledReady paths path = true ↔
      w.liveOn = false ∧ w.active path = false ∧ w.stamps path ≠ [] ∧
        ∀ h ∈ w.stamps path, ∀ q ∈ paths, w.active q = false →
          ∀ e ∈ w.stamps q, e.1 = h.1 → w.present e = true := by
  unfold sampledReady
  rw [Bool.and_eq_true, Bool.and_eq_true, Bool.not_eq_true', Bool.not_eq_true', and_assoc]
  refine and_congr_right fun _ => and_congr_right fun hactive => ?_
  rcases gateIdentities_cases (w := w) path with ⟨hgate, hstamps⟩ | ⟨head, tail, hgate, hstamps⟩
  · rw [hgate, hstamps]
    simp
  · rw [hgate, List.all_eq_true, and_iff_right (by rw [hstamps]; exact List.cons_ne_nil _ _)]
    constructor
    · intro hall h hh
      rw [hstamps] at hh
      obtain ⟨entry, hentry, hhost, -⟩ := mem_addSeconds_two.mpr hh
      have hok := hall entry hentry
      rw [← hhost] at hok
      exact (hostOk_iff.mp hok).2
    · intro hall entry hentry
      obtain ⟨h, hh, hhost⟩ := mem_hosts_two hentry
      rw [← hhost]
      rw [← hstamps] at hh
      exact hostOk_iff.mpr ⟨⟨path, hpath, hactive, h, hh, rfl⟩, hall h hh⟩

/-! ## What the gate of one path asks -/

variable (w)

/-- Both stamps of the path are in the table. -/
def ownPresent (path : String) : Bool :=
  !(w.stamps path).isEmpty && (w.stamps path).all w.present

/-- Reading a stamp of the path raises, where the gate of one path reads it: the last stamp is read only when
the second of the first is in the table. -/
def BadStamp (path : String) : Prop :=
  ∃ f, w.file path = some f ∧
    (f.head = .error .badStamp ∨
      ∃ head, f.head = .ok (some head) ∧ w.present head = true ∧ f.tail = .error .badStamp)

variable {w}

theorem pathHeadTailReady_of_badStamp {path : String} (h : w.BadStamp path) :
    w.pathHeadTailReady path = .error .badStamp := by
  obtain ⟨f, hf, hhead | ⟨head, hhead, hpresent, htail⟩⟩ := h
  · simp [pathHeadTailReady, hf, hhead, bind, Except.bind]
  · simp [pathHeadTailReady, hf, hhead, hpresent, htail, bind, Except.bind]

/-- When nothing raises, the path is ready exactly when both stamps are in the table. -/
theorem pathHeadTailReady_eq {path : String} (h : ¬ w.BadStamp path) :
    w.pathHeadTailReady path = .ok (w.ownPresent path) := by
  unfold pathHeadTailReady ownPresent stamps
  cases hf : w.file path with
  | none => rfl
  | some f =>
      have hhead : ∀ e, f.head ≠ .error e := by
        intro e he
        cases e
        exact h ⟨f, hf, Or.inl he⟩
      have htail : ∀ head e, f.head = .ok (some head) → w.present head = true → f.tail ≠ .error e := by
        intro head e hhead hpresent he
        cases e
        exact h ⟨f, hf, Or.inr ⟨head, hhead, hpresent, he⟩⟩
      obtain ⟨mtime, size, head, tail⟩ := f
      dsimp only at hhead htail ⊢
      match head, tail with
      | .error e, _ => exact absurd rfl (hhead e)
      | .ok none, _ => rfl
      | .ok (some head), .error e =>
          cases hpresent : w.present head with
          | true => exact absurd rfl (htail head e rfl hpresent)
          | false => simp [hpresent, bind, Except.bind]
      | .ok (some head), .ok none => cases hpresent : w.present head <;> simp [hpresent, bind, Except.bind]
      | .ok (some head), .ok (some tail) =>
          cases hpresent : w.present head with
          | false => simp [hpresent, bind, Except.bind]
          | true =>
              by_cases heq : head = tail
              · subst heq
                simp [hpresent, bind, Except.bind]
              · simp [hpresent, heq, bind, Except.bind]

/-! ## The two splits -/

variable (w)

/-- Whenever an unmarked closed path is ready by its own stamps, the stamps of all other closed paths at its
hosts are in the table, and no stamp of an unmarked closed path makes a read raise. -/
def Agreement (paths : List String) : Prop :=
  w.gateEnabled = true → w.liveOn = false →
    ∀ p ∈ paths, w.active p = false → w.marked p = false →
      ¬ w.BadStamp p ∧
        (w.ownPresent p = true → ∀ h ∈ w.stamps p, ∀ q ∈ paths, w.active q = false →
          ∀ e ∈ w.stamps q, e.1 = h.1 → w.present e = true)

variable {w}

theorem marked_of_fingerprint {path : String} (h : w.fingerprint path = none) :
    w.marked path = false := by
  unfold marked
  rw [h]

theorem ownPresent_iff {path : String} :
    w.ownPresent path = true ↔ w.stamps path ≠ [] ∧ ∀ e ∈ w.stamps path, w.present e = true := by
  unfold ownPresent
  rw [Bool.and_eq_true, Bool.not_eq_true', List.isEmpty_eq_false_iff, List.all_eq_true]

theorem fingerprint_eq_none_iff {path : String} : w.fingerprint path = none ↔ w.file path = none := by
  unfold fingerprint
  rw [Option.map_eq_none_iff]

/-- A closed path without a mark, while the gate asks the database. -/
theorem statsFileHeadIngested_eq {path : String} (henabled : w.gateEnabled = true)
    (hlive : w.liveOn = false) (hactive : w.active path = false) (hmarked : w.marked path = false) :
    w.statsFileHeadIngested path = w.pathHeadTailReady path := by
  unfold statsFileHeadIngested
  simp only [henabled, hlive, hactive, hmarked, Bool.not_true, Bool.false_eq_true, if_false]
  split_ifs with hfile
  · rw [Option.isNone_iff_eq_none, fingerprint_eq_none_iff] at hfile
    unfold pathHeadTailReady
    rw [hfile]
  · rfl

/-- Outside of that, the database is not asked, and both gates say whether there is a mark. -/
theorem answer_eq_of_not_asked {paths : List String} {p : String} (hp : p ∈ paths)
    (h : w.gateEnabled = true → w.liveOn = false → w.active p = false → w.marked p = true) :
    w.statsFileHeadIngested p = .ok (w.headIngestReady paths p) := by
  unfold statsFileHeadIngested headIngestReady
  cases henabled : w.gateEnabled with
  | false => rfl
  | true =>
      have hsampled : w.marked p = false → w.sampledReady paths p = false := by
        intro hmarked
        rw [Bool.eq_false_iff]
        intro hready
        obtain ⟨hlive, hactive, -⟩ := (sampledReady_iff hp).mp hready
        rw [h henabled hlive hactive] at hmarked
        cases hmarked
      cases hactive : w.active p with
      | true =>
          have hnot : w.sampledReady paths p = false := by
            rw [Bool.eq_false_iff]
            intro hready
            rw [((sampledReady_iff hp).mp hready).2.1] at hactive
            cases hactive
          rw [hnot]
          simp
      | false =>
          cases hmarked : w.marked p with
          | true =>
              have hfile : (w.fingerprint p).isNone = false := by
                rw [Bool.eq_false_iff]
                intro hnone
                rw [marked_of_fingerprint (Option.isNone_iff_eq_none.mp hnone)] at hmarked
                cases hmarked
              rw [hfile]
              simp
          | false =>
              have hlive : w.liveOn = true := by
                by_contra hoff
                rw [Bool.not_eq_true] at hoff
                rw [h henabled hoff hactive] at hmarked
                cases hmarked
              rw [hsampled hmarked, hlive]
              simp

/-- The two gates give the same answer for a closed path of the list that has no mark. -/
theorem answer_eq_iff {paths : List String} {p : String} (hp : p ∈ paths)
    (henabled : w.gateEnabled = true) (hlive : w.liveOn = false) (hactive : w.active p = false)
    (hmarked : w.marked p = false) :
    w.statsFileHeadIngested p = .ok (w.headIngestReady paths p) ↔
      ¬ w.BadStamp p ∧
        (w.ownPresent p = true → ∀ h ∈ w.stamps p, ∀ q ∈ paths, w.active q = false →
          ∀ e ∈ w.stamps q, e.1 = h.1 → w.present e = true) := by
  rw [statsFileHeadIngested_eq henabled hlive hactive hmarked]
  have hready : w.headIngestReady paths p = w.sampledReady paths p := by
    unfold headIngestReady
    rw [henabled, hmarked, Bool.and_false, Bool.or_false]
    rfl
  rw [hready]
  by_cases hbad : w.BadStamp p
  · rw [pathHeadTailReady_of_badStamp hbad]
    exact iff_of_false nofun fun h => h.1 hbad
  · rw [pathHeadTailReady_eq hbad, and_iff_right hbad, Except.ok.injEq, Bool.eq_iff_iff,
      sampledReady_iff hp, ownPresent_iff]
    constructor
    · rintro hboth hown
      exact (hboth.mp hown).2.2.2
    · intro hall
      constructor
      · intro hown
        exact ⟨hlive, hactive, hown.1, hall hown⟩
      · rintro ⟨-, -, hne, hothers⟩
        exact ⟨hne, fun e he => hothers e he p hp hactive e he rfl⟩

/-- **Batched and single.**  The batched gate splits the paths like the gate of one path exactly when they are in
agreement. -/
theorem filter_paths_eq_iff (w : World) (paths : List String) :
    splitPaths w.statsFileHeadIngested paths = .ok (w.filterPathsHeadIngested paths) ↔
      w.Agreement paths := by
  unfold filterPathsHeadIngested
  rw [splitPaths_eq_iff]
  unfold Agreement
  constructor
  · intro h henabled hlive p hp hactive hmarked
    exact (answer_eq_iff hp henabled hlive hactive hmarked).mp (h p hp)
  · intro h p hp
    by_cases hasked : w.gateEnabled = true ∧ w.liveOn = false ∧ w.active p = false ∧ w.marked p = false
    · obtain ⟨henabled, hlive, hactive, hmarked⟩ := hasked
      exact (answer_eq_iff hp henabled hlive hactive hmarked).mpr (h henabled hlive p hp hactive hmarked)
    · refine answer_eq_of_not_asked hp fun henabled hlive hactive => ?_
      by_contra hmarked
      exact hasked ⟨henabled, hlive, hactive, Bool.eq_false_iff.mpr hmarked⟩

end World

/-! ## Two files of one host -/

/-- The database has the seconds of the first file, but not those of the second. -/
def twoFiles : World where
  gateEnabled := true
  liveOn := false
  file := fun path =>
    if path = "a" then some ⟨1, 10, .ok (some ("host", 100)), .ok (some ("host", 160))⟩
    else if path = "b" then some ⟨2, 10, .ok (some ("host", 200)), .ok (some ("host", 260))⟩
    else none
  active := fun _ => false
  fileCompleteMarks := []
  zeroHostMarks := []
  hostData := [("host", 100500000), ("host", 160000000)]
  maxTimestamps := 1000
  queryBounded := fun _ _ _ => false

/-- Alone, the first file is ready; batched with the second, it is not. -/
theorem not_filter_paths_eq :
    splitPaths twoFiles.statsFileHeadIngested ["a", "b"] = .ok (["a"], ["b"]) ∧
      twoFiles.filterPathsHeadIngested ["a", "b"] = ([], ["a", "b"]) := by
  decide +kernel

end ReadinessGate
