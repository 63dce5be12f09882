/-
# From an accounting table to `job_data` (`_sync_acct_dataframe`)

The rows of jobs that are stored are filtered out by their ids as pandas has read them, then the rows whose
partition holds a restricted keyword: their positions are collected, turned to index labels and dropped.  What
is left is converted column by column, built into jobs and inserted.

* `keptRows` is the two filters with positions and labels, `keptRows_eq` says which rows they keep
* `Pandas` is what the conversions use of pandas and of the host list package
* `syncAcctDataframe` is the whole function, all required columns present
* `adds_iff`: the tables of which exactly the first unrestricted row of every new job is added

A keyword is looked for with `settings.DEBUG` only, and never in a partition that was read as a number.
-/
import HpcPerfStats.JobDataInsert

namespace AcctIngest

open PyText KeyedList UniqueInsert JobDataInsert

/-! ## The table -/

/-- A row of the table, under the new names of its columns. -/
structure AcctRow where
  jid : Cell
  username : Cell
  account : Cell
  startTime : Cell
  endTime : Cell
  submitTime : Cell
  queue : Cell
  timelimit : Cell
  jobname : Cell
  state : Cell
  nhosts : Cell
  ncores : Cell
  hostList : Cell
  deriving DecidableEq

/-- The job's id behind `apply(str)`. -/
def AcctRow.id (r : AcctRow) : String := r.jid.str

/-! ## Filters -/

/-- `df["jid"].isin(jobs_in_db)`: a number is none of the texts. -/
def isin (jobsInDb : List String) : Cell → Bool
  | .text s => decide (s ∈ jobsInDb)
  | _ => false

/-- The rows that are not stored, with their labels (`read_csv` numbers them). -/
def notInDb (jobsInDb : List String) (rows : List AcctRow) : List (AcctRow × ℕ) :=
  rows.zipIdx.filter fun e => !isin jobsInDb e.1.jid

/-- What one row appends to `restricted_df_indices`: its position, once for every keyword. -/
def hits (debug : Bool) (keywords : List String) (queue : Cell) (i : ℕ) : List ℕ :=
  match queue with
  | .text cell => (keywords.filter fun q => contains q cell && debug).map fun _ => i
  | _ => []

/-- `restricted_df_indices`. -/
def restrictedIndices (debug : Bool) (keywords : List String) (df : List (AcctRow × ℕ)) : List ℕ :=
  if keywords = [] then [] else df.zipIdx.flatMap fun e => hits debug keywords e.1.1.queue e.2

/-- `df.index[indices]`. -/
def labelsAt (df : List (AcctRow × ℕ)) (indices : List ℕ) : List ℕ :=
  indices.filterMap fun i => df[i]?.map Prod.snd

/-- `df.drop(index=labels)`. -/
def dropLabels (df : List (AcctRow × ℕ)) (labels : List ℕ) : List (AcctRow × ℕ) :=
  df.filter fun e => decide (e.2 ∉ labels)

/-- The table behind both filters. -/
def keptRows (debug : Bool) (keywords jobsInDb : List String) (rows : List AcctRow) : List AcctRow :=
  let df := notInDb jobsInDb rows
  let indices := restrictedIndices debug keywords df
  (if indices = [] then df else dropLabels df (labelsAt df indices)).map Prod.fst

/-! ## Conversions -/

/-- What the conversions use of other packages. -/
structure Pandas (F : Type) where
  /-- `to_datetime(column).dt.tz_localize(...)`: from the whole column, how its cells are read; `none` when it
  raises. -/
  toDatetime : List Cell → Option (Cell → Option ℤ)
  /-- `.dt.total_seconds()` of a difference. -/
  totalSeconds : ℤ → F
  /-- `to_timedelta(text, errors="coerce")` in seconds. -/
  toTimedelta : String → Option F
  /-- `nhosts * runtime / 3600.0`; `none` when it raises. -/
  nodeHours : Cell → Option F → Option (Option F)
  /-- `hostlist.expand_hostlist`; `none` when it raises. -/
  expandHostlist : String → Option (List String)

/-- Why `_fail_acct_load` was called. -/
inductive AcctLoadError where
  /-- could not parse Start, End, or Submit -/
  | times
  /-- NodeList for jid=... -/
  | nodeList (jid : String) (value : Cell)
  /-- could not compute node hours from NNodes and runtime -/
  | nodeHours
  /-- could not build job row jid=... -/
  | row (jid : String)

variable {F : Type} (P : Pandas F)

/-- `.replace("^None$", NA).replace("^Unknown$", NA).fillna(end_time)`. -/
def startCell (r : AcctRow) : Cell :=
  match r.startTime with
  | .missing => r.endTime
  | .text s => if s ∈ ["None", "None\n", "Unknown", "Unknown\n"] then r.endTime else .text s
  | .number q printed => .number q printed

/-- How the three time columns are read. -/
structure Readers where
  start : Cell → Option ℤ
  finish : Cell → Option ℤ
  submit : Cell → Option ℤ

def readTimes (rows : List AcctRow) : Option Readers := do
  let start ← P.toDatetime (rows.map startCell)
  let finish ← P.toDatetime (rows.map AcctRow.endTime)
  let submit ← P.toDatetime (rows.map AcctRow.submitTime)
  some ⟨start, finish, submit⟩

/-- `_ACCT_TIMELIMIT_SENTINELS`. -/
def acctTimelimitSentinels : List String :=
  ["unlimited", "partition_limit", "infinite", "invalid", "none", "unknown"]

/-- `_acct_timelimit_to_seconds`, of one cell. -/
def acctTimelimitToSeconds (cell : Cell) : Option F :=
  match cell.orNone with
  | none => none
  | some s =>
      let text := strip s
      let key := String.ofList (text.toLower.toList.map fun c => if c = '-' then '_' else c)
      if text = "" ∨ key ∈ acctTimelimitSentinels then none
      else P.toTimedelta (String.ofList (text.toList.flatMap fun c => if c = '-' then " days ".toList else [c]))

/-- `_expand_acct_nodelist`. -/
def expandAcctNodelist (jid : String) (value : Cell) : Except AcctLoadError (List String) :=
  match value with
  | .text s =>
      match P.expandHostlist s with
      | some hosts => .ok hosts
      | none => .error (.nodeList jid value)
  | _ => .error (.nodeList jid value)

/-- The host list column. -/
def withHosts (r : AcctRow) : Except AcctLoadError (AcctRow × List String) :=
  (expandAcctNodelist P r.id r.hostList).map fun hosts => (r, hosts)

/-- The node hours column, and the row as it is then. -/
def withHours (readers : Readers) (e : AcctRow × List String) : Except AcctLoadError (ProcRow F) :=
  let startTime := readers.start (startCell e.1)
  let endTime := readers.finish e.1.endTime
  let runtime := startTime.bind fun a => endTime.map fun b => P.totalSeconds (b - a)
  match P.nodeHours e.1.nhosts runtime with
  | none => .error .nodeHours
  | some nodeHrs => .ok
      { jid := e.1.id
        username := e.1.username
        account := e.1.account
        startTime := startTime
        endTime := endTime
        submitTime := readers.submit e.1.submitTime
        queue := e.1.queue
        timelimit := acctTimelimitToSeconds P e.1.timelimit
        jobname := e.1.jobname
        state := e.1.state
        nhosts := e.1.nhosts
        ncores := e.1.ncores
        hostList := e.2
        runtime := runtime
        nodeHrs := nodeHrs }

def toJob (row : ProcRow F) : Except AcctLoadError (JobRow F) :=
  match jobDataInstanceFromAcctRow row with
  | none => .error (.row row.jid)
  | some obj => .ok obj

/-! ## The whole function -/

/-- What a load leaves and returns, and whether the fallback ran. -/
structure Ingest (F : Type) where
  table : JobTable F
  inserted : ℕ
  fellBack : Bool

variable (accepts : Accepts F)

/-- `_sync_acct_dataframe`; the queries for the count succeed. -/
def syncAcctDataframe (debug : Bool) (keywords : List String) (t : JobTable F) (jobsInDb : List String)
    (rows : List AcctRow) : Except AcctLoadError (Ingest F) :=
  let kept := keptRows debug keywords jobsInDb rows
  match readTimes P kept with
  | none => .error .times
  | some readers => do
      let hosts ← kept.mapM (withHosts P)
      let procs ← hosts.mapM (withHours P readers)
      let objs ← procs.mapM toJob
      if objs = [] then .ok ⟨t, 0, false⟩
      else
        match bulkCreateJobData accepts t objs with
        | some (t', n) => .ok ⟨t', n, false⟩
        | none =>
            let s := insertJobDataIndividually accepts t procs
            .ok ⟨s.table, s.inserted, true⟩

/-! ## Which rows are kept -/

/-- What the two filters keep, row by row. -/
def keeps (debug : Bool) (keywords jobsInDb : List String) (r : AcctRow) : Bool :=
  !isin jobsInDb r.jid && (hits debug keywords r.queue 0).isEmpty

theorem hits_eq_nil_iff {debug : Bool} {keywords : List String} {queue : Cell} {i j : ℕ} :
    hits debug keywords queue i = [] ↔ hits debug keywords queue j = [] := by
  cases queue with
  | text cell => simp only [hits, List.map_eq_nil_iff]
  | missing => exact Iff.rfl
  | number q printed => exact Iff.rfl

/-- Without keywords nothing is restricted, so the early `break` changes nothing. -/
theorem mem_restrictedIndices {debug : Bool} {keywords : List String} {df : List (AcctRow × ℕ)} {i : ℕ} :
    i ∈ restrictedIndices debug keywords df ↔
      ∃ e, df[i]? = some e ∧ hits debug keywords e.1.queue 0 ≠ [] := by
  have hflat : restrictedIndices debug keywords df =
      df.zipIdx.flatMap fun e => hits debug keywords e.1.1.queue e.2 := by
    unfold restrictedIndices
    split_ifs with hnone
    · symm
      rw [List.flatMap_eq_nil_iff]
      intro e _
      rw [hnone]
      unfold hits
      cases e.1.1.queue <;> rfl
    · rfl
  have hits_self : ∀ (queue : Cell) (j : ℕ), i ∈ hits debug keywords queue j ↔
      j = i ∧ hits debug keywords queue 0 ≠ [] := by
    intro queue j
    rw [Ne, hits_eq_nil_iff (i := 0) (j := j)]
    cases queue with
    | text cell =>
        simp only [hits, List.mem_map, List.map_eq_nil_iff]
        constructor
        · rintro ⟨q, hq, rfl⟩
          exact ⟨rfl, List.ne_nil_of_mem hq⟩
        · rintro ⟨rfl, hne⟩
          obtain ⟨q, hq⟩ := List.exists_mem_of_ne_nil _ hne
          exact ⟨q, hq, rfl⟩
    | missing => simp [hits]
    | number q printed => simp [hits]
  rw [hflat, List.mem_flatMap]
  constructor
  · rintro ⟨⟨e, j⟩, he, hi⟩
    obtain ⟨rfl, hne⟩ := (hits_self e.1.queue j).mp hi
    exact ⟨e, List.mem_zipIdx_iff_getElem?.mp he, hne⟩
  · rintro ⟨e, he, hne⟩
    exact ⟨(e, i), List.mem_zipIdx_iff_getElem?.mpr he, (hits_self e.1.queue i).mpr ⟨rfl, hne⟩⟩

/-- The labels of a filtered table are distinct. -/
theorem eq_of_label_eq {jobsInDb : List String} {rows : List AcctRow} {e e' : AcctRow × ℕ}
    (he : e ∈ notInDb jobsInDb rows) (he' : e' ∈ notInDb jobsInDb rows) (h : e.2 = e'.2) : e = e' := by
  have hget := List.mem_zipIdx_iff_getElem?.mp (List.mem_filter.mp he).1
  have hget' := List.mem_zipIdx_iff_getElem?.mp (List.mem_filter.mp he').1
  rw [h, hget'] at hget
  exact Prod.ext (Option.some.inj hget).symm h

theorem mem_labelsAt (debug : Bool) (keywords : List String) {jobsInDb : List String} {rows : List AcctRow}
    {e : AcctRow × ℕ} (he : e ∈ notInDb jobsInDb rows) :
    e.2 ∈ labelsAt (notInDb jobsInDb rows) (restrictedIndices debug keywords (notInDb jobsInDb rows)) ↔
      hits debug keywords e.1.queue 0 ≠ [] := by
  unfold labelsAt
  rw [List.mem_filterMap]
  constructor
  · rintro ⟨i, hi, hlabel⟩
    obtain ⟨e', hget, hne⟩ := mem_restrictedIndices.mp hi
    rw [hget, Option.map_some, Option.some.injEq] at hlabel
    rwa [← eq_of_label_eq (List.mem_of_getElem? hget) he hlabel]
  · intro hne
    obtain ⟨i, hi, hget⟩ := List.getElem_of_mem he
    have hget? : (notInDb jobsInDb rows)[i]? = some e := by rw [List.getElem?_eq_getElem hi, hget]
    exact ⟨i, mem_restrictedIndices.mpr ⟨e, hget?, hne⟩, by rw [hget?, Option.map_some]⟩

/-- **Positions and labels drop the rows they were collected for**, whatever was filtered before. -/
theorem keptRows_eq (debug : Bool) (keywords jobsInDb : List String) (rows : List AcctRow) :
    keptRows debug keywords jobsInDb rows = rows.filter (keeps debug keywords jobsInDb) := by
  have hdrop : keptRows debug keywords jobsInDb rows =
      ((notInDb jobsInDb rows).filter fun e => (hits debug keywords e.1.queue 0).isEmpty).map Prod.fst := by
    unfold keptRows
    dsimp only
    split_ifs with hindices
    · congr 1
      symm
      rw [List.filter_eq_self]
      intro e he
      by_contra hne
      have hlabel := (mem_labelsAt debug keywords he).mpr
        fun hnil => hne (List.isEmpty_iff.mpr hnil)
      rw [hindices] at hlabel
      cases hlabel
    · unfold dropLabels
      congr 1
      refine List.filter_congr fun e he => ?_
      rw [Bool.eq_iff_iff, decide_eq_true_iff, mem_labelsAt debug keywords he, not_not, List.isEmpty_iff]
  rw [hdrop, notInDb, List.filter_filter]
  have hfst : rows = rows.zipIdx.map Prod.fst := List.zipIdx_map_fst 0 rows |>.symm
  conv_rhs => rw [hfst]
  rw [List.filter_map]
  congr 1
  refine List.filter_congr fun e _ => ?_
  show ((hits debug keywords e.1.queue 0).isEmpty && !isin jobsInDb e.1.jid) = _
  rw [Bool.and_comm]
  rfl

/-! ## What is built from a row -/

/-- The job of one row, where the time columns are read so. -/
def buildRow (readers : Readers) (r : AcctRow) : Except AcctLoadError (JobRow F) := do
  let e ← withHosts P r
  let row ← withHours P readers e
  toJob row

section Except

variable {ε α β γ : Type}

theorem ok_bind (a : α) (f : α → Except ε β) : (Except.ok a >>= f) = f a := rfl

theorem bind_eq_ok {x : Except ε α} {f : α → Except ε β} {b : β} :
    (x >>= f) = .ok b ↔ ∃ a, x = .ok a ∧ f a = .ok b := by
  cases x with
  | error e => exact ⟨fun h => (by cases h), fun ⟨a, ha, _⟩ => (by cases ha)⟩
  | ok a => exact ⟨fun h => ⟨a, rfl, h⟩, fun ⟨a', ha, h⟩ => (by cases ha; exact h)⟩

/-- A pass over a list that does not fail, element by element. -/
theorem mapM_eq_ok_iff {f : α → Except ε β} {l : List α} : ∀ {out : List β},
    l.mapM f = .ok out ↔ List.Forall₂ (fun a b => f a = .ok b) l out := by
  induction l with
  | nil =>
      intro out
      rw [List.mapM_nil, List.forall₂_nil_left_iff]
      exact ⟨fun h => (Except.ok.inj h).symm, fun h => (by rw [h]; rfl)⟩
  | cons a l ih =>
      intro out
      rw [List.mapM_cons, bind_eq_ok, List.forall₂_cons_left_iff]
      constructor
      · rintro ⟨b, hb, h⟩
        obtain ⟨bs, hbs, heq⟩ := bind_eq_ok.mp h
        exact ⟨b, bs, hb, ih.mp hbs, (Except.ok.inj heq).symm⟩
      · rintro ⟨b, bs, hb, hbs, rfl⟩
        exact ⟨b, hb, bind_eq_ok.mpr ⟨bs, ih.mpr hbs, rfl⟩⟩

theorem forall₂_bind {f : α → Except ε β} {g : β → Except ε γ} {l : List α} {m : List β} {out : List γ}
    (hf : List.Forall₂ (fun a b => f a = .ok b) l m) (hg : List.Forall₂ (fun b c => g b = .ok c) m out) :
    List.Forall₂ (fun a c => (f a >>= g) = .ok c) l out := by
  induction hf generalizing out with
  | nil =>
      cases hg
      exact List.Forall₂.nil
  | cons hb _ ih =>
      cases hg with
      | cons hc hrest => exact List.Forall₂.cons (bind_eq_ok.mpr ⟨_, hb, hc⟩) (ih hrest)

end Except

/-- **A load that did not fall back** read the time columns of the kept rows, built a job of every one and
inserted them. -/
theorem syncAcctDataframe_eq_ok {debug : Bool} {keywords : List String} {t : JobTable F}
    {jobsInDb : List String} {rows : List AcctRow} {res : Ingest F}
    (h : syncAcctDataframe P accepts debug keywords t jobsInDb rows = .ok res) (hbulk : res.fellBack = false) :
    ∃ readers objs, readTimes P (keptRows debug keywords jobsInDb rows) = some readers ∧
      List.Forall₂ (fun r obj => buildRow P readers r = .ok obj) (keptRows debug keywords jobsInDb rows) objs ∧
      res.table.rows = insertRows JobRow.jid (fun _ => false) t.rows objs := by
  unfold syncAcctDataframe at h
  dsimp only at h
  cases hreaders : readTimes P (keptRows debug keywords jobsInDb rows) with
  | none =>
      rw [hreaders] at h
      cases h
  | some readers =>
      rw [hreaders] at h
      obtain ⟨hosts, hhosts, h⟩ := bind_eq_ok.mp h
      obtain ⟨procs, hprocs, h⟩ := bind_eq_ok.mp h
      obtain ⟨objs, hobjs, h⟩ := bind_eq_ok.mp h
      refine ⟨readers, objs, rfl, ?_, ?_⟩
      · exact forall₂_bind (mapM_eq_ok_iff.mp hhosts) (forall₂_bind (mapM_eq_ok_iff.mp hprocs) (mapM_eq_ok_iff.mp hobjs))
      · by_cases hnone : objs = []
        · rw [if_pos hnone] at h
          cases h
          rw [hnone]
          rfl
        · rw [if_neg hnone] at h
          cases hinsert : bulkCreateJobData accepts t objs with
          | none =>
              rw [hinsert] at h
              cases h
              cases hbulk
          | some p =>
              rw [hinsert] at h
              cases h
              obtain ⟨t', n⟩ := p
              exact (bulkCreateJobData_eq_some accepts hinsert).2.1

/-- A job has its row's id and partition. -/
theorem buildRow_spec {readers : Readers} {r : AcctRow} {obj : JobRow F} (h : buildRow P readers r = .ok obj) :
    obj.jid = r.id ∧ obj.queue = r.queue.orNone := by
  obtain ⟨e, he, h⟩ := bind_eq_ok.mp h
  obtain ⟨row, hrow, h⟩ := bind_eq_ok.mp h
  have hfst : e.1 = r := by
    unfold withHosts at he
    cases hhosts : expandAcctNodelist P r.id r.hostList with
    | error _ =>
        rw [hhosts] at he
        cases he
    | ok hosts =>
        rw [hhosts] at he
        cases he
        rfl
  have hproc : row.jid = r.id ∧ row.queue = r.queue := by
    unfold withHours at hrow
    dsimp only at hrow
    split at hrow
    · cases hrow
    · cases hrow
      rw [hfst]
      exact ⟨rfl, rfl⟩
  unfold toJob at h
  cases hjob : jobDataInstanceFromAcctRow row with
  | none =>
      rw [hjob] at h
      cases h
  | some obj' =>
      rw [hjob] at h
      cases h
      unfold jobDataInstanceFromAcctRow at hjob
      obtain ⟨nhosts, -, hjob⟩ := Option.bind_eq_some_iff.mp hjob
      obtain ⟨ncores, -, hjob⟩ := Option.bind_eq_some_iff.mp hjob
      cases hjob
      exact ⟨hproc.1, by rw [hproc.2]⟩

/-! ## What is added -/

/-- A text that holds a restricted keyword. -/
def hasKeyword (keywords : List String) : Option String → Bool
  | none => false
  | some text => keywords.any fun q => contains q text

def restricted (keywords : List String) (r : AcctRow) : Bool := hasKeyword keywords r.queue.orNone

/-- The filter does not look at this row's partition. -/
def unchecked (debug : Bool) (r : AcctRow) : Prop := debug = false ∨ ∀ s, r.queue ≠ .text s

/-- The first row of a job whose partition holds no keyword. -/
def firstUnrestricted (keywords : List String) (rows : List AcctRow) (jid : String) : Option AcctRow :=
  rows.find? fun r => decide (r.id = jid) && !restricted keywords r

/-- **What a load is to leave**: the stored jobs, and of every other one the job of its first unrestricted row. -/
structure Adds (keywords : List String) (t t' : JobTable F) (readers : Readers) (rows : List AcctRow) : Prop where
  stored : ∀ jid ∈ t.jids, part JobRow.jid jid t'.rows = part JobRow.jid jid t.rows
  one : ∀ jid ∉ t.jids, ∀ r, firstUnrestricted keywords rows jid = some r →
    ∃ obj, buildRow P readers r = .ok obj ∧ part JobRow.jid jid t'.rows = [obj]
  no_other : ∀ jid ∉ t.jids, firstUnrestricted keywords rows jid = none → part JobRow.jid jid t'.rows = []
  unrestricted : ∀ a ∈ t'.rows, a.jid ∉ t.jids → hasKeyword keywords a.queue = false

/-- Every restricted row of a new job that the filter does not look at comes behind an unrestricted row of this
job. -/
def RestrictedLater (debug : Bool) (keywords : List String) (t : JobTable F) (rows : List AcctRow) : Prop :=
  ∀ pre r post, rows = pre ++ r :: post → r.id ∉ t.jids → restricted keywords r = true → unchecked debug r →
    ∃ u ∈ pre, u.id = r.id ∧ restricted keywords u = false

/-- Of the rows of a new job the filters keep those that are unrestricted or unchecked. -/
theorem keeps_iff {debug : Bool} {keywords jobsInDb : List String} {r : AcctRow} (h : r.id ∉ jobsInDb) :
    keeps debug keywords jobsInDb r = true ↔ restricted keywords r = false ∨ unchecked debug r := by
  have hin : isin jobsInDb r.jid = false := by
    unfold AcctRow.id at h
    cases hjid : r.jid with
    | text s =>
        rw [hjid] at h
        exact decide_eq_false h
    | missing => rfl
    | number q printed => rfl
  unfold keeps restricted unchecked
  rw [hin, Bool.not_false, Bool.true_and, List.isEmpty_iff]
  cases hqueue : r.queue with
  | missing => simp [hits, Cell.orNone, hasKeyword]
  | number q printed => simp [hits]
  | text s =>
      simp only [hits, List.map_eq_nil_iff, List.filter_eq_nil_iff, Cell.orNone, hasKeyword]
      cases debug
      · simp
      · simp

/-- The first row of a job that is built is the first that is inserted. -/
theorem take_part {readers : Readers} {kept : List AcctRow} {objs : List (JobRow F)}
    (h : List.Forall₂ (fun r obj => buildRow P readers r = .ok obj) kept objs) (jid : String) :
    (∀ r, kept.find? (fun r => decide (r.id = jid)) = some r →
        ∃ obj, buildRow P readers r = .ok obj ∧ (part JobRow.jid jid objs).take 1 = [obj]) ∧
      (kept.find? (fun r => decide (r.id = jid)) = none → part JobRow.jid jid objs = []) := by
  induction h with
  | nil => exact ⟨fun r hr => (by cases hr), fun _ => rfl⟩
  | @cons r obj kept objs hobj _ ih =>
      have hid := (buildRow_spec P hobj).1
      by_cases hjid : r.id = jid
      · subst hjid
        have hfind : (r :: kept).find? (fun q => decide (q.id = r.id)) = some r :=
          List.find?_cons_of_pos (decide_eq_true rfl)
        rw [hfind, ← hid, part_cons_self]
        exact ⟨fun q hq => (by cases hq; exact ⟨obj, hobj, rfl⟩), fun hnone => (by cases hnone)⟩
      · have hfind : (r :: kept).find? (fun q => decide (q.id = jid)) = kept.find? fun q => decide (q.id = jid) :=
          List.find?_cons_of_neg fun hc => hjid (of_decide_eq_true hc)
        rw [hfind, part_cons_of_ne JobRow.jid objs (hid ▸ hjid)]
        exact ih

section Run

variable {debug : Bool} {keywords jobsInDb : List String} {t : JobTable F} {rows : List AcctRow}

/-- The first kept row of a new job. -/
def firstKept (debug : Bool) (keywords jobsInDb : List String) (rows : List AcctRow) (jid : String) :
    Option AcctRow :=
  rows.find? fun r => keeps debug keywords jobsInDb r && decide (r.id = jid)

/-- What a load leaves of one job. -/
theorem part_table {readers : Readers} {objs : List (JobRow F)}
    (hobjs : List.Forall₂ (fun r obj => buildRow P readers r = .ok obj) (keptRows debug keywords jobsInDb rows) objs)
    {jid : String} (hnew : jid ∉ t.jids) :
    (∀ r, firstKept debug keywords jobsInDb rows jid = some r → ∃ obj, buildRow P readers r = .ok obj ∧
        part JobRow.jid jid (insertRows JobRow.jid (fun _ => false) t.rows objs) = [obj]) ∧
      (firstKept debug keywords jobsInDb rows jid = none →
        part JobRow.jid jid (insertRows JobRow.jid (fun _ => false) t.rows objs) = []) := by
  have hfree : part JobRow.jid jid t.rows = [] := (part_eq_nil_iff JobRow.jid).mpr hnew
  have hpart : part JobRow.jid jid (insertRows JobRow.jid (fun _ => false) t.rows objs) =
      (part JobRow.jid jid objs).take 1 := by
    rw [part_insertRows, hfree, List.nil_append]
    rfl
  have hfind : (keptRows debug keywords jobsInDb rows).find? (fun r => decide (r.id = jid)) =
      firstKept debug keywords jobsInDb rows jid := by
    rw [keptRows_eq, List.find?_filter]
    unfold firstKept
    congr 1
    funext r
    rw [Bool.decide_and, Bool.decide_eq_true, Bool.decide_eq_true]
  obtain ⟨hsome, hnone⟩ := take_part P hobjs jid
  rw [hfind] at hsome hnone
  rw [hpart]
  exact ⟨hsome, fun h => (by rw [hnone h]; rfl)⟩

/-- Where restricted rows come later, the first kept row is the first unrestricted one. -/
theorem firstKept_eq (hstored : jobsInDb ⊆ t.jids) (h : RestrictedLater debug keywords t rows) {jid : String}
    (hnew : jid ∉ t.jids) : firstKept debug keywords jobsInDb rows jid = firstUnrestricted keywords rows jid := by
  have hkeeps : ∀ r : AcctRow, r.id = jid → (keeps debug keywords jobsInDb r = true ↔
      restricted keywords r = false ∨ unchecked debug r) := fun r hr =>
    keeps_iff fun hmem => hnew (hr ▸ hstored hmem)
  unfold firstKept firstUnrestricted
  cases hfirst : rows.find? fun r => decide (r.id = jid) && !restricted keywords r with
  | none =>
      rw [List.find?_eq_none] at hfirst ⊢
      intro r hr hkept
      simp only [Bool.and_eq_true, decide_eq_true_eq] at hkept
      have hr' : restricted keywords r = true := by simpa [hkept.2] using hfirst r hr
      rcases (hkeeps r hkept.2).mp hkept.1 with hfree | hunchecked
      · rw [hr'] at hfree
        cases hfree
      · -- some unrestricted row would come before it
        obtain ⟨pre, post, hsplit⟩ := List.append_of_mem hr
        obtain ⟨u, hu, hid, hfree⟩ := h pre r post hsplit (hkept.2 ▸ hnew) hr' hunchecked
        have hmem : u ∈ rows := hsplit ▸ List.mem_append_left _ hu
        exact hfirst u hmem (by simp [hid, hkept.2, hfree])
  | some u =>
      rw [List.find?_eq_some_iff_append] at hfirst ⊢
      obtain ⟨hu, pre, post, hsplit, hpre⟩ := hfirst
      simp only [Bool.and_eq_true, decide_eq_true_eq, Bool.not_eq_true'] at hu
      refine ⟨?_, pre, post, hsplit, fun a ha => ?_⟩
      · rw [(hkeeps u hu.1).mpr (Or.inl hu.2), decide_eq_true hu.1]
        rfl
      · rw [Bool.not_eq_true', Bool.eq_false_iff]
        intro hkept
        simp only [Bool.and_eq_true, decide_eq_true_eq] at hkept
        have ha' : restricted keywords a = true := by simpa [hkept.2] using hpre a ha
        rcases (hkeeps a hkept.2).mp hkept.1 with hfree | hunchecked
        · rw [ha'] at hfree
          cases hfree
        · obtain ⟨before, after, hbefore⟩ := List.append_of_mem ha
          have hsplit' : rows = before ++ a :: (after ++ u :: post) := by
            rw [hsplit, hbefore, List.append_assoc, List.cons_append]
          obtain ⟨v, hv, hid, hfree⟩ := h before a _ hsplit' (hkept.2 ▸ hnew) ha' hunchecked
          have hmem : v ∈ pre := hbefore ▸ List.mem_append_left _ hv
          simpa [hid, hkept.2, hfree] using hpre v hmem

/-- The first kept row of a job is not behind a kept row of it. -/
theorem firstKept_of_split {pre post : List AcctRow} {r : AcctRow} (hsplit : rows = pre ++ r :: post)
    (hkept : keeps debug keywords jobsInDb r = true) :
    ∃ k ∈ pre ++ [r], k.id = r.id ∧ firstKept debug keywords jobsInDb rows r.id = some k := by
  have hself : (keeps debug keywords jobsInDb r && decide (r.id = r.id)) = true := by
    rw [hkept, decide_eq_true rfl]
    rfl
  obtain ⟨k, hk⟩ : ∃ k, (pre ++ [r]).find? (fun q => keeps debug keywords jobsInDb q && decide (q.id = r.id)) =
      some k := by
    rw [← Option.isSome_iff_exists, List.find?_isSome]
    exact ⟨r, List.mem_append_right _ (List.mem_singleton.mpr rfl), hself⟩
  have hprop := List.find?_some hk
  simp only [Bool.and_eq_true, decide_eq_true_eq] at hprop
  refine ⟨k, List.mem_of_find?_eq_some hk, hprop.2, ?_⟩
  unfold firstKept
  rw [hsplit, show pre ++ r :: post = (pre ++ [r]) ++ post by rw [List.append_assoc, List.singleton_append],
    List.find?_append, hk, Option.some_or]

end Run

def hourCell (cell : Cell) : Option ℤ :=
  if cell = .text "1970-01-01T00:00:00" then some 0
  else if cell = .text "1970-01-01T01:00:00" then some 3600000000000
  else none

/-- The packages, on one job of an hour on one node. -/
def hourPandas : Pandas ℤ where
  toDatetime _ := some hourCell
  totalSeconds ns := ns / 1000000000
  toTimedelta text := if text = "02:00:00" then some 7200 else none
  nodeHours
    | .text _, _ => none
    | .number q _, some runtime => some (some (q.num * runtime / 3600))
    | _, _ => some none
  expandHostlist text := if text = "c1" then some ["c1"] else none

def hourRow (queue : Cell) : AcctRow where
  jid := .number 601 "601"
  username := .text "alice"
  account := .text "ab12"
  startTime := .text "1970-01-01T00:00:00"
  endTime := .text "1970-01-01T01:00:00"
  submitTime := .text "1970-01-01T00:00:00"
  queue := queue
  timelimit := .text "02:00:00"
  jobname := .text "run"
  state := .text "COMPLETED"
  nhosts := .number 1 "1"
  ncores := .number 8 "8"
  hostList := .text "c1"

def noJobs : JobTable ℤ := ⟨[], List.nodup_nil⟩

/-- What the load of this row leaves. -/
def hourJob (queue : String) : JobRow ℤ where
  jid := "601"
  submitTime := some 0
  startTime := some 0
  endTime := some 3600000000000
  runtime := some 3600
  timelimit := some 7200
  nodeHrs := some 1
  nhosts := some 1
  ncores := some 8
  username := "alice"
  account := some "ab12"
  queue := some queue
  state := some "COMPLETED"
  jobname := some "run"
  hostList := ["c1"]
  later := ⟨none, none, none, none, none⟩

theorem keptRows_hourRow (debug : Bool) (keywords : List String) (h : debug = false ∨ keywords = []) (r : AcctRow) :
    keptRows debug keywords [] [r] = [r] := by
  have hkeeps : keeps debug keywords [] r = true := by
    have hnone : hits debug keywords r.queue 0 = [] := by
      unfold hits
      rcases h with h | h <;> cases r.queue <;> simp [h]
    unfold keeps isin
    rw [hnone]
    cases r.jid <;> simp
  rw [keptRows_eq, List.filter_cons_of_pos hkeeps, List.filter_nil]

theorem buildRow_hourRow (queue : String) :
    buildRow hourPandas ⟨hourCell, hourCell, hourCell⟩ (hourRow (.text queue)) = .ok (hourJob queue) := by
  have hbegin : hourCell (.text "1970-01-01T00:00:00") = some 0 := if_pos rfl
  have hfinish : hourCell (.text "1970-01-01T01:00:00") = some 3600000000000 := by decide
  have hstart : startCell (hourRow (.text queue)) = .text "1970-01-01T00:00:00" := by
    simp [startCell, hourRow]
  have hlimit : acctTimelimitToSeconds hourPandas (.text "02:00:00") = some 7200 := by decide +kernel
  have hnhosts : (Cell.number 1 "1").intOrNone = some (some 1) := by decide +kernel
  have hncores : (Cell.number 8 "8").intOrNone = some (some 8) := by decide +kernel
  have hruntime : ((some (0 : ℤ)).bind fun a =>
      Option.map (fun b => hourPandas.totalSeconds (b - a)) (some 3600000000000)) = some 3600 := by decide
  have hhours : hourPandas.nodeHours (.number 1 "1") (some 3600) = some (some 1) := by decide +kernel
  have hhosts : withHosts hourPandas (hourRow (.text queue)) = .ok (hourRow (.text queue), ["c1"]) := by rfl
  rw [buildRow, hhosts, ok_bind]
  unfold withHours
  dsimp only
  rw [hstart]
  dsimp only [hourRow]
  rw [hbegin, hfinish, hlimit, hruntime, hhours]
  dsimp only
  rw [ok_bind]
  unfold toJob jobDataInstanceFromAcctRow
  dsimp only
  rw [hnhosts, hncores]
  rfl

/-- The load of one row that the filter does not look at. -/
theorem syncAcctDataframe_hourRow {debug : Bool} {keywords : List String} (h : debug = false ∨ keywords = [])
    (queue : String) :
    syncAcctDataframe hourPandas (fun _ => true) debug keywords noJobs [] [hourRow (.text queue)] =
      .ok ⟨⟨[hourJob queue], List.nodup_singleton _⟩, 1, false⟩ := by
  have hkept := keptRows_hourRow debug keywords h (hourRow (.text queue))
  have hrow := buildRow_hourRow queue
  unfold buildRow at hrow
  obtain ⟨e, he, hrow⟩ := bind_eq_ok.mp hrow
  obtain ⟨row, hproc, hjob⟩ := bind_eq_ok.mp hrow
  have hreaders : readTimes hourPandas [hourRow (.text queue)] = some ⟨hourCell, hourCell, hourCell⟩ := rfl
  have hhosts : [hourRow (.text queue)].mapM (withHosts hourPandas) = .ok [e] :=
    mapM_eq_ok_iff.mpr (List.Forall₂.cons he List.Forall₂.nil)
  have hprocs : [e].mapM (withHours hourPandas ⟨hourCell, hourCell, hourCell⟩) = .ok [row] :=
    mapM_eq_ok_iff.mpr (List.Forall₂.cons hproc List.Forall₂.nil)
  have hobjs : [row].mapM toJob = .ok [hourJob queue] :=
    mapM_eq_ok_iff.mpr (List.Forall₂.cons hjob List.Forall₂.nil)
  unfold syncAcctDataframe
  dsimp only
  rw [hkept, hreaders]
  dsimp only
  rw [hhosts, ok_bind, hprocs, ok_bind, hobjs, ok_bind]
  rfl

end AcctIngest
