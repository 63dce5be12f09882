/-
# Inserting jobs into `job_data` (`sync_acct.py`)

The last step of loading an accounting table.  `bulk_create(ignore_conflicts=True)` adds the jobs whose id the
table has not; when it raises, `_insert_job_data_individually` saves the rows one by one and counts on an
`IntegrityError` for a job that is there.  `save()` raises none: with a primary key that is stored it updates
the row, in every column.

* `jobDataInstanceFromAcctRow` builds an unsaved job; a new one has nothing in the columns that are filled
  after the load (`Later`)
* `bulkCreateJobData` and `insertJobDataIndividually` are the two arms, `FallbackAgrees` compares them
* `fallbackAgrees_iff`: the condition on the batch under which the fallback does as the bulk insert would
-/
import HpcPerfStats.PyText
import HpcPerfStats.UniqueInsert
import Mathlib.Data.Rat.Floor

namespace JobDataInsert

open PyText KeyedList UniqueInsert

/-! ## Jobs -/

/-- A cell of an accounting table; a number keeps its printed form. -/
inductive Cell where
  | missing
  | text (s : String)
  | number (q : ℚ) (printed : String)
  deriving DecidableEq

namespace Cell

/-- `str(cell)`. -/
def str : Cell → String
  | missing => "nan"
  | text s => s
  | number _ printed => printed

/-- `cell if pd.notna(cell) else None`, as a text column stores it. -/
def orNone : Cell → Option String
  | missing => none
  | text s => some s
  | number _ printed => some printed

/-- `int(cell) if pd.notna(cell) else None`; `none` when `int` raises. -/
def intOrNone : Cell → Option (Option ℤ)
  | missing => some none
  | text s => (pyInt s).map some
  | number q _ => some (some (if 0 ≤ q then ⌊q⌋ else ⌈q⌉))

end Cell

/-- A row of the accounting table behind its column conversions. -/
structure ProcRow (F : Type) where
  jid : String
  username : Cell
  account : Cell
  startTime : Option ℤ
  endTime : Option ℤ
  submitTime : Option ℤ
  queue : Cell
  timelimit : Option F
  jobname : Cell
  state : Cell
  nhosts : Cell
  ncores : Cell
  hostList : List String
  runtime : Option F
  nodeHrs : Option F

/-- The columns of `job_data` that no accounting row fills. -/
structure Later where
  qos : Option String
  metricsDistinctTimeCount : Option ℤ
  telemetryFirstTime : Option ℤ
  telemetryLastTime : Option ℤ
  hostDataSchemaJson : Option String
  deriving DecidableEq

/-- A row of `job_data`. -/
structure JobRow (F : Type) where
  jid : String
  submitTime : Option ℤ
  startTime : Option ℤ
  endTime : Option ℤ
  runtime : Option F
  timelimit : Option F
  nodeHrs : Option F
  nhosts : Option ℤ
  ncores : Option ℤ
  username : String
  account : Option String
  queue : Option String
  state : Option String
  jobname : Option String
  hostList : List String
  later : Later

variable {F : Type}

/-- `job_data_instance_from_acct_row`; `none` when `int` raises. -/
def jobDataInstanceFromAcctRow (row : ProcRow F) : Option (JobRow F) := do
  let nhosts ← row.nhosts.intOrNone
  let ncores ← row.ncores.intOrNone
  some
    { jid := row.jid
      submitTime := row.submitTime
      startTime := row.startTime
      endTime := row.endTime
      runtime := row.runtime
      timelimit := row.timelimit
      nodeHrs := row.nodeHrs
      nhosts := nhosts
      ncores := ncores
      username := row.username.str
      account := row.account.orNone
      queue := row.queue.orNone
      state := row.state.orNone
      jobname := row.jobname.orNone
      hostList := row.hostList
      later := ⟨none, none, none, none, none⟩ }

/-- `job_data`, with its primary key. -/
structure JobTable (F : Type) where
  rows : List (JobRow F)
  nodup : (rows.map JobRow.jid).Nodup

/-- The ids that are stored. -/
def JobTable.jids (t : JobTable F) : List String := t.rows.map JobRow.jid

/-! ## The arms -/

/-- The columns take the row: lengths, and what is not NULL. -/
abbrev Accepts (F : Type) := JobRow F → Bool

variable (accepts : Accepts F)

/-- `bulk_create(objs, ignore_conflicts=True)`; `none` when it raises, which leaves the table as it is. -/
def bulkCreate (t : JobTable F) (objs : List (JobRow F)) : Option (JobTable F) :=
  if objs.all accepts then some ⟨insertRows JobRow.jid (fun _ => false) t.rows objs, nodup_insertRows _ t.nodup objs⟩
  else none

/-- `job_data.objects.filter(jid__in=jids)`, its ids. -/
def jidsIn (t : JobTable F) (jids : List String) : List String := t.jids.filter fun j => decide (j ∈ jids)

/-- The bulk arm with the number of new jobs, counted from the ids before and after. -/
def bulkCreateJobData (t : JobTable F) (objs : List (JobRow F)) : Option (JobTable F × ℕ) :=
  let jids := objs.map JobRow.jid
  let jidsBefore := jidsIn t jids
  (bulkCreate accepts t objs).map fun t' =>
    (t', ((jidsIn t' jids).filter fun j => decide (j ∉ jidsBefore)).length)

/-- `obj.save()`, an update where the id is stored; `none` when it raises. -/
def save (t : JobTable F) (obj : JobRow F) : Option (JobTable F) :=
  if accepts obj then some ⟨upsertRow JobRow.jid t.rows obj, nodup_upsertRow _ t.nodup obj⟩ else none

/-- The state of the loop of `_insert_job_data_individually`. -/
structure Saved (F : Type) where
  table : JobTable F
  inserted : ℕ
  savedObjs : List (JobRow F)

/-- One turn; every exception skips the row. -/
def saveRow (s : Saved F) (row : ProcRow F) : Saved F :=
  match (jobDataInstanceFromAcctRow row).bind fun obj => (save accepts s.table obj).map fun t => (t, obj) with
  | none => s
  | some (t, obj) => ⟨t, s.inserted + 1, s.savedObjs ++ [obj]⟩

/-- `_insert_job_data_individually`. -/
def insertJobDataIndividually (t : JobTable F) (rows : List (ProcRow F)) : Saved F :=
  rows.foldl (saveRow accepts) ⟨t, 0, []⟩

/-! ## What a run of the fallback leaves -/

theorem saveRow_eq {s : Saved F} {row : ProcRow F} {obj : JobRow F} (h : jobDataInstanceFromAcctRow row = some obj) :
    (saveRow accepts s row).table.rows = upsertRows JobRow.jid s.table.rows ([obj].filter accepts) ∧
      (saveRow accepts s row).inserted = s.inserted + ([obj].filter accepts).length ∧
      (saveRow accepts s row).savedObjs = s.savedObjs ++ [obj].filter accepts := by
  unfold saveRow save
  rw [h, Option.bind_some]
  by_cases hacc : accepts obj = true
  · rw [if_pos hacc, List.filter_cons_of_pos hacc]
    exact ⟨rfl, rfl, rfl⟩
  · rw [if_neg hacc, List.filter_cons_of_neg hacc]
    exact ⟨rfl, rfl, (List.append_nil _).symm⟩

theorem foldl_saveRow (rows : List (ProcRow F)) : ∀ (objs : List (JobRow F)) (s : Saved F),
    rows.mapM jobDataInstanceFromAcctRow = some objs →
    (rows.foldl (saveRow accepts) s).table.rows = upsertRows JobRow.jid s.table.rows (objs.filter accepts) ∧
      (rows.foldl (saveRow accepts) s).inserted = s.inserted + (objs.filter accepts).length ∧
      (rows.foldl (saveRow accepts) s).savedObjs = s.savedObjs ++ objs.filter accepts := by
  induction rows with
  | nil =>
      intro objs s hobjs
      obtain rfl : objs = [] := by simpa using hobjs.symm
      exact ⟨rfl, rfl, (List.append_nil _).symm⟩
  | cons row rows ih =>
      intro objs s hobjs
      rw [List.mapM_cons] at hobjs
      obtain ⟨obj, hobj, rest, hrest, rfl⟩ : ∃ obj, jobDataInstanceFromAcctRow row = some obj ∧
          ∃ rest, rows.mapM jobDataInstanceFromAcctRow = some rest ∧ obj :: rest = objs := by
        simpa [Option.bind_eq_some_iff] using hobjs
      obtain ⟨htable, hcount, hsaved⟩ := saveRow_eq accepts (s := s) hobj
      obtain ⟨htable', hcount', hsaved'⟩ := ih rest (saveRow accepts s row) hrest
      have hsplit : (obj :: rest).filter accepts = [obj].filter accepts ++ rest.filter accepts := by
        rw [← List.filter_append, List.singleton_append]
      rw [List.foldl_cons, htable', hcount', hsaved', htable, hcount, hsaved, hsplit]
      refine ⟨?_, ?_, ?_⟩
      · exact (List.foldl_append ..).symm
      · rw [List.length_append]
        omega
      · rw [List.append_assoc]

/-- **The fallback saves every row that the columns take**, in the order of the table. -/
theorem insertJobDataIndividually_eq {rows : List (ProcRow F)} {objs : List (JobRow F)}
    (h : rows.mapM jobDataInstanceFromAcctRow = some objs) (t : JobTable F) :
    (insertJobDataIndividually accepts t rows).table.rows = upsertRows JobRow.jid t.rows (objs.filter accepts) ∧
      (insertJobDataIndividually accepts t rows).inserted = (objs.filter accepts).length ∧
      (insertJobDataIndividually accepts t rows).savedObjs = objs.filter accepts := by
  obtain ⟨htable, hcount, hsaved⟩ := foldl_saveRow accepts rows objs ⟨t, 0, []⟩ h
  refine ⟨htable, ?_, hsaved⟩
  rw [insertJobDataIndividually, hcount]
  exact Nat.zero_add _

/-! ## What the bulk insert leaves -/

/-- **The bulk insert counts what it appends.** -/
theorem bulkCreateJobData_eq_some {t t' : JobTable F} {objs : List (JobRow F)} {n : ℕ}
    (h : bulkCreateJobData accepts t objs = some (t', n)) :
    (∀ o ∈ objs, accepts o = true) ∧ t'.rows = insertRows JobRow.jid (fun _ => false) t.rows objs ∧
      ∃ news : List (JobRow F), news.Sublist objs ∧ t'.rows = t.rows ++ news ∧ n = news.length := by
  unfold bulkCreateJobData bulkCreate at h
  split_ifs at h with hall
  · simp only [Option.map_some, Option.some.injEq, Prod.mk.injEq] at h
    obtain ⟨rfl, rfl⟩ := h
    obtain ⟨news, hsub, hrows⟩ := insertRows_eq_append JobRow.jid (fun _ => false) objs t.rows
    refine ⟨List.all_eq_true.mp hall, rfl, news, hsub, hrows, ?_⟩
    have hnodup := nodup_insertRows JobRow.jid t.nodup objs
    rw [hrows, List.map_append, List.nodup_append] at hnodup
    -- of the ids after the insert, the old ones were there before and the new ones were not
    have hold : ((t.jids.filter fun j => decide (j ∈ objs.map JobRow.jid)).filter fun j =>
        decide (j ∉ jidsIn t (objs.map JobRow.jid))) = [] := by
      rw [List.filter_eq_nil_iff]
      intro j hj hout
      exact of_decide_eq_true hout hj
    have hnew : (((news.map JobRow.jid).filter fun j => decide (j ∈ objs.map JobRow.jid)).filter fun j =>
        decide (j ∉ jidsIn t (objs.map JobRow.jid))) = news.map JobRow.jid := by
      rw [List.filter_filter, List.filter_eq_self]
      intro j hj
      have hin : j ∈ objs.map JobRow.jid := (hsub.map JobRow.jid).subset hj
      have hfresh : j ∉ jidsIn t (objs.map JobRow.jid) := by
        intro hmem
        exact hnodup.2.2 j (List.mem_filter.mp hmem).1 j hj rfl
      simp [hin, hfresh]
    unfold jidsIn JobTable.jids at hold hnew ⊢
    show (List.filter _ (List.filter _ ((insertRows JobRow.jid (fun _ => false) t.rows objs).map JobRow.jid))).length = _
    rw [hrows, List.map_append, List.filter_append, List.filter_append, hold, hnew, List.nil_append,
      List.length_map]
  · cases h

/-! ## Both arms -/

/-- The fallback does as the bulk insert would, and neither touches a job that is stored. -/
structure FallbackAgrees (t : JobTable F) (rows : List (ProcRow F)) (objs : List (JobRow F)) : Prop where
  same : ∀ t' n, bulkCreateJobData accepts t objs = some (t', n) →
    (insertJobDataIndividually accepts t rows).table.rows.Perm t'.rows ∧
      (insertJobDataIndividually accepts t rows).inserted = n
  fallback_keeps : ∀ r ∈ t.rows, r ∈ (insertJobDataIndividually accepts t rows).table.rows
  bulk_keeps : ∀ t' n, bulkCreateJobData accepts t objs = some (t', n) → ∀ r ∈ t.rows, r ∈ t'.rows

/-- The ids of the batch are distinct and new.  Where the bulk insert would raise again, the last row of a
stored job that the columns take repeats what is stored. -/
def BatchOk (t : JobTable F) (objs : List (JobRow F)) : Prop :=
  ((∀ o ∈ objs, accepts o = true) → (objs.map JobRow.jid).Nodup ∧ ∀ o ∈ objs, o.jid ∉ t.jids) ∧
    ((∃ o ∈ objs, accepts o = false) → ∀ r ∈ t.rows, ∀ o,
      (part JobRow.jid r.jid (objs.filter accepts)).getLast? = some o → o = r)

theorem nodup_append_iff {t : JobTable F} {objs : List (JobRow F)} :
    ((t.rows ++ objs).map JobRow.jid).Nodup ↔ (objs.map JobRow.jid).Nodup ∧ ∀ o ∈ objs, o.jid ∉ t.jids := by
  rw [List.map_append, List.nodup_append]
  constructor
  · rintro ⟨-, hobjs, hapart⟩
    exact ⟨hobjs, fun o ho hmem => hapart _ hmem _ (List.mem_map_of_mem ho) rfl⟩
  · rintro ⟨hobjs, hfresh⟩
    refine ⟨t.nodup, hobjs, ?_⟩
    rintro a ha b hb rfl
    obtain ⟨o, ho, rfl⟩ := List.mem_map.mp hb
    exact hfresh o ho ha

theorem bulkCreateJobData_keeps {t t' : JobTable F} {objs : List (JobRow F)} {n : ℕ}
    (h : bulkCreateJobData accepts t objs = some (t', n)) : ∀ r ∈ t.rows, r ∈ t'.rows := by
  obtain ⟨-, -, news, -, hrows, -⟩ := bulkCreateJobData_eq_some accepts h
  intro r hr
  rw [hrows]
  exact List.mem_append_left news hr

/-- A stored job comes through the fallback when the last row that is saved for it repeats it. -/
theorem stored_kept_iff {rows : List (ProcRow F)} {objs : List (JobRow F)}
    (h : rows.mapM jobDataInstanceFromAcctRow = some objs) (t : JobTable F) {r : JobRow F} (hr : r ∈ t.rows) :
    r ∈ (insertJobDataIndividually accepts t rows).table.rows ↔
      ∀ o, (part JobRow.jid r.jid (objs.filter accepts)).getLast? = some o → o = r := by
  have hmem : r ∈ (insertJobDataIndividually accepts t rows).table.rows ↔
      r ∈ part JobRow.jid r.jid (upsertRows JobRow.jid t.rows (objs.filter accepts)) := by
    rw [mem_part, (insertJobDataIndividually_eq accepts h t).1]
    exact ⟨fun hin => ⟨hin, rfl⟩, fun hin => hin.1⟩
  rw [hmem, part_upsertRows JobRow.jid r.jid _ t.nodup]
  cases hlast : (part JobRow.jid r.jid (objs.filter accepts)).getLast? with
  | none =>
      -- no row of the batch touches the job
      refine ⟨fun _ o ho => (by cases ho), fun _ => ?_⟩
      exact (mem_part JobRow.jid).mpr ⟨hr, rfl⟩
  | some o =>
      show r ∈ [o] ↔ _
      rw [List.mem_singleton]
      exact ⟨fun heq o' ho' => (Option.some.inj ho').symm.trans heq.symm, fun heq => (heq o rfl).symm⟩

/-- A batch that the columns take: the bulk insert goes through, so that its count and its table are to be
met. -/
theorem fallbackAgrees_iff_of_accepted (t : JobTable F) {rows : List (ProcRow F)} {objs : List (JobRow F)}
    (h : rows.mapM jobDataInstanceFromAcctRow = some objs) (hall : ∀ o ∈ objs, accepts o = true) :
    FallbackAgrees accepts t rows objs ↔ (objs.map JobRow.jid).Nodup ∧ ∀ o ∈ objs, o.jid ∉ t.jids := by
  obtain ⟨htable, hcount, -⟩ := insertJobDataIndividually_eq accepts h t
  rw [List.filter_eq_self.mpr hall] at htable hcount
  obtain ⟨t', n, hbulk⟩ : ∃ t' n, bulkCreateJobData accepts t objs = some (t', n) := by
    unfold bulkCreateJobData bulkCreate
    rw [if_pos (List.all_eq_true.mpr hall)]
    exact ⟨_, _, rfl⟩
  obtain ⟨-, hrows, news, hsub, happ, hn⟩ := bulkCreateJobData_eq_some accepts hbulk
  constructor
  · intro hagrees
    obtain ⟨-, hcounts⟩ := hagrees.same t' n hbulk
    rw [hcount, hn] at hcounts
    -- the counts agree only when the bulk insert has skipped nothing
    have hnews : news = objs := hsub.eq_of_length hcounts.symm
    apply nodup_append_iff.mp
    rw [← hnews, ← happ]
    exact t'.nodup
  · intro hok
    obtain ⟨hins, hups⟩ := insertRows_eq_append_of_nodup JobRow.jid (nodup_append_iff.mpr hok)
    refine ⟨?_, ?_, fun t₁ n₁ hbulk₁ => bulkCreateJobData_keeps accepts hbulk₁⟩
    · intro t₁ n₁ hbulk₁
      rw [hbulk] at hbulk₁
      cases hbulk₁
      rw [hins] at hrows
      have hnews : objs = news := List.append_cancel_left (hrows.symm.trans happ)
      rw [htable, hups, hrows, hcount, hn, hnews]
      exact ⟨List.Perm.refl _, rfl⟩
    · intro r hr
      rw [htable, hups]
      exact List.mem_append_left objs hr

/-- A batch that the columns refuse: the bulk insert raises again, and only the stored jobs count. -/
theorem fallbackAgrees_iff_of_refused (t : JobTable F) {rows : List (ProcRow F)} {objs : List (JobRow F)}
    (h : rows.mapM jobDataInstanceFromAcctRow = some objs) (hrefused : ∃ o ∈ objs, accepts o = false) :
    FallbackAgrees accepts t rows objs ↔
      ∀ r ∈ t.rows, ∀ o, (part JobRow.jid r.jid (objs.filter accepts)).getLast? = some o → o = r := by
  have hnone : bulkCreateJobData accepts t objs = none := by
    obtain ⟨o, ho, hfalse⟩ := hrefused
    unfold bulkCreateJobData bulkCreate
    rw [if_neg fun hc => Bool.false_ne_true (hfalse.symm.trans (List.all_eq_true.mp hc o ho))]
    rfl
  constructor
  · exact fun hagrees r hr => (stored_kept_iff accepts h t hr).mp (hagrees.fallback_keeps r hr)
  · intro hok
    refine ⟨?_, fun r hr => (stored_kept_iff accepts h t hr).mpr (hok r hr), ?_⟩
    · intro t' n hbulk
      rw [hnone] at hbulk
      cases hbulk
    · intro t' n hbulk
      rw [hnone] at hbulk
      cases hbulk

/-- **The fallback does as the bulk insert would exactly for these batches.** -/
theorem fallbackAgrees_iff (t : JobTable F) {rows : List (ProcRow F)} {objs : List (JobRow F)}
    (h : rows.mapM jobDataInstanceFromAcctRow = some objs) :
    FallbackAgrees accepts t rows objs ↔ BatchOk accepts t objs := by
  by_cases hall : ∀ o ∈ objs, accepts o = true
  · rw [fallbackAgrees_iff_of_accepted accepts t h hall]
    constructor
    · intro hok
      refine ⟨fun _ => hok, ?_⟩
      rintro ⟨o, ho, hrefused⟩
      rw [hall o ho] at hrefused
      cases hrefused
    · exact fun hok => hok.1 hall
  · have hexists : ∃ o ∈ objs, accepts o = false := by
      push Not at hall
      obtain ⟨o, ho, hrefused⟩ := hall
      exact ⟨o, ho, Bool.eq_false_iff.mpr hrefused⟩
    rw [fallbackAgrees_iff_of_refused accepts t h hexists]
    exact ⟨fun hok => ⟨fun hacc => absurd hacc hall, fun _ => hok⟩, fun hok => hok.2 hexists⟩

/-- A finished job as the accounting table has it. -/
def finishedRow : ProcRow ℚ where
  jid := "601"
  username := .text "alice"
  account := .text "ab12"
  startTime := some 0
  endTime := some 3600
  submitTime := some 0
  queue := .text "batch"
  timelimit := some 7200
  jobname := .text "run"
  state := .text "COMPLETED"
  nhosts := .number 2 "2"
  ncores := .number 8 "8"
  hostList := ["c1", "c2"]
  runtime := some 3600
  nodeHrs := some 2

/-- The job of that row, with what was filled in after the load. -/
def finishedJob (later : Later) : JobRow ℚ where
  jid := "601"
  submitTime := some 0
  startTime := some 0
  endTime := some 3600
  runtime := some 3600
  timelimit := some 7200
  nodeHrs := some 2
  nhosts := some 2
  ncores := some 8
  username := "alice"
  account := some "ab12"
  queue := some "batch"
  state := some "COMPLETED"
  jobname := some "run"
  hostList := ["c1", "c2"]
  later := later

theorem jobDataInstance_finishedRow :
    [finishedRow].mapM jobDataInstanceFromAcctRow = some [finishedJob ⟨none, none, none, none, none⟩] := by
  have hnhosts : (Cell.number 2 "2").intOrNone = some (some 2) := by decide +kernel
  have hncores : (Cell.number 8 "8").intOrNone = some (some 8) := by decide +kernel
  have hrow : jobDataInstanceFromAcctRow finishedRow = some (finishedJob ⟨none, none, none, none, none⟩) := by
    unfold jobDataInstanceFromAcctRow finishedRow
    simp only [hnhosts, hncores, Option.bind_eq_bind, Option.bind_some]
    rfl
  simp [hrow]

theorem fallbackAgrees_new_job :
    FallbackAgrees (fun _ => true) ⟨[], List.nodup_nil⟩ [finishedRow] [finishedJob ⟨none, none, none, none, none⟩] := by
  rw [fallbackAgrees_iff (fun _ => true) ⟨[], List.nodup_nil⟩ jobDataInstance_finishedRow]
  refine ⟨fun _ => ⟨List.nodup_singleton _, fun o _ => List.not_mem_nil⟩, ?_⟩
  rintro ⟨o, -, hrefused⟩
  cases hrefused

/-- A stored job loses what was filled in after its load, and counts as new. -/
theorem not_fallbackAgrees : ¬ ∀ (t : JobTable ℚ) (rows : List (ProcRow ℚ)) (objs : List (JobRow ℚ)),
    rows.mapM jobDataInstanceFromAcctRow = some objs → FallbackAgrees (fun _ => true) t rows objs := by
  intro h
  have hkeeps := (h ⟨[finishedJob ⟨none, some 6, none, none, none⟩], List.nodup_singleton _⟩ [finishedRow] _
    jobDataInstance_finishedRow).fallback_keeps _ (List.mem_singleton.mpr rfl)
  rw [(insertJobDataIndividually_eq (fun _ => true) jobDataInstance_finishedRow _).1] at hkeeps
  have hlater : (⟨none, some 6, none, none, none⟩ : Later) ∈
      (upsertRows JobRow.jid [finishedJob ⟨none, some 6, none, none, none⟩]
        [finishedJob ⟨none, none, none, none, none⟩]).map JobRow.later := List.mem_map.mpr ⟨_, hkeeps, rfl⟩
  revert hlater
  decide

end JobDataInsert
