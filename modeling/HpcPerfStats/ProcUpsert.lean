/-
# Process rows of the database (`proc_data`)

Samples of one process name are merged twice: in Python, sample by sample, until a batch is flushed
(`dedupe_proc_stats_peak_merge`), and in SQL, batch by batch, when a row is there already (the `ON CONFLICT`
clause of the COPY path, or a read of the old row and an overwrite on the ORM path).  Peak columns keep the
largest value; the other columns take the value written last.  A field that a sample lacks is left alone by
the merge in Python, but is a NULL for SQL.

* `Sample` is a parsed row, whose fields may be absent, `None` or a number; `ProcRow` a row of the table;
* `rowOf` is the row that is wanted for the samples of one key: `peakOver` and `lastValue` say what its
  columns hold;
* `lastPart` has the samples of a key in the last batch that has any, and `FieldsKept` says that a field which
  they all lack has no value from before.

The main result is `upsert_batches_iff`: the rows after all batches are those of the single merge exactly when
`FieldsKept`; the peaks are right for every order of the batches, and the two paths agree.
-/
import Mathlib.Data.List.Basic
import Mathlib.Data.List.Flatten
import Mathlib.Data.List.Induction
import Mathlib.Data.List.Perm.Basic
import Mathlib.Logic.Function.Basic
import Mathlib.Order.MinMax
import HpcPerfStats.KeyedList
import HpcPerfStats.OrderedDict
import HpcPerfStats.PyDict

namespace ProcUpsert

open KeyedList

/-! ## Fields and rows -/

/-- `HOST_PROC_KEYS`. -/
inductive Field where
  | uid | vm_peak | vm_size | vm_lck | vm_hwm | vm_rss | vm_data | vm_stk | vm_exe | vm_lib | vm_pte
  | vm_swap | threads
  deriving DecidableEq, Repr

def hostProcKeys : List Field :=
  [.uid, .vm_peak, .vm_size, .vm_lck, .vm_hwm, .vm_rss, .vm_data, .vm_stk, .vm_exe, .vm_lib, .vm_pte,
    .vm_swap, .threads]

theorem mem_hostProcKeys (f : Field) : f ∈ hostProcKeys := by
  cases f <;> decide

/-- `HOST_PROC_PEAK_KEYS`. -/
def Field.peak : Field → Bool
  | .vm_peak => true
  | .vm_hwm => true
  | .vm_stk => true
  | .vm_exe => true
  | .vm_lib => true
  | _ => false

/-- The unique key of a row. -/
structure ProcKey where
  jid : String
  host : String
  proc : String
  deriving DecidableEq, Repr

/-- A parsed row.  A field may be absent (`none`), `None` (`some none`) or a number. -/
structure Sample where
  key : ProcKey
  device : String
  fields : Field → Option (Option ℤ)

/-- A row of `proc_data`, apart from its key. -/
structure ProcRow where
  device : Option String
  cols : Field → Option ℤ

/-- The table. -/
abbrev Table := ProcKey → Option ProcRow

/-! ## Merging in Python -/

/-- `_nullable_int_max`. -/
def nullableIntMax (left right : Option ℤ) : Option ℤ :=
  match left, right with
  | none, _ => right
  | some l, none => some l
  | some l, some r => some (if l ≥ r then l else r)

/-- `merge_proc_row_dicts`. -/
def mergeProcRowDicts (earlier later : Sample) : Sample :=
  { later with
    fields := fun f =>
      match later.fields f with
      | none => earlier.fields f
      | some value => some (if f.peak then nullableIntMax (earlier.fields f).join value else value) }

/-- One sample of `dedupe_proc_stats_peak_merge` or `_merge_proc_row_online`. -/
def mergeInto (byKey : List (ProcKey × Sample)) (row : Sample) : List (ProcKey × Sample) :=
  match byKey.lookup row.key with
  | some existing => PyDict.set byKey row.key (mergeProcRowDicts existing row)
  | none => PyDict.set byKey row.key row

def mergedByKey (samples : List Sample) : List (ProcKey × Sample) :=
  samples.foldl mergeInto []

/-- `dedupe_proc_stats_peak_merge`. -/
def dedupeProcStatsPeakMerge (samples : List Sample) : List Sample :=
  (mergedByKey samples).map Prod.snd

/-- `_proc_data_row_kwargs`, and a line of `_proc_frame_to_copy_bytes`: a field that is absent is NULL. -/
def procDataRowKwargs (row : Sample) : ProcRow :=
  ⟨some row.device, fun f => (row.fields f).join⟩

/-! ## Merging in SQL -/

/-- `GREATEST`, which ignores nulls. -/
def greatest (a b : Option ℤ) : Option ℤ :=
  match a, b with
  | none, _ => b
  | some a, none => some a
  | some a, some b => some (max a b)

/-- The `WHERE` of the update: a column would change. -/
def rewrites (old new : ProcRow) : Bool :=
  decide (old.device ≠ new.device) || hostProcKeys.any fun f =>
    if f.peak then
      match old.cols f, new.cols f with
      | _, none => false
      | none, some _ => true
      | some o, some n => decide (o < n)
    else decide (old.cols f ≠ new.cols f)

/-- `ON CONFLICT (jid, host, proc) DO UPDATE`. -/
def stageUpsert (old : Option ProcRow) (new : ProcRow) : ProcRow :=
  match old with
  | none => new
  | some old =>
      if rewrites old new then
        ⟨new.device, fun f => if f.peak then greatest (old.cols f) (new.cols f) else new.cols f⟩
      else old

/-- One row of the stage. -/
def upsertRow (t : Table) (row : Sample) : Table :=
  Function.update t row.key (some (stageUpsert (t row.key) (procDataRowKwargs row)))

/-- `bulk_insert_proc_rows` of one peak-merged batch. -/
def bulkInsertProcRows (t : Table) (samples : List Sample) : Table :=
  (dedupeProcStatsPeakMerge samples).foldl upsertRow t

/-- Batch after batch. -/
def upsertBatches (t : Table) (batches : List (List Sample)) : Table :=
  batches.foldl bulkInsertProcRows t

/-! ## The ORM path -/

/-- `apply_proc_peak_attrs_from_earlier`. -/
def applyProcPeakAttrsFromEarlier (earlier later : ProcRow) : ProcRow :=
  { later with
    cols := fun f => if f.peak then nullableIntMax (earlier.cols f) (later.cols f) else later.cols f }

/-- `proc_objs` of a batch. -/
def procObjs (samples : List Sample) : List (ProcKey × ProcRow) :=
  (dedupeProcStatsPeakMerge samples).map fun row => (row.key, procDataRowKwargs row)

/-- `l[i : i + size] for i in range(0, len(l), size)`. -/
def slices (size : ℕ) (l : List String) : List (List String) :=
  (List.range ((l.length + size - 1) / size)).map fun i => (l.drop (i * size)).take size

/-- The rows of one host that are read from the table, in slices of the names; a slice has at least one. -/
def existingRows (t : Table) (chunkSize : ℕ) (jid host : String) (procs : List String) :
    List (ProcKey × ProcRow) :=
  (slices (max 1 chunkSize) procs).flatMap fun part =>
    part.filterMap fun proc => (t ⟨jid, host, proc⟩).map fun row => (⟨jid, host, proc⟩, row)

/-- All rows of the table that have the key of an object. -/
def existing (t : Table) (chunkSize : ℕ) (objs : List (ProcKey × ProcRow)) : List (ProcKey × ProcRow) :=
  (groupOn (fun o : ProcKey × ProcRow => (o.1.jid, o.1.host))
    (fun jh group => existingRows t chunkSize jh.1 jh.2 (groupKeys (fun o => o.1.proc) group))
    objs).flatten

/-- `peak_merge_proc_objs_with_existing`. -/
def peakMergeProcObjsWithExisting (t : Table) (chunkSize : ℕ) (objs : List (ProcKey × ProcRow)) :
    List (ProcKey × ProcRow) :=
  objs.map fun o =>
    match (existing t chunkSize objs).lookup o.1 with
    | none => o
    | some prior => (o.1, applyProcPeakAttrsFromEarlier prior o.2)

/-- `bulk_create_proc_data_update_conflicts`: every column is overwritten. -/
def bulkCreateProcData (t : Table) (objs : List (ProcKey × ProcRow)) : Table :=
  objs.foldl (fun t o => Function.update t o.1 (some o.2)) t

/-- Read the existing rows, merge, overwrite. -/
def ormBatch (chunkSize : ℕ) (t : Table) (samples : List Sample) : Table :=
  bulkCreateProcData t (peakMergeProcObjsWithExisting t chunkSize (procObjs samples))

def ormBatches (chunkSize : ℕ) (t : Table) (batches : List (List Sample)) : Table :=
  batches.foldl (ormBatch chunkSize) t

/-! ## The row that is wanted -/

/-- The value that the samples write to a field last, if any has the field. -/
def lastValue (f : Field) (samples : List Sample) : Option (Option ℤ) :=
  samples.foldl (fun v s => (s.fields f).or v) none

/-- The largest value of a field over the samples. -/
def peakOver (f : Field) (samples : List Sample) : Option ℤ :=
  samples.foldl (fun m s => greatest m (s.fields f).join) none

/-- The row for the samples of one key, over the row that was there. -/
def rowOf (old : Option ProcRow) (samples : List Sample) : Option ProcRow :=
  match samples.getLast? with
  | none => old
  | some last =>
      some ⟨some last.device, fun f =>
        if f.peak then greatest (old.bind (·.cols f)) (peakOver f samples)
        else (lastValue f samples).join⟩

/-- The table that is wanted after the samples. -/
def wanted (t : Table) (samples : List Sample) : Table :=
  fun k => rowOf (t k) (part Sample.key k samples)

/-! ## One key of a batch -/

/-- The merge of the samples of one key. -/
def mergeList (samples : List Sample) : Option Sample :=
  samples.foldl (fun acc s => some (acc.elim s fun e => mergeProcRowDicts e s)) none

theorem lookup_mergeInto (byKey : List (ProcKey × Sample)) (s : Sample) (k : ProcKey) :
    (mergeInto byKey s).lookup k =
      if s.key = k then some ((byKey.lookup k).elim s fun e => mergeProcRowDicts e s)
      else byKey.lookup k := by
  unfold mergeInto
  by_cases hk : s.key = k
  · subst hk
    rw [if_pos rfl]
    cases hlookup : byKey.lookup s.key with
    | none => exact PyDict.lookup_set_self ..
    | some existing => exact PyDict.lookup_set_self ..
  · rw [if_neg hk]
    cases hlookup : byKey.lookup s.key with
    | none => exact PyDict.lookup_set_of_ne _ _ (Ne.symm hk)
    | some existing => exact PyDict.lookup_set_of_ne _ _ (Ne.symm hk)

/-- The merged row of a key is the merge of its samples. -/
theorem lookup_mergedByKey (samples : List Sample) (k : ProcKey) :
    (mergedByKey samples).lookup k = mergeList (part Sample.key k samples) := by
  have hgeneral : ∀ (samples : List Sample) (d : List (ProcKey × Sample)),
      (samples.foldl mergeInto d).lookup k =
        (part Sample.key k samples).foldl
          (fun acc s => some (acc.elim s fun e => mergeProcRowDicts e s)) (d.lookup k) := by
    intro samples
    induction samples with
    | nil => exact fun d => rfl
    | cons s rest ih =>
        intro d
        rw [List.foldl_cons, ih, lookup_mergeInto]
        by_cases hk : s.key = k
        · subst hk
          rw [if_pos rfl, part_cons_self, List.foldl_cons]
        · rw [if_neg hk, part_cons_of_ne _ _ hk]
  exact hgeneral samples []

/-- The entries have the keys of their rows, and no key is there twice. -/
theorem mergedByKey_keys (samples : List Sample) :
    (∀ e ∈ mergedByKey samples, e.2.key = e.1) ∧ ((mergedByKey samples).map Prod.fst).Nodup := by
  have hgeneral : ∀ (samples : List Sample) (d : List (ProcKey × Sample)),
      (∀ e ∈ d, e.2.key = e.1) → (d.map Prod.fst).Nodup →
      (∀ e ∈ samples.foldl mergeInto d, e.2.key = e.1) ∧
        ((samples.foldl mergeInto d).map Prod.fst).Nodup := by
    intro samples
    induction samples with
    | nil => exact fun d hkey hnodup => ⟨hkey, hnodup⟩
    | cons s rest ih =>
        intro d hkey hnodup
        rw [List.foldl_cons]
        have hset : ∀ row : Sample, row.key = s.key →
            (∀ e ∈ PyDict.set d s.key row, e.2.key = e.1) ∧
              ((PyDict.set d s.key row).map Prod.fst).Nodup := by
          intro row hrow
          refine ⟨?_, OrderedDict.nodup_set hnodup _ _⟩
          intro e he
          rcases PyDict.mem_set he with rfl | he
          · exact hrow
          · exact hkey e he
        unfold mergeInto
        cases d.lookup s.key with
        | none => exact ih _ (hset s rfl).1 (hset s rfl).2
        | some existing =>
            exact ih _ (hset (mergeProcRowDicts existing s) rfl).1
              (hset (mergeProcRowDicts existing s) rfl).2
  exact hgeneral samples [] nofun List.nodup_nil

/-- A row put in place of what is at its key. -/
def putRow {β : Type*} (g : Option ProcRow → β → ProcRow) (t : Table) (e : ProcKey × β) : Table :=
  Function.update t e.1 (some (g (t e.1) e.2))

/-- A table after rows with different keys, each put in place of what was at its key. -/
theorem foldl_putRow {β : Type*} (g : Option ProcRow → β → ProcRow) (k : ProcKey) :
    ∀ (entries : List (ProcKey × β)) (t : Table), (entries.map Prod.fst).Nodup →
      entries.foldl (putRow g) t k =
        (entries.lookup k).elim (t k) fun v => some (g (t k) v) := by
  intro entries
  induction entries with
  | nil => exact fun t _ => rfl
  | cons e rest ih =>
      intro t hnodup
      obtain ⟨q, v⟩ := e
      rw [List.map_cons, List.nodup_cons] at hnodup
      rw [List.foldl_cons, ih _ hnodup.2, List.lookup_cons]
      by_cases hk : k = q
      · subst hk
        rw [PyDict.lookup_eq_none_of_notMem hnodup.1, beq_self_eq_true]
        exact Function.update_self ..
      · have hb : (k == q) = false := by
          rw [beq_eq_false_iff_ne]
          exact hk
        have hother : putRow g t (q, v) k = t k := Function.update_of_ne hk _ _
        rw [hb, hother]

/-- What a peak-merged batch does at one key. -/
theorem bulkInsertProcRows_apply (t : Table) (samples : List Sample) (k : ProcKey) :
    bulkInsertProcRows t samples k =
      (mergeList (part Sample.key k samples)).elim (t k) fun row =>
        some (stageUpsert (t k) (procDataRowKwargs row)) := by
  obtain ⟨hkeys, hnodup⟩ := mergedByKey_keys samples
  unfold bulkInsertProcRows dedupeProcStatsPeakMerge
  have hfold : (mergedByKey samples).foldl (fun t e => upsertRow t e.2) t =
      (mergedByKey samples).foldl
        (putRow fun old row => stageUpsert old (procDataRowKwargs row)) t := by
    refine List.foldl_ext _ _ _ fun t e he => ?_
    unfold upsertRow putRow
    rw [hkeys e he]
  rw [List.foldl_map, hfold, foldl_putRow _ k _ _ hnodup, lookup_mergedByKey]

/-! ## The largest value -/

theorem nullableIntMax_eq (a b : Option ℤ) : nullableIntMax a b = greatest a b := by
  cases a with
  | none => rfl
  | some x =>
      cases b with
      | none => rfl
      | some y =>
          show some (if x ≥ y then x else y) = some (max x y)
          congr 1
          split_ifs with h
          · omega
          · omega

@[simp] theorem greatest_none_left (a : Option ℤ) : greatest none a = a := rfl

@[simp] theorem greatest_none_right (a : Option ℤ) : greatest a none = a := by
  cases a with
  | none => rfl
  | some x => rfl

theorem greatest_comm (a b : Option ℤ) : greatest a b = greatest b a := by
  cases a with
  | none => rw [greatest_none_left, greatest_none_right]
  | some x =>
      cases b with
      | none => rfl
      | some y => exact congrArg some (max_comm x y)

theorem greatest_assoc (a b c : Option ℤ) :
    greatest (greatest a b) c = greatest a (greatest b c) := by
  cases a with
  | none => rfl
  | some x =>
      cases b with
      | none => rfl
      | some y =>
          cases c with
          | none => rfl
          | some z => exact congrArg some (max_assoc x y z)

theorem peakOver_concat (f : Field) (l : List Sample) (s : Sample) :
    peakOver f (l ++ [s]) = greatest (peakOver f l) (s.fields f).join := by
  rw [peakOver, List.foldl_append]
  rfl

theorem peakOver_append (f : Field) (l l' : List Sample) :
    peakOver f (l ++ l') = greatest (peakOver f l) (peakOver f l') := by
  induction l' using List.reverseRecOn with
  | nil => rw [List.append_nil, peakOver, peakOver, List.foldl_nil, greatest_none_right]
  | append_singleton l' s ih => rw [← List.append_assoc, peakOver_concat, peakOver_concat, ih, greatest_assoc]

/-- The largest value does not depend on the order of the samples. -/
theorem peakOver_perm {l l' : List Sample} (f : Field) (h : l.Perm l') :
    peakOver f l = peakOver f l' := by
  have hcomm : RightCommutative fun (m : Option ℤ) (s : Sample) => greatest m (s.fields f).join := by
    refine ⟨fun m s s' => ?_⟩
    show greatest (greatest m _) _ = greatest (greatest m _) _
    rw [greatest_assoc, greatest_assoc, greatest_comm (s.fields f).join]
  exact h.foldl_eq none

/-- No value is larger. -/
theorem le_peakOver {f : Field} {l : List Sample} {s : Sample} {v : ℤ} (hs : s ∈ l)
    (hv : (s.fields f).join = some v) : ∃ m, peakOver f l = some m ∧ v ≤ m := by
  induction l using List.reverseRecOn with
  | nil => cases hs
  | append_singleton l s' ih =>
      rw [peakOver_concat]
      rcases List.mem_append.mp hs with hs | hs
      · obtain ⟨m, hm, hle⟩ := ih hs
        rw [hm]
        cases (s'.fields f).join with
        | none => exact ⟨m, rfl, hle⟩
        | some v' => exact ⟨max m v', rfl, le_max_of_le_left hle⟩
      · rw [List.mem_singleton] at hs
        subst hs
        rw [hv]
        cases peakOver f l with
        | none => exact ⟨v, rfl, le_rfl⟩
        | some m => exact ⟨max m v, rfl, le_max_right m v⟩

/-- The largest value is that of a sample. -/
theorem peakOver_mem {f : Field} {l : List Sample} {m : ℤ} (h : peakOver f l = some m) :
    ∃ s ∈ l, (s.fields f).join = some m := by
  induction l using List.reverseRecOn generalizing m with
  | nil => cases h
  | append_singleton l s ih =>
      rw [peakOver_concat] at h
      have hlast : (s.fields f).join = some m → ∃ s' ∈ l ++ [s], (s'.fields f).join = some m := by
        intro hs
        exact ⟨s, List.mem_append_right _ List.mem_cons_self, hs⟩
      have hfront : peakOver f l = some m → ∃ s' ∈ l ++ [s], (s'.fields f).join = some m := by
        intro hl
        obtain ⟨s', hs', hv⟩ := ih hl
        exact ⟨s', List.mem_append_left _ hs', hv⟩
      cases hv : (s.fields f).join with
      | none =>
          rw [hv, greatest_none_right] at h
          exact hfront h
      | some v =>
          cases hl : peakOver f l with
          | none =>
              rw [hl, greatest_none_left] at h
              exact hlast h
          | some x =>
              rw [hl, hv] at h
              have hmax : max x v = m := Option.some.inj h
              rcases max_choice x v with hx | hx
              · exact hfront (hl.trans (congrArg some (hx.symm.trans hmax)))
              · exact hlast (hv.trans (congrArg some (hx.symm.trans hmax)))

theorem lastValue_concat (f : Field) (l : List Sample) (s : Sample) :
    lastValue f (l ++ [s]) = (s.fields f).or (lastValue f l) := by
  rw [lastValue, List.foldl_append]
  rfl

theorem lastValue_append (f : Field) (l l' : List Sample) :
    lastValue f (l ++ l') = (lastValue f l').or (lastValue f l) := by
  induction l' using List.reverseRecOn with
  | nil => rw [List.append_nil]; rfl
  | append_singleton l' s ih =>
      rw [← List.append_assoc, lastValue_concat, lastValue_concat, ih, Option.or_assoc]

/-! ## A batch as a whole -/

/-- The `WHERE` only leaves rows out that would stay as they are. -/
theorem stageUpsert_eq (old : Option ProcRow) (new : ProcRow) :
    stageUpsert old new =
      ⟨new.device, fun f =>
        if f.peak then greatest (old.bind (·.cols f)) (new.cols f) else new.cols f⟩ := by
  cases old with
  | none =>
      have hcols : (fun f => if f.peak then greatest none (new.cols f) else new.cols f) = new.cols := by
        funext f
        split_ifs
        · rfl
        · rfl
      show new = ⟨new.device, fun f => if f.peak then greatest none (new.cols f) else new.cols f⟩
      rw [hcols]
  | some old =>
      unfold stageUpsert
      show (if rewrites old new = true then _ else _) = _
      split_ifs with hw
      · rfl
      · obtain ⟨device, cols⟩ := old
        unfold rewrites at hw
        rw [Bool.or_eq_true, not_or, decide_eq_true_eq, not_not] at hw
        obtain ⟨hdevice, hcols⟩ := hw
        simp only [List.any_eq_true, not_exists, not_and] at hcols
        congr 1
        funext f
        have hf := hcols f (mem_hostProcKeys f)
        show cols f = if f.peak = true then greatest (cols f) (new.cols f) else new.cols f
        split_ifs at hf ⊢ with hpeak
        · cases hold : cols f with
          | none =>
              cases hnew : new.cols f with
              | none => rfl
              | some n => 
                  rw [hold, hnew] at hf
                  exact absurd rfl hf
          | some o =>
              cases hnew : new.cols f with
              | none => rfl
              | some n =>
                  rw [hold, hnew] at hf
                  have hle : n ≤ o := by simpa using hf
                  exact congrArg some (max_eq_left hle).symm
        · simpa using hf

theorem mergeList_concat (l : List Sample) (s : Sample) :
    mergeList (l ++ [s]) = some ((mergeList l).elim s fun e => mergeProcRowDicts e s) := by
  rw [mergeList, List.foldl_append]
  rfl

theorem mergeList_eq_none {l : List Sample} (h : mergeList l = none) : l = [] := by
  induction l using List.reverseRecOn with
  | nil => rfl
  | append_singleton l s =>
      rw [mergeList_concat] at h
      cases h

/-- The merge of the samples of a key, column by column. -/
theorem mergeList_spec {l : List Sample} {row : Sample} (h : mergeList l = some row) :
    l.getLast?.map Sample.device = some row.device ∧
      ∀ f, if f.peak then (row.fields f).join = peakOver f l else row.fields f = lastValue f l := by
  induction l using List.reverseRecOn generalizing row with
  | nil => cases h
  | append_singleton l s ih =>
      rw [mergeList_concat, Option.some.injEq] at h
      subst h
      cases hl : mergeList l with
      | none =>
          rw [mergeList_eq_none hl]
          refine ⟨rfl, fun f => ?_⟩
          split_ifs
          · rfl
          · exact (Option.or_none).symm
      | some e =>
          obtain ⟨-, hfields⟩ := ih hl
          refine ⟨by simp [mergeProcRowDicts], fun f => ?_⟩
          have hf := hfields f
          rw [peakOver_concat, lastValue_concat]
          show if f.peak then (match s.fields f with
              | none => e.fields f
              | some value => some (if f.peak then nullableIntMax (e.fields f).join value else value)).join =
                greatest (peakOver f l) (s.fields f).join else (match s.fields f with
              | none => e.fields f
              | some value => some (if f.peak then nullableIntMax (e.fields f).join value else value)) =
                (s.fields f).or (lastValue f l)
          split_ifs at hf ⊢ with hpeak
          · rw [← hf]
            cases s.fields f with
            | none => exact (greatest_none_right _).symm
            | some value => exact nullableIntMax_eq _ _
          · rw [← hf]
            cases s.fields f with
            | none => rfl
            | some value => rfl

/-- **A batch** does to every row what is wanted. -/
theorem bulkInsertProcRows_eq_wanted (t : Table) (samples : List Sample) :
    bulkInsertProcRows t samples = wanted t samples := by
  funext k
  rw [bulkInsertProcRows_apply]
  unfold wanted rowOf
  cases hmerge : mergeList (part Sample.key k samples) with
  | none =>
      rw [mergeList_eq_none hmerge]
      rfl
  | some row =>
      obtain ⟨hdevice, hfields⟩ := mergeList_spec hmerge
      rw [Option.map_eq_some_iff] at hdevice
      obtain ⟨last, hlast, hdevice⟩ := hdevice
      rw [hlast]
      show some (stageUpsert _ _) = some _
      rw [stageUpsert_eq]
      congr 2
      · exact congrArg some hdevice.symm
      · funext f
        have hf := hfields f
        show (if f.peak = true then greatest _ (row.fields f).join else (row.fields f).join) = _
        split_ifs at hf ⊢
        · rw [hf]
        · rw [hf]

/-! ## Batch after batch -/

/-- The last part that is not empty. -/
def lastFull (parts : List (List Sample)) : List Sample :=
  parts.foldl (fun last part => if part.isEmpty then last else part) []

/-- The samples of a key in the last batch that has any. -/
def lastPart (k : ProcKey) (batches : List (List Sample)) : List Sample :=
  lastFull (batches.map (part Sample.key k))

/-- A column that the last batch of a key does not write holds nothing from before. -/
def FieldsKept (batches : List (List Sample)) : Prop :=
  ∀ k f, f.peak = false → lastValue f (lastPart k batches) = none →
    (lastValue f (part Sample.key k batches.flatten)).join = none

theorem part_flatten (k : ProcKey) (batches : List (List Sample)) :
    part Sample.key k batches.flatten = (batches.map (part Sample.key k)).flatten := by
  rw [part, List.filter_flatten]
  rfl

/-- The rows of a key see only the samples of the key. -/
theorem upsertBatches_apply (batches : List (List Sample)) (t : Table) (k : ProcKey) :
    upsertBatches t batches k = (batches.map (part Sample.key k)).foldl rowOf (t k) := by
  unfold upsertBatches
  induction batches generalizing t with
  | nil => rfl
  | cons batch rest ih =>
      rw [List.foldl_cons, ih, bulkInsertProcRows_eq_wanted, List.map_cons, List.foldl_cons]
      rfl

theorem lastFull_concat (parts : List (List Sample)) (l : List Sample) :
    lastFull (parts ++ [l]) = if l.isEmpty then lastFull parts else l := by
  rw [lastFull, List.foldl_append]
  rfl

/-- The last part is the end of all samples. -/
theorem lastFull_suffix (parts : List (List Sample)) : lastFull parts <:+ parts.flatten := by
  induction parts using List.reverseRecOn with
  | nil => exact List.suffix_rfl
  | append_singleton parts l ih =>
      rw [lastFull_concat, List.flatten_append, List.flatten_singleton]
      split_ifs with hl
      · rw [List.isEmpty_iff.mp hl, List.append_nil]
        exact ih
      · exact List.suffix_append _ _

/-- The row of a key after all its parts: only the columns without a peak see where the parts were cut. -/
theorem foldl_rowOf (old : Option ProcRow) (parts : List (List Sample)) :
    parts.foldl rowOf old =
      match parts.flatten.getLast? with
      | none => old
      | some last =>
          some ⟨some last.device, fun f =>
            if f.peak then greatest (old.bind (·.cols f)) (peakOver f parts.flatten)
            else (lastValue f (lastFull parts)).join⟩ := by
  induction parts using List.reverseRecOn with
  | nil => rfl
  | append_singleton parts l ih =>
      rw [List.foldl_append, List.foldl_cons, List.foldl_nil, lastFull_concat, List.flatten_append,
        List.flatten_singleton]
      unfold rowOf at ih ⊢
      cases l using List.reverseRecOn with
      | nil =>
          rw [List.append_nil]
          exact ih
      | append_singleton front last =>
          rw [← List.append_assoc, List.getLast?_concat, List.getLast?_concat, if_neg (by simp), ih]
          show some _ = some _
          congr 2
          funext f
          rw [List.append_assoc, peakOver_append f parts.flatten, ← greatest_assoc]
          split_ifs
          · congr 1
            cases hflat : parts.flatten.getLast? with
            | none =>
                rw [List.getLast?_eq_none_iff.mp hflat]
                exact (greatest_none_right _).symm
            | some last' =>
                show (if f.peak = true then _ else _) = _
                rw [if_pos ‹_›]
          · rfl

/-! ## The two paths -/

/-- The slices of a list have its elements. -/
theorem exists_slice {size : ℕ} (hsize : 0 < size) {l : List String} {x : String} (hx : x ∈ l) :
    ∃ part ∈ slices size l, x ∈ part := by
  obtain ⟨i, hi, rfl⟩ := List.mem_iff_getElem.mp hx
  have hmod : i % size < size := Nat.mod_lt i hsize
  have hdiv : i / size * size + i % size = i := Nat.div_add_mod' i size
  refine ⟨(l.drop (i / size * size)).take size, ?_, ?_⟩
  · refine List.mem_map.mpr ⟨i / size, ?_, rfl⟩
    rw [List.mem_range, Nat.lt_div_iff_mul_lt hsize]
    omega
  · rw [List.mem_iff_getElem]
    refine ⟨i % size, ?_, ?_⟩
    · rw [List.length_take, List.length_drop]
      omega
    · rw [List.getElem_take, List.getElem_drop]
      congr 1

/-- The rows that are read are rows of the table. -/
theorem mem_existing {t : Table} {chunkSize : ℕ} {objs : List (ProcKey × ProcRow)} {k : ProcKey}
    {row : ProcRow} (h : (k, row) ∈ existing t chunkSize objs) : t k = some row := by
  obtain ⟨rows, hrows, hmem⟩ := List.mem_flatten.mp h
  obtain ⟨jh, -, rfl⟩ := List.mem_map.mp hrows
  obtain ⟨part, -, hpart⟩ := List.mem_flatMap.mp hmem
  obtain ⟨proc, -, hproc⟩ := List.mem_filterMap.mp hpart
  obtain ⟨row', hrow, heq⟩ := Option.map_eq_some_iff.mp hproc
  rw [Prod.mk.injEq] at heq
  obtain ⟨rfl, rfl⟩ := heq
  exact hrow

/-- The row of every object is read, if it has one. -/
theorem existing_mem {t : Table} {chunkSize : ℕ} {objs : List (ProcKey × ProcRow)}
    {o : ProcKey × ProcRow} (ho : o ∈ objs) {row : ProcRow} (h : t o.1 = some row) :
    (o.1, row) ∈ existing t chunkSize objs := by
  refine List.mem_flatten.mpr ⟨_, List.mem_map.mpr ⟨(o.1.jid, o.1.host), ?_, rfl⟩, ?_⟩
  · exact (mem_groupKeys _).mpr ⟨o, ho, rfl⟩
  · have hproc : o.1.proc ∈ groupKeys (fun o : ProcKey × ProcRow => o.1.proc)
        (part (fun o : ProcKey × ProcRow => (o.1.jid, o.1.host)) (o.1.jid, o.1.host) objs) :=
      (mem_groupKeys _).mpr ⟨o, (mem_part _).mpr ⟨ho, rfl⟩, rfl⟩
    obtain ⟨part, hpart, hmem⟩ := exists_slice (lt_max_of_lt_left Nat.one_pos) hproc
    refine List.mem_flatMap.mpr ⟨part, hpart, List.mem_filterMap.mpr ⟨o.1.proc, hmem, ?_⟩⟩
    show (t o.1).map _ = _
    rw [h]
    rfl

theorem lookup_existing {t : Table} {chunkSize : ℕ} {objs : List (ProcKey × ProcRow)}
    {o : ProcKey × ProcRow} (ho : o ∈ objs) : (existing t chunkSize objs).lookup o.1 = t o.1 := by
  cases hlookup : (existing t chunkSize objs).lookup o.1 with
  | some row => exact (mem_existing (PyDict.mem_of_lookup hlookup)).symm
  | none =>
      cases ht : t o.1 with
      | none => rfl
      | some row =>
          have hne := List.lookup_eq_none_iff.mp hlookup _ (existing_mem ho ht)
          exact absurd hne (by simp)

/-- The objects of a batch, each merged with the row that is there. -/
theorem peakMergeProcObjsWithExisting_eq (t : Table) (chunkSize : ℕ) (objs : List (ProcKey × ProcRow)) :
    peakMergeProcObjsWithExisting t chunkSize objs =
      objs.map fun o => (o.1, stageUpsert (t o.1) o.2) := by
  unfold peakMergeProcObjsWithExisting
  refine List.map_congr_left fun o ho => ?_
  obtain ⟨k, row⟩ := o
  rw [lookup_existing ho]
  show (match t k with
    | none => (k, row)
    | some prior => (k, applyProcPeakAttrsFromEarlier prior row)) = (k, stageUpsert (t k) row)
  cases t k with
  | none => rfl
  | some prior =>
      rw [stageUpsert_eq]
      unfold applyProcPeakAttrsFromEarlier
      simp only [nullableIntMax_eq, Option.bind_some]

/-- **One batch by either path.** -/
theorem ormBatch_eq (chunkSize : ℕ) (t : Table) (samples : List Sample) :
    ormBatch chunkSize t samples = bulkInsertProcRows t samples := by
  obtain ⟨hkeys, hnodup⟩ := mergedByKey_keys samples
  funext k
  have hobjs : (procObjs samples).map (fun o => (o.1, stageUpsert (t o.1) o.2)) =
      (mergedByKey samples).map fun e => (e.1, stageUpsert (t e.1) (procDataRowKwargs e.2)) := by
    unfold procObjs dedupeProcStatsPeakMerge
    rw [List.map_map, List.map_map]
    refine List.map_congr_left fun e he => ?_
    show (e.2.key, stageUpsert (t e.2.key) _) = _
    rw [hkeys e he]
  have hput : (fun (t : Table) (o : ProcKey × ProcRow) => Function.update t o.1 (some o.2)) =
      putRow fun _ row => row := rfl
  rw [bulkInsertProcRows_apply, ormBatch, bulkCreateProcData, peakMergeProcObjsWithExisting_eq, hobjs,
    hput, foldl_putRow _ k _ _ (by rw [List.map_map]; exact hnodup),
    PyDict.lookup_map_values (mergedByKey samples) fun e => stageUpsert (t e.1) (procDataRowKwargs e.2),
    lookup_mergedByKey]
  cases mergeList (part Sample.key k samples) with
  | none => rfl
  | some row => rfl

theorem ormBatches_eq (chunkSize : ℕ) (t : Table) (batches : List (List Sample)) :
    ormBatches chunkSize t batches = upsertBatches t batches := by
  unfold ormBatches upsertBatches
  congr 1
  funext t samples
  exact ormBatch_eq chunkSize t samples

/-! ## When the batches make no difference -/

/-- The peaks are right, in whatever order the batches come. -/
theorem upsertBatches_peak (t : Table) {batches batches' : List (List Sample)}
    (h : batches'.Perm batches) {k : ProcKey} {row : ProcRow} (hrow : upsertBatches t batches' k = some row)
    {f : Field} (hf : f.peak = true) :
    row.cols f = greatest ((t k).bind (·.cols f)) (peakOver f (part Sample.key k batches.flatten)) := by
  have hperm : (part Sample.key k batches'.flatten).Perm (part Sample.key k batches.flatten) :=
    h.flatten.filter _
  rw [upsertBatches_apply, foldl_rowOf, ← part_flatten] at hrow
  rw [← peakOver_perm f hperm]
  cases hlast : (part Sample.key k batches'.flatten).getLast? with
  | none =>
      rw [hlast] at hrow
      have hold : t k = some row := hrow
      rw [List.getLast?_eq_none_iff.mp hlast, hold]
      exact (greatest_none_right _).symm
  | some last =>
      rw [hlast, Option.some.injEq] at hrow
      rw [← hrow]
      exact if_pos hf

/-- The rows after all batches are those of the single merge exactly when no column is left out of the last
batch that had a value before. -/
theorem upsertBatches_eq_iff (t : Table) (batches : List (List Sample)) :
    upsertBatches t batches = bulkInsertProcRows t batches.flatten ↔ FieldsKept batches := by
  have happly : ∀ k, upsertBatches t batches k = bulkInsertProcRows t batches.flatten k ↔
      ∀ f, f.peak = false → (lastValue f (lastPart k batches)).join =
        (lastValue f (part Sample.key k batches.flatten)).join := by
    intro k
    rw [bulkInsertProcRows_eq_wanted, upsertBatches_apply, foldl_rowOf, ← part_flatten]
    show _ = rowOf _ _ ↔ _
    unfold rowOf lastPart
    have hsuffix := lastFull_suffix (batches.map (part Sample.key k))
    rw [← part_flatten] at hsuffix
    cases hlast : (part Sample.key k batches.flatten).getLast? with
    | none =>
        rw [List.getLast?_eq_none_iff.mp hlast] at hsuffix ⊢
        rw [List.suffix_nil.mp hsuffix]
        exact ⟨fun _ _ _ => rfl, fun _ => rfl⟩
    | some last =>
        show some _ = some _ ↔ _
        rw [Option.some.injEq, ProcRow.mk.injEq, funext_iff]
        constructor
        · rintro ⟨-, hcols⟩ f hf
          have hcol := hcols f
          rwa [if_neg (by rw [hf]; exact Bool.false_ne_true), if_neg (by rw [hf]; exact Bool.false_ne_true)]
            at hcol
        · intro hcols
          refine ⟨rfl, fun f => ?_⟩
          split_ifs with hf
          · rfl
          · exact hcols f (by simpa using hf)
  rw [funext_iff]
  unfold FieldsKept
  refine forall_congr' fun k => (happly k).trans ?_
  refine forall_congr' fun f => forall_congr' fun _ => ?_
  obtain ⟨front, hfront⟩ := lastFull_suffix (batches.map (part Sample.key k))
  rw [part_flatten, ← hfront, lastValue_append]
  unfold lastPart
  cases lastValue f (lastFull (batches.map (part Sample.key k))) with
  | none =>
      constructor
      · exact fun h _ => h.symm
      · exact fun h => (h rfl).symm
  | some value =>
      constructor
      · exact fun _ h => by cases h
      · exact fun _ => rfl

/-- **Batch after batch, and all at once.** -/
theorem upsert_batches_iff (t : Table) (batches : List (List Sample)) (chunkSize : ℕ) :
    (upsertBatches t batches = bulkInsertProcRows t batches.flatten ∧
      bulkInsertProcRows t batches.flatten = wanted t batches.flatten ∧
      (∀ batches' : List (List Sample), batches'.Perm batches → ∀ k row, upsertBatches t batches' k = some row →
        ∀ f : Field, f.peak = true →
          row.cols f = greatest ((t k).bind (·.cols f)) (peakOver f (part Sample.key k batches.flatten))) ∧
      ormBatches chunkSize t batches = upsertBatches t batches) ↔
    FieldsKept batches := by
  rw [← upsertBatches_eq_iff t]
  constructor
  · exact fun h => h.1
  · intro h
    refine ⟨h, bulkInsertProcRows_eq_wanted t _, ?_, ormBatches_eq chunkSize t batches⟩
    exact fun batches' hperm k row hrow f hf => upsertBatches_peak t hperm hrow hf

/-- Two samples of a process in two batches: the second has no `threads`. -/
def splitBatches : List (List Sample) :=
  [[⟨⟨"1", "c101", "a.out"⟩, "dev", fun f => if f = .threads then some (some 8) else none⟩],
   [⟨⟨"1", "c101", "a.out"⟩, "dev", fun f => if f = .uid then some (some 500) else none⟩]]

/-- The value of the first batch is gone, where the single merge keeps it. -/
theorem not_upsertBatches_eq :
    ¬ ∀ (t : Table) (batches : List (List Sample)),
      upsertBatches t batches = bulkInsertProcRows t batches.flatten := by
  intro h
  have hrow := congrArg (fun t : Table => (t ⟨"1", "c101", "a.out"⟩).map fun row => row.cols .threads)
    (h (fun _ => none) splitBatches)
  revert hrow
  decide +kernel

end ProcUpsert
