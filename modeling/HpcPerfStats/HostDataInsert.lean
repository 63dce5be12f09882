/-
# Inserting rows of `host_data` (`sync_timedb_host_data_insert.py`)

A batch of parsed rows reaches the table in two ways: as one `bulk_create(ignore_conflicts=True)` of model
instances, or as COPY text that is staged and inserted with `ON CONFLICT DO NOTHING`.  The COPY arm drops rows
before it writes them: of a sequence it keeps the last row of every conflict key, of a frame the last row of
equal cells in the key columns, before a device name is stripped.  The database keeps the first.

* `StatsRow` is a parsed row and `HostRow` a row of the table; the three serializers agree row by row
  (`hostRowValues_eq`, `hostFrameCells_eq`)
* `Db` is what the arms use of the database and of the texts of times and numbers
* `writeHostCopyPayload_hostText` and its two companions: what an arm stages is what it has written
* `sameTables_iff`: both arms leave the same table exactly for the batches of `InsertOk`

The table has the unique constraint `(time, host, type, event, dev)`, in which a NULL equals nothing.  Rows of
the staging table are inserted in the order in which they were copied.
-/
import HpcPerfStats.CopyText
import HpcPerfStats.UniqueInsert

namespace HostDataInsert

open PyText TokenText CopyText KeyedList UniqueInsert

/-! ## Rows -/

/-- A cell of the time column: unix seconds, or a timestamp in nanoseconds. -/
inductive TimeCell where
  | missing
  | seconds (q : ℚ)
  | stamp (ns : ℤ)
  deriving DecidableEq

/-- A parsed row.  A text is `none` when the cell is `None` or NaN (host, type, event, unit: `None`). -/
structure StatsRow (M : Type) where
  time : TimeCell
  host : Option String
  jid : Option String
  type : Option String
  dev : Option String
  event : Option String
  unit : Option String
  value : Option M
  delta : Option M
  arc : Option M

/-- A row of `host_data`, its time in microseconds. -/
structure HostRow (M : Type) where
  time : Option ℤ
  host : Option String
  jid : Option String
  type : Option String
  dev : Option String
  event : Option String
  unit : Option String
  value : Option M
  delta : Option M
  arc : Option M

/-- `_HOST_CONFLICT_COLS`. -/
structure HostKey where
  time : Option ℤ
  host : Option String
  type : Option String
  event : Option String
  dev : Option String
  deriving DecidableEq

variable {M : Type}

def HostRow.key (r : HostRow M) : HostKey := ⟨r.time, r.host, r.type, r.event, r.dev⟩

def HostKey.hasNull (k : HostKey) : Bool :=
  k.time.isNone || k.host.isNone || k.type.isNone || k.event.isNone || k.dev.isNone

/-- The cells of the key columns, as they stand in a frame. -/
def StatsRow.cells (r : StatsRow M) : TimeCell × Option String × Option String × Option String × Option String :=
  (r.time, r.host, r.type, r.event, r.dev)

/-- What the arms use of the database, and of the texts of times and numbers: the database reads back the
texts that `isoformat` and `str` write. -/
structure Db (M : Type) where
  /-- `datetime.fromtimestamp`, in microseconds. -/
  fromTimestamp : ℚ → ℤ
  isoformat : ℤ → String
  readTime : String → Option ℤ
  readTime_isoformat : ∀ t, readTime (isoformat t) = some t
  measureText : M → String
  readMeasure : String → Option M
  readMeasure_text : ∀ x, readMeasure (measureText x) = some x
  /-- The column types take the row: lengths, and a time that is not NULL. -/
  accepts : HostRow M → Bool

variable (db : Db M)

/-- `to_pydatetime_or_none`. -/
def toPydatetimeOrNone : TimeCell → Option ℤ
  | .missing => none
  | .seconds q => some (db.fromTimestamp q)
  | .stamp ns => some (ns / 1000)

/-- `_dev_str_from_stats_row`. -/
def devStrFromStatsRow (dev : Option String) : String :=
  match dev with
  | none => ""
  | some d => if strip d = "" ∨ (strip d).toLower = "nan" then "" else strip d

/-- `host_data_instance_from_stats_row`. -/
def hostDataInstanceFromStatsRow (row : StatsRow M) : HostRow M where
  time := toPydatetimeOrNone db row.time
  host := row.host
  jid := if row.jid.isSome ∧ row.jid ≠ some "-" then row.jid else none
  type := row.type
  dev := some (devStrFromStatsRow row.dev)
  event := row.event
  unit := row.unit
  value := row.value
  delta := row.delta
  arc := row.arc

/-- `_host_row_value`, column by column, of a named tuple. -/
def hostRowValues (row : StatsRow M) : HostRow M where
  time := toPydatetimeOrNone db row.time
  host := row.host
  jid := if row.jid.isSome ∧ row.jid ≠ some "-" then row.jid else none
  type := row.type
  dev := some (devStrFromStatsRow row.dev)
  event := row.event
  unit := row.unit
  value := row.value
  delta := row.delta
  arc := row.arc

/-- `_copy_dev_text`. -/
def copyDevText (dev : Option String) : String :=
  match dev with
  | none => ""
  | some d =>
      let text := strip d
      if text = "" ∨ text.toLower = "nan" then "" else text

/-- `_host_frame_cell`, column by column, of a line of a frame. -/
def hostFrameCells (row : StatsRow M) : HostRow M where
  time := toPydatetimeOrNone db row.time
  host := row.host
  jid := if row.jid.isSome ∧ row.jid ≠ some "-" then row.jid else none
  type := row.type
  dev := some (copyDevText row.dev)
  event := row.event
  unit := row.unit
  value := row.value
  delta := row.delta
  arc := row.arc

/-- A dataframe slice; a frame without a device column has no device in any row. -/
structure Frame (M : Type) where
  hasDev : Bool
  rows : List (StatsRow M)
  dev_missing : hasDev = false → ∀ r ∈ rows, r.dev = none

/-! ## COPY text -/

/-- The columns of `HOST_DATA_COPY_COLUMNS` as texts. -/
def copyFields (r : HostRow M) : List (Option String) :=
  [r.time.map db.isoformat, r.host, r.jid, r.type, r.dev, r.event, r.unit, r.value.map db.measureText,
    r.delta.map db.measureText, r.arc.map db.measureText]

def hostText (rows : List (HostRow M)) : String := copyText (rows.map (copyFields db))

/-- A value that the database reads, or NULL; `none` when it does not read the text. -/
def readOr {α : Type} (read : String → Option α) : Option String → Option (Option α)
  | none => some none
  | some text => (read text).map some

/-- A line of the staging table. -/
def stageRow : List (Option String) → Option (HostRow M)
  | [time, host, jid, type, dev, event, unit, value, delta, arc] => do
      let time ← readOr db.readTime time
      let value ← readOr db.readMeasure value
      let delta ← readOr db.readMeasure delta
      let arc ← readOr db.readMeasure arc
      some ⟨time, host, jid, type, dev, event, unit, value, delta, arc⟩
  | _ => none

/-! ## The arms -/

/-- The insert statement of both arms; `none` when it raises, which leaves the table as it is. -/
def insertIgnoringConflicts (t rows : List (HostRow M)) : Option (List (HostRow M)) :=
  if rows.all db.accepts then some (insertRows HostRow.key HostKey.hasNull t rows) else none

/-- `_write_host_copy_payload`. -/
def writeHostCopyPayload (t : List (HostRow M)) (payload : String) : Option (List (HostRow M)) :=
  if payload = "" then some t
  else ((readCopy payload).bind fun lines => lines.mapM (stageRow db)).bind fun rows =>
    insertIgnoringConflicts db t rows

/-- The conflict key of `_collapse_host_conflict_keys` for an instance: `_host_row_value` reads it like a named
tuple. -/
def instanceKey (obj : HostRow M) : HostKey :=
  { obj.key with dev := some (devStrFromStatsRow obj.dev) }

/-- `_collapse_host_conflict_keys`, of a frame. -/
def collapseFrame (f : Frame M) : List (StatsRow M) :=
  if f.hasDev then lastOf StatsRow.cells f.rows else f.rows

/-- `_collapse_host_conflict_keys`, of named tuples. -/
def collapseTuples (rows : List (StatsRow M)) : List (StatsRow M) :=
  lastByKey (fun row => (hostRowValues db row).key) rows

/-- `_collapse_host_conflict_keys`, of instances. -/
def collapseInstances (objs : List (HostRow M)) : List (HostRow M) := lastByKey instanceKey objs

/-- `bulk_insert_host_rows`, of a frame. -/
def bulkInsertHostFrame (t : List (HostRow M)) (f : Frame M) : Option (List (HostRow M)) :=
  if f.rows = [] then some t
  else writeHostCopyPayload db t (hostText db ((collapseFrame f).map (hostFrameCells db)))

/-- `bulk_insert_host_rows`, of named tuples. -/
def bulkInsertHostTuples (t : List (HostRow M)) (rows : List (StatsRow M)) : Option (List (HostRow M)) :=
  if rows = [] then some t
  else writeHostCopyPayload db t (hostText db ((collapseTuples db rows).map (hostRowValues db)))

/-- `bulk_insert_host_data_ignore_conflicts`. -/
def bulkInsertHostDataIgnoreConflicts (t objs : List (HostRow M)) : Option (List (HostRow M)) :=
  if objs = [] then some t
  else writeHostCopyPayload db t (hostText db (collapseInstances objs))

/-- `bulk_create_host_data_ignore_conflicts`. -/
def bulkCreateHostDataIgnoreConflicts (t objs : List (HostRow M)) : Option (List (HostRow M)) :=
  if objs = [] then some t else insertIgnoringConflicts db t objs

/-! ## The serializers agree -/

theorem copyDevText_eq (dev : Option String) : copyDevText dev = devStrFromStatsRow dev := by
  cases dev <;> rfl

theorem hostRowValues_eq (row : StatsRow M) : hostRowValues db row = hostDataInstanceFromStatsRow db row := rfl

theorem hostFrameCells_eq (row : StatsRow M) : hostFrameCells db row = hostDataInstanceFromStatsRow db row := by
  unfold hostFrameCells hostDataInstanceFromStatsRow
  rw [copyDevText_eq]

/-- A stripped device name is kept. -/
theorem devStr_devStr (dev : Option String) :
    devStrFromStatsRow (some (devStrFromStatsRow dev)) = devStrFromStatsRow dev := by
  cases dev with
  | none => decide
  | some d =>
      unfold devStrFromStatsRow
      by_cases hblank : strip d = "" ∨ (strip d).toLower = "nan"
      · simp only [if_pos hblank]
        decide
      · simp only [if_neg hblank, strip_strip]

/-- The key of an instance is read as it stands. -/
theorem instanceKey_instance (row : StatsRow M) :
    instanceKey (hostDataInstanceFromStatsRow db row) = (hostDataInstanceFromStatsRow db row).key := by
  show HostKey.mk _ _ _ _ (some (devStrFromStatsRow (some (devStrFromStatsRow row.dev)))) = _
  rw [devStr_devStr]
  rfl

/-- Equal cells in the key columns are one conflict key. -/
theorem key_eq_of_cells {r r' : StatsRow M} (h : r.cells = r'.cells) :
    (hostDataInstanceFromStatsRow db r).key = (hostDataInstanceFromStatsRow db r').key := by
  simp only [StatsRow.cells, Prod.mk.injEq] at h
  obtain ⟨htime, hhost, htype, hevent, hdev⟩ := h
  simp only [HostRow.key, hostDataInstanceFromStatsRow, htime, hhost, htype, hevent, hdev]

/-! ## What is staged -/

theorem readOr_map {α : Type} {write : α → String} {read : String → Option α}
    (h : ∀ x, read (write x) = some x) (v : Option α) : readOr read (v.map write) = some v := by
  cases v with
  | none => rfl
  | some x =>
      show (read (write x)).map some = _
      rw [h]
      rfl

theorem stageRow_copyFields (r : HostRow M) : stageRow db (copyFields db r) = some r := by
  simp only [stageRow, copyFields, readOr_map db.readTime_isoformat, readOr_map db.readMeasure_text,
    Option.bind_eq_bind, Option.bind_some]

theorem readCopy_hostText (rows : List (HostRow M)) :
    readCopy (hostText db rows) = some (rows.map (copyFields db)) := by
  apply readCopy_copyText
  intro row hrow
  obtain ⟨r, -, rfl⟩ := List.mem_map.mp hrow
  exact List.cons_ne_nil _ _

theorem hostText_ne_empty {rows : List (HostRow M)} (h : rows ≠ []) : hostText db rows ≠ "" := by
  obtain ⟨r, rows, rfl⟩ := List.exists_cons_of_ne_nil h
  intro hempty
  have hread := readCopy_hostText db (r :: rows)
  rw [hempty] at hread
  cases hread

/-- **The payload stages the rows it was written from.** -/
theorem writeHostCopyPayload_hostText (t rows : List (HostRow M)) :
    writeHostCopyPayload db t (hostText db rows) = insertIgnoringConflicts db t rows := by
  unfold writeHostCopyPayload
  by_cases hrows : rows = []
  · rw [hrows]
    rfl
  · rw [if_neg (hostText_ne_empty db hrows), readCopy_hostText, Option.bind_some,
      mapM_map_read rows fun r _ => stageRow_copyFields db r, Option.bind_some]

/-- The instances of a batch, in its order. -/
def instances (rows : List (StatsRow M)) : List (HostRow M) := rows.map (hostDataInstanceFromStatsRow db)

theorem bulkInsertHostFrame_eq (t : List (HostRow M)) (f : Frame M) :
    bulkInsertHostFrame db t f = insertIgnoringConflicts db t (instances db (collapseFrame f)) := by
  have hcells : hostFrameCells db = hostDataInstanceFromStatsRow db := funext (hostFrameCells_eq db)
  unfold bulkInsertHostFrame
  rw [writeHostCopyPayload_hostText, hcells]
  split_ifs with hrows
  · have hnone : collapseFrame f = [] := by
      unfold collapseFrame
      rw [hrows]
      split_ifs <;> rfl
    rw [hnone]
    rfl
  · rfl

theorem bulkInsertHostTuples_eq (t : List (HostRow M)) (rows : List (StatsRow M)) :
    bulkInsertHostTuples db t rows =
      insertIgnoringConflicts db t (lastByKey HostRow.key (instances db rows)) := by
  have hvalues : hostRowValues db = hostDataInstanceFromStatsRow db := funext (hostRowValues_eq db)
  unfold bulkInsertHostTuples collapseTuples instances
  rw [writeHostCopyPayload_hostText, hvalues, lastByKey_map HostRow.key]
  split_ifs with hrows
  · rw [hrows]
    rfl
  · rfl

theorem bulkInsertHostDataIgnoreConflicts_eq (t : List (HostRow M)) (rows : List (StatsRow M)) :
    bulkInsertHostDataIgnoreConflicts db t (instances db rows) =
      insertIgnoringConflicts db t (lastByKey HostRow.key (instances db rows)) := by
  have hkey : (fun row => instanceKey (hostDataInstanceFromStatsRow db row)) =
      fun row => (hostDataInstanceFromStatsRow db row).key := funext (instanceKey_instance db)
  unfold bulkInsertHostDataIgnoreConflicts collapseInstances instances
  rw [writeHostCopyPayload_hostText, lastByKey_map instanceKey, hkey, ← lastByKey_map HostRow.key]
  split_ifs with hrows
  · rw [hrows]
    rfl
  · rfl

theorem bulkCreateHostDataIgnoreConflicts_eq (t objs : List (HostRow M)) :
    bulkCreateHostDataIgnoreConflicts db t objs = insertIgnoringConflicts db t objs := by
  unfold bulkCreateHostDataIgnoreConflicts
  split_ifs with hobjs
  · rw [hobjs]
    rfl
  · rfl

/-! ## Both arms -/

/-- The same rows, in any order; or both raised and left the table as it was. -/
def SameRows (a b : Option (List (HostRow M))) : Prop := Option.Rel List.Perm a b

/-- Every serializer of the COPY arm leaves the table that `bulk_create` leaves. -/
structure SameTables (t : List (HostRow M)) (f : Frame M) : Prop where
  frame : SameRows (bulkInsertHostFrame db t f) (bulkCreateHostDataIgnoreConflicts db t (instances db f.rows))
  tuples : SameRows (bulkInsertHostTuples db t f.rows)
    (bulkCreateHostDataIgnoreConflicts db t (instances db f.rows))
  models : SameRows (bulkInsertHostDataIgnoreConflicts db t (instances db f.rows))
    (bulkCreateHostDataIgnoreConflicts db t (instances db f.rows))

/-- What a batch has of one key does not depend on who drops rows: no two rows of a key with a NULL, and of a
key that the table has not, the first row is the last one and, in a frame, the first whose cells no later row
repeats. -/
def KeyOk (t : List (HostRow M)) (f : Frame M) (k : HostKey) : Prop :=
  (k.hasNull = true → (part HostRow.key k (instances db f.rows)).length ≤ 1) ∧
    (k.hasNull = false → k ∉ t.map HostRow.key →
      (part HostRow.key k (instances db f.rows)).getLast? = (part HostRow.key k (instances db f.rows)).head? ∧
        (f.hasDev = true → (part HostRow.key k (instances db (lastOf StatsRow.cells f.rows))).head? =
          (part HostRow.key k (instances db f.rows)).head?))

/-- The column types take every row and every key is in order, or they refuse the last row of a key. -/
def InsertOk (t : List (HostRow M)) (f : Frame M) : Prop :=
  ((∀ r ∈ instances db f.rows, db.accepts r = true) ∧ ∀ k, KeyOk db t f k) ∨
    ∃ k r, (part HostRow.key k (instances db f.rows)).getLast? = some r ∧ db.accepts r = false

/-- Two inserts, the first of rows of the second. -/
theorem sameRows_insert_iff (t : List (HostRow M)) {rows objs : List (HostRow M)} (hsub : rows ⊆ objs) :
    SameRows (insertIgnoringConflicts db t rows) (insertIgnoringConflicts db t objs) ↔
      ((∀ r ∈ objs, db.accepts r = true) ∧
        (insertRows HostRow.key HostKey.hasNull t rows).Perm (insertRows HostRow.key HostKey.hasNull t objs)) ∨
      ∃ r ∈ rows, db.accepts r = false := by
  unfold SameRows insertIgnoringConflicts
  by_cases hall : ∀ r ∈ objs, db.accepts r = true
  · have hrows : ∀ r ∈ rows, db.accepts r = true := fun r hr => hall r (hsub hr)
    rw [if_pos (List.all_eq_true.mpr hall), if_pos (List.all_eq_true.mpr hrows)]
    constructor
    · rintro ⟨hperm⟩
      exact Or.inl ⟨hall, hperm⟩
    · rintro (⟨-, hperm⟩ | ⟨r, hr, hrefused⟩)
      · exact Option.Rel.some hperm
      · rw [hrows r hr] at hrefused
        cases hrefused
  · rw [if_neg fun h => hall (List.all_eq_true.mp h)]
    by_cases hrows : ∀ r ∈ rows, db.accepts r = true
    · -- the refused row was dropped before the insert, so only one of the two raises
      rw [if_pos (List.all_eq_true.mpr hrows)]
      constructor
      · intro h
        cases h
      · rintro (⟨hobjs, -⟩ | ⟨r, hr, hrefused⟩)
        · exact absurd hobjs hall
        · rw [hrows r hr] at hrefused
          cases hrefused
    · rw [if_neg fun h => hrows (List.all_eq_true.mp h)]
      push Not at hrows
      obtain ⟨r, hr, hrefused⟩ := hrows
      exact ⟨fun _ => Or.inr ⟨r, hr, Bool.eq_false_iff.mpr hrefused⟩, fun _ => Option.Rel.none⟩

theorem part_instances (k : HostKey) (rows : List (StatsRow M)) :
    part HostRow.key k (instances db rows) =
      (part (fun row => (hostDataInstanceFromStatsRow db row).key) k rows).map (hostDataInstanceFromStatsRow db) :=
  part_of_map _ (fun _ => rfl) k rows

/-- A frame keeps the last row of every key. -/
theorem getLast?_collapseFrame (f : Frame M) (k : HostKey) :
    (part HostRow.key k (instances db (collapseFrame f))).getLast? =
      (part HostRow.key k (instances db f.rows)).getLast? := by
  unfold collapseFrame
  split_ifs
  · rw [part_instances, part_instances, List.getLast?_map, List.getLast?_map,
      getLast?_part_lastOf _ StatsRow.cells (fun _ _ => key_eq_of_cells db)]
  · rfl

theorem instances_collapseFrame_sublist (f : Frame M) :
    (instances db (collapseFrame f)).Sublist (instances db f.rows) := by
  unfold collapseFrame
  split_ifs
  · exact (lastOf_sublist _ _).map _
  · exact List.Sublist.refl _

/-- A list of at most one element, and a part of it with the same last element. -/
theorem perm_of_getLast? {α : Type} {l l' : List α} (hsub : l.Sublist l') (hlast : l.getLast? = l'.getLast?)
    (hlen : l'.length ≤ 1) : l.Perm l' := by
  match l', hlen with
  | [], _ => exact List.sublist_nil.mp hsub ▸ List.Perm.refl _
  | [b], _ =>
      match l, List.sublist_singleton.mp hsub with
      | _, Or.inl rfl => simp at hlast
      | _, Or.inr rfl => exact List.Perm.refl _

/-- A dropped row of a key with a NULL is missed. -/
theorem perm_getLast?_toList_iff {α : Type} (l : List α) : l.getLast?.toList.Perm l ↔ l.length ≤ 1 := by
  constructor
  · intro h
    rw [← h.length_eq]
    cases l.getLast? with
    | none => exact Nat.zero_le 1
    | some a => exact Nat.le_refl 1
  · intro h
    match l, h with
    | [], _ => exact List.Perm.refl _
    | [a], _ => exact List.Perm.refl _

theorem head?_getLast?_toList {α : Type} (l : List α) : l.getLast?.toList.head? = l.getLast? := by
  cases l.getLast? <;> rfl

theorem sameRows_lastByKey_iff (t objs : List (HostRow M)) :
    SameRows (insertIgnoringConflicts db t (lastByKey HostRow.key objs)) (insertIgnoringConflicts db t objs) ↔
      ((∀ r ∈ objs, db.accepts r = true) ∧ ∀ k : HostKey,
        (k.hasNull = true → (part HostRow.key k objs).length ≤ 1) ∧
          (k.hasNull = false → k ∉ t.map HostRow.key →
            (part HostRow.key k objs).getLast? = (part HostRow.key k objs).head?)) ∨
      ∃ k r, (part HostRow.key k objs).getLast? = some r ∧ db.accepts r = false := by
  rw [sameRows_insert_iff db t fun r hr => mem_of_mem_lastByKey HostRow.key hr,
    perm_insertRows_iff HostRow.key HostKey.hasNull]
  have hkeys : ∀ k : HostKey, part HostRow.key k (lastByKey HostRow.key objs) =
      (part HostRow.key k objs).getLast?.toList := fun k => part_lastByKey HostRow.key k objs
  simp only [hkeys, perm_getLast?_toList_iff, head?_getLast?_toList]
  refine or_congr Iff.rfl ?_
  constructor
  · rintro ⟨r, hr, hrefused⟩
    have hpart : r ∈ part HostRow.key r.key (lastByKey HostRow.key objs) := (mem_part HostRow.key).mpr ⟨hr, rfl⟩
    rw [hkeys, Option.mem_toList] at hpart
    exact ⟨r.key, r, hpart, hrefused⟩
  · rintro ⟨k, r, hlast, hrefused⟩
    have hpart : r ∈ part HostRow.key k (lastByKey HostRow.key objs) := by
      rw [hkeys, Option.mem_toList]
      exact hlast
    exact ⟨r, ((mem_part HostRow.key).mp hpart).1, hrefused⟩

/-- The row that the last of a key refuses is kept by a frame too. -/
theorem exists_refused_collapseFrame {f : Frame M} {k : HostKey} {r : HostRow M}
    (hlast : (part HostRow.key k (instances db f.rows)).getLast? = some r) (hrefused : db.accepts r = false) :
    ∃ q ∈ instances db (collapseFrame f), db.accepts q = false := by
  rw [← getLast?_collapseFrame] at hlast
  exact ⟨r, ((mem_part HostRow.key).mp (List.mem_of_getLast? hlast)).1, hrefused⟩

/-- **The COPY arm leaves the table that `bulk_create` leaves exactly for these batches.** -/
theorem sameTables_iff (t : List (HostRow M)) (f : Frame M) : SameTables db t f ↔ InsertOk db t f := by
  have hcopy := sameRows_lastByKey_iff db t (instances db f.rows)
  have hframe := sameRows_insert_iff db t (instances_collapseFrame_sublist db f).subset
  rw [perm_insertRows_iff HostRow.key HostKey.hasNull] at hframe
  constructor
  · rintro ⟨hf, -, hm⟩
    rw [bulkInsertHostFrame_eq, bulkCreateHostDataIgnoreConflicts_eq, hframe] at hf
    rw [bulkInsertHostDataIgnoreConflicts_eq, bulkCreateHostDataIgnoreConflicts_eq, hcopy] at hm
    rcases hm with ⟨hall, hkeys⟩ | hrefused
    · -- the sequences give the condition on every key, the frame only what it adds for `hasDev`
      refine Or.inl ⟨hall, fun k => ⟨(hkeys k).1, fun hnull hfree => ⟨(hkeys k).2 hnull hfree, fun hdev => ?_⟩⟩⟩
      rcases hf with ⟨-, hkept⟩ | ⟨r, hr, hrefused⟩
      · have hhead := (hkept k).2 hnull hfree
        rwa [collapseFrame, if_pos hdev] at hhead
      · rw [hall r ((instances_collapseFrame_sublist db f).subset hr)] at hrefused
        cases hrefused
    · exact Or.inr hrefused
  · intro h
    have hm : SameRows (insertIgnoringConflicts db t (lastByKey HostRow.key (instances db f.rows)))
        (insertIgnoringConflicts db t (instances db f.rows)) := by
      refine hcopy.mpr (h.imp ?_ id)
      rintro ⟨hall, hkeys⟩
      exact ⟨hall, fun k => ⟨(hkeys k).1, fun hnull hfree => ((hkeys k).2 hnull hfree).1⟩⟩
    refine ⟨?_, ?_, ?_⟩
    · rw [bulkInsertHostFrame_eq, bulkCreateHostDataIgnoreConflicts_eq]
      refine hframe.mpr ?_
      rcases h with ⟨hall, hkeys⟩ | ⟨k, r, hlast, hrefused⟩
      · refine Or.inl ⟨hall, fun k => ⟨fun hnull => ?_, fun hnull hfree => ?_⟩⟩
        · exact perm_of_getLast? ((instances_collapseFrame_sublist db f).filter _) (getLast?_collapseFrame db f k)
            ((hkeys k).1 hnull)
        · have hhead := ((hkeys k).2 hnull hfree).2
          unfold collapseFrame
          split_ifs with hdev
          · exact hhead hdev
          · rfl
      · exact Or.inr (exists_refused_collapseFrame db hlast hrefused)
    · rw [bulkInsertHostTuples_eq, bulkCreateHostDataIgnoreConflicts_eq]
      exact hm
    · rw [bulkInsertHostDataIgnoreConflicts_eq, bulkCreateHostDataIgnoreConflicts_eq]
      exact hm

/-- A database with measures in whole numbers. -/
def wholeDb : Db ℤ where
  fromTimestamp q := (q * 1000000).floor
  isoformat := toString
  readTime := pyInt
  readTime_isoformat := pyInt_toString_int
  measureText := toString
  readMeasure := pyInt
  readMeasure_text := pyInt_toString_int
  accepts _ := true

/-- A sample of a processor's user time. -/
def userSample (value : ℤ) : StatsRow ℤ :=
  ⟨.seconds 1, some "c1", some "7", some "cpu", some "0", some "user", some "cs", some value, none, none⟩

/-- A key sent twice with two values. -/
def twoSamples : Frame ℤ := ⟨true, [userSample 1, userSample 9], fun h => Bool.noConfusion h⟩

/-- `bulk_create` stores the first of two rows of a key, the COPY arm the last. -/
theorem not_sameTables : ¬ ∀ (t : List (HostRow ℤ)) (f : Frame ℤ), SameTables wholeDb t f := by
  intro h
  have hmodels := (h [] twoSamples).models
  rw [bulkInsertHostDataIgnoreConflicts_eq, bulkCreateHostDataIgnoreConflicts_eq, sameRows_lastByKey_iff] at hmodels
  rcases hmodels with ⟨-, hkeys⟩ | ⟨k, r, -, hrefused⟩
  · have hlast := (hkeys (hostDataInstanceFromStatsRow wholeDb (userSample 1)).key).2 rfl List.not_mem_nil
    have hvalues := congrArg (Option.map HostRow.value) hlast
    revert hvalues
    simp [twoSamples, instances, part, userSample, hostDataInstanceFromStatsRow, HostRow.key]
  · cases hrefused

end HostDataInsert
