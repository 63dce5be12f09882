/-
# Blank readings and deltas

A DCGM reading of `2 ** 47` or more is blank: the sensor had nothing to say.  The collapse of NVIDIA rows masks
blank values, but the deltas were taken before that, of the raw readings, and the raw readings are carried into
the next chunk.

* `run`: the chunks of a file one after the other, each through deltas, collapse and rates
* `Reblanked`: two frames that differ in which blank values their blank readings have
* `noDelta_iff`: no delta of a run is taken of a blank reading when the readings of each series keep apart
* `blanksMasked_iff`: just then a run does not depend on the blank values either
-/
import HpcPerfStats.DeltaGroups
import HpcPerfStats.NvidiaCollapse
import Mathlib.Data.List.Chain
import Mathlib.Data.Option.Basic

namespace DcgmBlanks

open KeyedList LabelCodes PyText FloatArith DeltaGroups
open CounterDeltas (SeriesKey seriesKey)
open NvidiaCollapse (Cell GpuRow GroupRow CollapsedRow collapseGroupColsWithDev collapseNvidiaGpuVectorized
  isDcgmNumericBlank isDcgmFp64Blank isDcgmNumericBlank_fin nanOut blanked nvidiaNanOutDcgmBlanks
  nvidiaNanOutDcgmBlanks_eq)

/-! ## Chunks -/

/-- A frame of NVIDIA rows. -/
structure NvidiaFrame extends Frame ℚ where
  nvidia : ∀ r ∈ rows, text (r.label .type) = "nvidia_gpu"

/-- `DeltaCarryState`. -/
structure Carry where
  raw : Raw ℚ
  arc : SeriesKey → Option ℚ

def Carry.empty : Carry := ⟨[], fun _ => none⟩

/-- A row of the delta frame as the collapse takes it. -/
def toGpuRow (r : CountedRow ℚ) : GpuRow where
  host := (ofLex r.key).1
  type := (ofLex (ofLex r.key).2).1
  dev := (ofLex (ofLex (ofLex r.key).2).2).1
  event := (ofLex (ofLex (ofLex r.key).2).2).2
  unit := r.unit
  time := r.time
  value := r.value
  delta := r.delta
  jid := none

/-- The text of the column at a place of the group key. -/
def cellText (r : GroupRow) (i : ℕ) : String :=
  match r.key[i]? with
  | some (.label s) => s
  | _ => ""

/-- `_ARC_GROUP_COLS`. -/
def arcKey (r : GroupRow) : SeriesKey :=
  seriesKey (cellText r 0) (cellText r 1) (cellText r 2) (cellText r 3)

def rowTime (r : GroupRow) : ℚ :=
  match r.key[(5 : ℕ)]? with
  | some (.stamp t) => t
  | _ => 0

section Run

variable (cast : ℚ → BitVec 64)

/-- `_collapse_stats_with_deltas`, of NVIDIA rows only. -/
def collapseStatsWithDeltas (counted : List (CountedRow ℚ)) : List GroupRow :=
  sortOn (rank arcKey rowTime)
    ((collapseNvidiaGpuVectorized cast collapseGroupColsWithDev (counted.map toGpuRow)).map
      CollapsedRow.toGroupRow)

/-- A row as it is stored. -/
structure StoredRow extends GroupRow where
  arc : PyFloat
  deriving DecidableEq

/-- `x / dt`, for a positive number `dt`. -/
def divide (x : PyFloat) (dt : ℚ) : PyFloat :=
  match x with
  | .fin x => .fin (x / dt)
  | x => x

/-- The rate of a row: since the row before it in the chunk, else since the carried time. -/
def arcOf (carried : SeriesKey → Option ℚ) (r : GroupRow) (prev : Option ℚ) : PyFloat :=
  match prev with
  | some t => if 0 < rowTime r - t then divide r.delta (rowTime r - t) else .nan
  | none =>
      match carried (arcKey r) with
      | none => .nan
      | some t =>
          if 0 < rowTime r - t ∧ isFinite r.delta = true then divide r.delta (rowTime r - t) else .nan

/-- `_apply_arc_and_finalize`: the stored rows and `carry.arc` behind them. -/
def applyArcAndFinalize (arc : SeriesKey → Option ℚ) (rows : List GroupRow) :
    List StoredRow × (SeriesKey → Option ℚ) :=
  ((walk arcKey (fun r => some (rowTime r)) (fun r prev => (⟨r, arcOf arc r prev⟩ : StoredRow))
      (fun _ => none) rows).filter fun r => !isNan r.value,
    walkTable arcKey (fun r => some (rowTime r)) arc rows)

/-- What a chunk gives: its delta frame, its stored rows, and the carry behind it. -/
structure ChunkResult where
  counted : List (CountedRow ℚ)
  stored : List StoredRow
  carry : Carry

/-- A chunk behind its deltas: collapse and rates. -/
def finishChunk (carry : Carry) (deltas : List (CountedRow ℚ) × Option (Raw ℚ)) : ChunkResult :=
  let final := applyArcAndFinalize carry.arc (collapseStatsWithDeltas cast deltas.1)
  ⟨deltas.1, final.1, ⟨deltas.2.getD [], final.2⟩⟩

/-- `compute_deltas_and_arc_chunk`; `none` is a `ValueError`. -/
def computeDeltasAndArcChunk (carry : Carry) (f : NvidiaFrame) : Option ChunkResult :=
  if f.rows = [] then some ⟨[], [], carry⟩
  else (applyCounterDeltas f.toFrame (some carry.raw)).map (finishChunk cast carry)

/-- A chunk of a run: `carry.raw` before it, its delta frame and its stored rows. -/
structure Flush where
  raw : Raw ℚ
  counted : List (CountedRow ℚ)
  stored : List StoredRow

/-- The chunks of a file, up to one that raises. -/
def run : Carry → List NvidiaFrame → List Flush
  | _, [] => []
  | carry, f :: frames =>
      match computeDeltasAndArcChunk cast carry f with
      | none => []
      | some result => ⟨carry.raw, result.counted, result.stored⟩ :: run result.carry frames

end Run

/-! ## Blanks -/

/-- The value, or another blank in the place of a blank. -/
def ReblankedValue (x y : PyFloat) : Prop :=
  y = x ∨ (isDcgmNumericBlank x = true ∧ isDcgmNumericBlank y = true)

/-- Rows that differ in a blank value at most. -/
def ReblankedRow (r r' : CounterRow ℚ) : Prop :=
  ∃ x, r' = { r with value := x } ∧ ReblankedValue r.value x

/-- The same frame with other blank values. -/
structure Reblanked (f f' : NvidiaFrame) : Prop where
  text : f'.text = f.text
  kind : f'.kind = f.kind
  rows : List.Forall₂ ReblankedRow f.rows f'.rows

/-- No finite delta of a series is taken of a blank reading; `prev` is the reading before the rows. -/
def NoDeltaFromBlank : Option PyFloat → List (CountedRow ℚ) → Prop
  | _, [] => True
  | prev, r :: rest =>
      ((isDcgmNumericBlank r.value = true ∨ ∃ p, prev = some p ∧ isDcgmNumericBlank p = true) →
        isFinite r.delta = false) ∧ NoDeltaFromBlank (some r.value) rest

/-- What masking the blanks owes: a run does not depend on the blank values, and takes no delta of them. -/
structure BlanksMasked (cast : ℚ → BitVec 64) (frames : List NvidiaFrame) : Prop where
  unchanged : ∀ frames', List.Forall₂ Reblanked frames frames' →
    (run cast .empty frames').map Flush.stored = (run cast .empty frames).map Flush.stored
  noDelta : ∀ flush ∈ run cast .empty frames, ∀ k,
    NoDeltaFromBlank (carried flush.raw k) (part CountedRow.key k flush.counted)

/-- One of two readings is blank and the other is a number. -/
def Apart (v w : PyFloat) : Prop :=
  (isDcgmNumericBlank v = true → isFinite w = false) ∧ (isDcgmNumericBlank w = true → isFinite v = false)

/-- The label codes of the frame can be packed where the guard lets them, or the frame has no row. -/
def packs (f : NvidiaFrame) : Bool :=
  decide (f.rows = [] ∨ (doubleProd f.sizes ≤ maxIndex → f.sizes.prod ≤ maxIndex))

/-- The readings of a series in the order in which they are subtracted. -/
def readings (k : SeriesKey) (frames : List NvidiaFrame) : List PyFloat :=
  frames.flatMap fun f => (seriesRows f.labelled k).map LabelledRow.value

/-- In every series the blank readings and the numbers keep apart. -/
def BlanksApart (frames : List NvidiaFrame) : Prop :=
  ∀ k, (readings k (frames.takeWhile packs)).IsChain Apart

/-! ## Readings and deltas -/

theorem exists_fin {x : PyFloat} (h : isFinite x = true) : ∃ v, x = .fin v := by
  cases x with
  | fin v => exact ⟨v, rfl⟩
  | inf negative => cases h
  | nan => cases h

theorem isFinite_of_blank {x : PyFloat} (h : isDcgmNumericBlank x = true) : isFinite x = true := by
  cases x with
  | fin v => rfl
  | inf negative => cases h
  | nan => cases h

theorem isFinite_addPow (wid : ℤ) (x : PyFloat) : isFinite (addPow wid x) = isFinite x := by
  cases x <;> rfl

theorem isFinite_scale (x : PyFloat) (m : ℚ) : isFinite (CodonFeed.scale x m) = isFinite x := by
  cases x with
  | fin v => rfl
  | inf negative =>
      unfold CodonFeed.scale
      split_ifs <;> rfl
  | nan => rfl

theorem isFinite_sub (x y : PyFloat) : isFinite (sub x y) = (isFinite x && isFinite y) := by
  cases x with
  | fin v => cases y <;> rfl
  | nan => rfl
  | inf negative =>
      cases y with
      | fin v => rfl
      | nan => rfl
      | inf negative' =>
          rw [sub]
          split_ifs <;> rfl

/-- A delta is finite when both of its readings are. -/
theorem isFinite_plainDelta (r : LabelledRow ℚ) (prev : Option PyFloat) :
    isFinite (plainDelta r prev) = (isFinite r.value && prev.any isFinite) := by
  unfold plainDelta
  dsimp only
  rw [isFinite_scale]
  have hwrap : ∀ d : PyFloat, isFinite (if isNeg d then addPow r.wid d else d) = isFinite d := by
    intro d
    split_ifs
    · exact isFinite_addPow r.wid d
    · rfl
  rw [hwrap]
  cases prev with
  | none => exact (Bool.and_false _).symm
  | some p => exact isFinite_sub r.value p

/-- One row: its delta keeps off the blanks when its two readings are apart. -/
theorem noDelta_row_iff (r : LabelledRow ℚ) {prev start : Option PyFloat}
    (hstart : start.any isFinite = prev.any isFinite) :
    ((isDcgmNumericBlank r.value = true ∨ ∃ p, prev = some p ∧ isDcgmNumericBlank p = true) →
        isFinite (plainDelta r start) = false) ↔ ∀ p, prev = some p → Apart p r.value := by
  rw [isFinite_plainDelta, hstart]
  unfold Apart
  cases prev with
  | none => exact iff_of_true (fun _ => Bool.and_false _) fun p hp => nomatch hp
  | some p =>
      simp only [Option.some.injEq, exists_eq_left', forall_eq', Option.any_some]
      constructor
      · intro h
        refine ⟨fun hp => ?_, fun hv => ?_⟩
        · have hdelta := h (Or.inr hp)
          rwa [isFinite_of_blank hp, Bool.and_true] at hdelta
        · have hdelta := h (Or.inl hv)
          rwa [isFinite_of_blank hv, Bool.true_and] at hdelta
      · rintro ⟨hp, hv⟩ (hblank | hblank)
        · rw [hv hblank, Bool.and_false]
        · rw [hp hblank, Bool.false_and]

theorem isChain_cons_opt {prev : Option PyFloat} {v : PyFloat} {vs : List PyFloat} :
    (prev.toList ++ v :: vs).IsChain Apart ↔ (∀ p, prev = some p → Apart p v) ∧ (v :: vs).IsChain Apart := by
  cases prev with
  | none => exact (and_iff_right fun p hp => nomatch hp).symm
  | some p =>
      simp only [Option.toList_some, List.singleton_append, List.isChain_cons_cons, Option.some.injEq, forall_eq']

/-- **One series of a chunk.** -/
theorem noDelta_series_iff {k : SeriesKey} (rows : List (LabelledRow ℚ)) : ∀ (prev : Option PyFloat)
    (table : SeriesKey → Option PyFloat), (∀ r ∈ rows, r.key = k) →
    (table k).any isFinite = prev.any isFinite →
    (NoDeltaFromBlank prev (walk LabelledRow.key seenValue plainRow table rows) ↔
      (prev.toList ++ rows.map LabelledRow.value).IsChain Apart) := by
  induction rows with
  | nil =>
      intro prev table _ _
      rw [List.map_nil, List.append_nil]
      refine iff_of_true trivial ?_
      cases prev with
      | none => exact List.IsChain.nil
      | some p => exact List.IsChain.singleton p
  | cons r rows ih =>
      intro prev table hkey htable
      have hr : r.key = k := hkey r List.mem_cons_self
      have hrest := ih (some r.value) (Function.update table k (seenValue r))
        (fun s hs => hkey s (List.mem_cons_of_mem r hs)) (by rw [Function.update_self]; rfl)
      rw [walk_cons, NoDeltaFromBlank, hr, List.map_cons, isChain_cons_opt]
      exact and_congr (noDelta_row_iff r htable) hrest

/-! ## The delta frame of a chunk -/

/-- The rows in the order of their codes and times. -/
def sortedRows (f : Frame ℚ) : List (LabelledRow ℚ) :=
  if doubleProd f.sizes ≤ maxIndex then
    sortOn (rank (fun r => ravel f.sizes (f.coderAll r)) LabelledRow.time) f.labelled
  else sortOn (rank f.coderAll LabelledRow.time) f.labelled

theorem part_sortedRows_key (f : Frame ℚ) (k : SeriesKey) :
    part LabelledRow.key k (sortedRows f) = seriesRows f.labelled k := by
  unfold sortedRows
  split_ifs
  · exact part_sortOn_rank (packed_keys f) k
  · exact part_sortOn_rank (grouped_keys f) k

theorem part_sortedRows (f : Frame ℚ) (table : SeriesKey → Option PyFloat) (k : SeriesKey) :
    part CountedRow.key k (walk LabelledRow.key seenValue plainRow table (sortedRows f)) =
      walk LabelledRow.key seenValue plainRow table (seriesRows f.labelled k) := by
  unfold sortedRows
  split_ifs
  · exact part_walk_coded (packed_keys f) table k
  · exact part_walk_coded (grouped_keys f) table k

/-- Both paths give the rows in that order with their plain deltas, and store the last rows. -/
theorem applyCounterDeltas_spec {f : Frame ℚ} {raw : Raw ℚ} {deltas : List (CountedRow ℚ) × Option (Raw ℚ)}
    (h : applyCounterDeltas f (some raw) = some deltas) :
    deltas.1 = walk LabelledRow.key seenValue plainRow (takenUp raw) (sortedRows f) ∧
      ∀ k, PyDict.get (deltas.2.getD []) k = lastEntries raw f.labelled k := by
  unfold applyCounterDeltas at h
  unfold sortedRows
  split_ifs at h with hempty hguard hfits
  · obtain rfl := Option.some.inj h
    obtain ⟨-, hcarry⟩ := packedDeltas_spec f (some raw)
    refine ⟨?_, hcarry⟩
    have hsorted := sortedOn_sortOn (rank (fun r : Coded ℚ => ravel f.sizes r.2) codedTime) f.coded
    have hgid : SortedOn (fun r : Coded ℚ => ravel f.sizes r.2)
        (sortOn (rank (fun r : Coded ℚ => ravel f.sizes r.2) codedTime) f.coded) := by
      refine hsorted.imp fun {a b} hab => ?_
      rcases Prod.Lex.toLex_le_toLex.mp hab with hlt | ⟨heq, -⟩
      · exact hlt.le
      · exact heq.le
    rw [if_pos hguard]
    unfold packedDeltas
    dsimp only
    rw [adjacent_eq_walk _ hgid, walk_coded f _ _ (packed_keys f)]
    rfl
  · obtain rfl := Option.some.inj h
    obtain ⟨-, hcarry⟩ := groupedDeltas_spec f (some raw)
    refine ⟨?_, hcarry⟩
    rw [if_neg hguard]
    unfold groupedDeltas groupDiffs
    dsimp only
    rw [walk_coded f _ _ (grouped_keys f)]
    rfl

theorem packs_iff {f : NvidiaFrame} (hrows : f.rows ≠ []) (raw : Raw ℚ) :
    packs f = true ↔ (applyCounterDeltas f.toFrame (some raw)).isSome = true := by
  unfold packs applyCounterDeltas
  rw [decide_eq_true_eq, or_iff_right hrows, if_neg hrows]
  split_ifs with hguard hfits
  · exact iff_of_true (fun _ => hfits) rfl
  · exact iff_of_false (fun h => hfits (h hguard)) (by simp)
  · exact iff_of_true (fun h => absurd h hguard) rfl

/-- The carry behind a chunk has the last reading of each series. -/
theorem carried_after {raw raw' : Raw ℚ} {rows : List (LabelledRow ℚ)}
    (h : ∀ k, PyDict.get raw' k = lastEntries raw rows k) (k : SeriesKey) :
    carried raw' k = ((carried raw k).toList ++ (seriesRows rows k).map LabelledRow.value).getLast? := by
  have hkey : ∀ r ∈ seriesRows rows k, r.key = k := fun r hr => ((mem_part LabelledRow.key).mp hr).2
  have hlast : lastEntries raw rows k = ((seriesRows rows k).getLast?.map fun r =>
      CarryEntry.tuple r.value r.wid r.mult r.time).orElse fun _ => PyDict.get raw k := by
    unfold lastEntries
    rw [walkTable_apply _ _ k _ _ _ rfl]
    refine (walkTable_of_one_key LabelledRow.key _ (seriesRows rows k) (PyDict.get raw) hkey).trans ?_
    cases (seriesRows rows k).getLast? <;> rfl
  unfold carried
  rw [h, hlast, List.getLast?_append, List.getLast?_map]
  cases (seriesRows rows k).getLast? with
  | some r => rfl
  | none => cases PyDict.get raw k <;> rfl

theorem noDelta_chunk_iff {f : Frame ℚ} {raw : Raw ℚ} {deltas : List (CountedRow ℚ) × Option (Raw ℚ)}
    (h : applyCounterDeltas f (some raw) = some deltas) (k : SeriesKey) :
    NoDeltaFromBlank (carried raw k) (part CountedRow.key k deltas.1) ↔
      ((carried raw k).toList ++ (seriesRows f.labelled k).map LabelledRow.value).IsChain Apart := by
  rw [(applyCounterDeltas_spec h).1, part_sortedRows]
  refine noDelta_series_iff _ _ _ (fun r hr => ((mem_part LabelledRow.key).mp hr).2) ?_
  unfold takenUp
  cases carried raw k with
  | none => rfl
  | some p =>
      rw [Option.filter_some]
      cases hp : isFinite p with
      | true => rfl
      | false => exact hp.symm

/-! ## Runs -/

theorem isChain_toList {α : Type*} (R : α → α → Prop) (o : Option α) : o.toList.IsChain R := by
  cases o with
  | none => exact List.IsChain.nil
  | some a => exact List.IsChain.singleton a

theorem getLast?_toList {α : Type*} (o : Option α) : o.toList.getLast? = o := by
  cases o with
  | none => rfl
  | some a => rfl

/-- A chain is cut behind any front of it. -/
theorem isChain_append_last (l m : List PyFloat) :
    (l ++ m).IsChain Apart ↔ l.IsChain Apart ∧ (l.getLast?.toList ++ m).IsChain Apart := by
  rw [List.isChain_append, List.isChain_append, getLast?_toList]
  exact and_congr_right fun _ => (and_iff_right (isChain_toList Apart _)).symm

section Runs

variable (cast : ℚ → BitVec 64)

/-- What becomes of a chunk. -/
theorem computeDeltasAndArcChunk_cases (carry : Carry) (f : NvidiaFrame) :
    (f.rows = [] ∧ packs f = true ∧ computeDeltasAndArcChunk cast carry f = some ⟨[], [], carry⟩) ∨
      (packs f = false ∧ computeDeltasAndArcChunk cast carry f = none) ∨
      (packs f = true ∧ ∃ deltas, applyCounterDeltas f.toFrame (some carry.raw) = some deltas ∧
        computeDeltasAndArcChunk cast carry f = some (finishChunk cast carry deltas)) := by
  unfold computeDeltasAndArcChunk
  by_cases hrows : f.rows = []
  · rw [if_pos hrows]
    exact Or.inl ⟨hrows, decide_eq_true (Or.inl hrows), rfl⟩
  · rw [if_neg hrows]
    have hpacks := packs_iff hrows carry.raw
    cases hdeltas : applyCounterDeltas f.toFrame (some carry.raw) with
    | none =>
        rw [hdeltas] at hpacks
        refine Or.inr (Or.inl ⟨?_, rfl⟩)
        by_contra hne
        exact absurd (hpacks.mp (Bool.of_not_eq_false hne)) (by simp)
    | some deltas =>
        rw [hdeltas] at hpacks
        exact Or.inr (Or.inr ⟨hpacks.mpr rfl, deltas, rfl, rfl⟩)

theorem readings_cons (k : SeriesKey) (f : NvidiaFrame) (frames : List NvidiaFrame) :
    readings k (f :: frames) = (seriesRows f.labelled k).map LabelledRow.value ++ readings k frames :=
  List.flatMap_cons

theorem seriesRows_empty {f : NvidiaFrame} (h : f.rows = []) (k : SeriesKey) : seriesRows f.labelled k = [] := by
  unfold Frame.labelled
  rw [h]
  rfl

/-- **No delta of a run is taken of a blank** just when the readings keep apart. -/
theorem noDelta_iff (frames : List NvidiaFrame) : ∀ carry : Carry,
    (∀ flush ∈ run cast carry frames, ∀ k,
        NoDeltaFromBlank (carried flush.raw k) (part CountedRow.key k flush.counted)) ↔
      ∀ k, ((carried carry.raw k).toList ++ readings k (frames.takeWhile packs)).IsChain Apart := by
  have hshort : ∀ o : Option PyFloat, (o.toList ++ []).IsChain Apart := by
    intro o
    rw [List.append_nil]
    exact isChain_toList Apart o
  induction frames with
  | nil => exact fun carry => iff_of_true (fun flush hflush => absurd hflush List.not_mem_nil) fun k => hshort _
  | cons f frames ih =>
      intro carry
      rw [run]
      rcases computeDeltasAndArcChunk_cases cast carry f with
        ⟨hrows, hpacks, hchunk⟩ | ⟨hpacks, hchunk⟩ | ⟨hpacks, deltas, hdeltas, hchunk⟩
      · -- an empty frame changes nothing
        have hreadings : ∀ k, readings k (f :: frames.takeWhile packs) = readings k (frames.takeWhile packs) := by
          intro k
          rw [readings_cons, seriesRows_empty hrows]
          rfl
        rw [hchunk, List.takeWhile_cons_of_pos hpacks]
        dsimp only
        rw [List.forall_mem_cons, ih carry]
        simp only [hreadings]
        exact and_iff_right fun k => trivial
      · rw [hchunk, List.takeWhile_cons_of_neg (by rw [hpacks]; exact Bool.false_ne_true)]
        exact iff_of_true (fun flush hflush => absurd hflush List.not_mem_nil) fun k => hshort _
      · rw [hchunk, List.takeWhile_cons_of_pos hpacks]
        dsimp only
        rw [List.forall_mem_cons, ih, ← forall_and]
        refine forall_congr' fun k => ?_
        have hcarried := carried_after (applyCounterDeltas_spec hdeltas).2 k
        rw [readings_cons, ← List.append_assoc]
        refine Iff.trans ?_ (isChain_append_last _ _).symm
        rw [← hcarried]
        exact and_congr (noDelta_chunk_iff hdeltas k) Iff.rfl

end Runs

/-! ## Two frames side by side -/

/-- A row, and a value that it may have instead. -/
structure RowPair where
  left : LabelledRow ℚ
  value : PyFloat
  same : ReblankedValue left.value value

def RowPair.right (p : RowPair) : LabelledRow ℚ :=
  { p.left with value := p.value }

theorem labelled_pairs {f f' : NvidiaFrame} (h : Reblanked f f') :
    ∃ z : List RowPair, f.labelled = z.map RowPair.left ∧ f'.labelled = z.map RowPair.right := by
  have hrows := h.rows
  unfold Frame.labelled
  rw [h.text]
  generalize f.rows = rows at hrows
  generalize f'.rows = rows' at hrows
  induction hrows with
  | nil => exact ⟨[], rfl, rfl⟩
  | cons hrow _ ih =>
      obtain ⟨z, hleft, hright⟩ := ih
      obtain ⟨x, rfl, hx⟩ := hrow
      refine ⟨⟨CounterRow.labelled f.text _, x, hx⟩ :: z, ?_, ?_⟩
      · rw [List.map_cons, List.map_cons, hleft]
      · rw [List.map_cons, List.map_cons, hright]
        rfl

/-- Nothing but the label texts enters the codes. -/
theorem codes_reblanked {f f' : NvidiaFrame} (h : Reblanked f f') :
    f'.sizes = f.sizes ∧ f'.coderAll = f.coderAll := by
  obtain ⟨z, hleft, hright⟩ := labelled_pairs h
  have htexts : ∀ c, (f'.labelled.map fun s => s.text c) = f.labelled.map fun s => s.text c := by
    intro c
    rw [hleft, hright, List.map_map, List.map_map]
    rfl
  have hcoder : ∀ c, f'.coder c = f.coder c := by
    intro c
    funext r
    unfold Frame.coder
    rw [h.kind, htexts]
  have hcodes : f'.codes = f.codes := by
    funext c
    rw [codes_eq, codes_eq, hcoder, hleft, hright, List.map_map, List.map_map]
    rfl
  constructor
  · unfold Frame.sizes
    rw [hcodes]
  · funext r
    unfold Frame.coderAll
    exact List.map_congr_left fun c _ => by rw [hcoder]

/-- The frames are sorted alike. -/
theorem sortedRows_pairs {f f' : NvidiaFrame} (h : Reblanked f f') :
    ∃ z : List RowPair, sortedRows f.toFrame = z.map RowPair.left ∧
      sortedRows f'.toFrame = z.map RowPair.right := by
  obtain ⟨z, hleft, hright⟩ := labelled_pairs h
  obtain ⟨hsizes, hcoder⟩ := codes_reblanked h
  have hsort : ∀ {ι : Type} [LinearOrder ι] (κ : LabelledRow ℚ → ι), (∀ p : RowPair, κ p.right = κ p.left) →
      sortOn (rank κ LabelledRow.time) f.labelled =
          (sortOn (rank κ LabelledRow.time ∘ RowPair.left) z).map RowPair.left ∧
        sortOn (rank κ LabelledRow.time) f'.labelled =
          (sortOn (rank κ LabelledRow.time ∘ RowPair.left) z).map RowPair.right := by
    intro ι _ κ hκ
    have hrank : rank κ LabelledRow.time ∘ RowPair.right = rank κ LabelledRow.time ∘ RowPair.left := by
      funext p
      show toLex (κ p.right, p.right.time) = toLex (κ p.left, p.left.time)
      rw [hκ]
      rfl
    rw [hleft, hright, sortOn_map, sortOn_map, hrank]
    exact ⟨rfl, rfl⟩
  have hcode : ∀ p : RowPair, f.coderAll p.right = f.coderAll p.left := fun p => rfl
  unfold sortedRows
  rw [hsizes, hcoder]
  split_ifs
  · exact ⟨_, hsort (fun r => ravel f.sizes (f.coderAll r)) fun p => by rw [hcode]⟩
  · exact ⟨_, hsort f.coderAll hcode⟩

theorem seriesRows_pairs {f f' : NvidiaFrame} (h : Reblanked f f') (k : SeriesKey) :
    ∃ z : List RowPair, seriesRows f.labelled k = z.map RowPair.left ∧
      seriesRows f'.labelled k = z.map RowPair.right := by
  obtain ⟨z, hleft, hright⟩ := labelled_pairs h
  refine ⟨part (LabelledRow.key ∘ RowPair.left) k (sortOn (LabelledRow.time ∘ RowPair.left) z), ?_, ?_⟩
  · unfold seriesRows
    rw [hleft, sortOn_map]
    exact part_of_map _ (fun p => rfl) k _
  · unfold seriesRows
    rw [hright, sortOn_map]
    exact part_of_map _ (fun p => rfl) k _

/-! ## The masked delta frames -/

theorem nanOut_reblanked {x y : PyFloat} (h : ReblankedValue x y) : nanOut x = nanOut y := by
  have hmasked : ∀ {x : PyFloat}, isDcgmNumericBlank x = true → nanOut x = .nan := by
    intro x hx
    cases x with
    | fin v =>
        rw [isDcgmNumericBlank_fin] at hx
        exact if_pos hx
    | inf negative => cases hx
    | nan => cases hx
  rcases h with rfl | ⟨hx, hy⟩
  · rfl
  · rw [hmasked hx, hmasked hy]

/-- The difference to what is no number is the same for all numbers. -/
theorem sub_finite_left {x y p : PyFloat} (hx : isFinite x = true) (hy : isFinite y = true)
    (hp : isFinite p = false) : sub x p = sub y p := by
  obtain ⟨v, rfl⟩ := exists_fin hx
  obtain ⟨w, rfl⟩ := exists_fin hy
  cases p with
  | fin q => cases hp
  | inf negative => rfl
  | nan => rfl

theorem sub_finite_right {x y p : PyFloat} (hx : isFinite x = true) (hy : isFinite y = true)
    (hp : isFinite p = false) : sub p x = sub p y := by
  obtain ⟨v, rfl⟩ := exists_fin hx
  obtain ⟨w, rfl⟩ := exists_fin hy
  cases p with
  | fin q => cases hp
  | inf negative => rfl
  | nan => rfl

/-- **One delta** is the same when blanks are replaced that have no number beside them. -/
theorem plainDelta_reblanked (p : RowPair) {s s' : Option PyFloat} (hs : Option.Rel ReblankedValue s s')
    (hapart : ∀ v, s = some v → Apart v p.left.value) : plainDelta p.left s = plainDelta p.right s' := by
  have hdiff : (s.map (sub p.left.value)).getD .nan = (s'.map (sub p.value)).getD .nan := by
    cases hs with
    | none => rfl
    | some hv =>
        obtain ⟨hleft, hright⟩ := hapart _ rfl
        simp only [Option.map_some, Option.getD_some]
        rcases hv with rfl | ⟨hv, hv'⟩
        · rcases p.same with heq | ⟨hx, hx'⟩
          · rw [heq]
          · exact sub_finite_left (isFinite_of_blank hx) (isFinite_of_blank hx') (hright hx)
        · -- the reading before is blank, so this one is no number
          have hno := hleft hv
          rcases p.same with heq | ⟨hx, -⟩
          · rw [heq]
            exact sub_finite_right (isFinite_of_blank hv) (isFinite_of_blank hv') hno
          · rw [isFinite_of_blank hx] at hno
            cases hno
  unfold plainDelta
  dsimp only
  rw [hdiff]
  rfl

theorem rel_filter {s s' : Option PyFloat} (h : Option.Rel ReblankedValue s s') :
    Option.Rel ReblankedValue (s.filter fun x => isFinite x) (s'.filter fun x => isFinite x) := by
  cases h with
  | none => exact Option.Rel.none
  | some hv =>
      rw [Option.filter_some, Option.filter_some]
      rcases hv with rfl | ⟨hx, hy⟩
      · split_ifs
        · exact Option.Rel.some (Or.inl rfl)
        · exact Option.Rel.none
      · rw [if_pos (isFinite_of_blank hx), if_pos (isFinite_of_blank hy)]
        exact Option.Rel.some (Or.inr ⟨hx, hy⟩)

theorem isChain_filter {s : Option PyFloat} {vs : List PyFloat} (h : (s.toList ++ vs).IsChain Apart) :
    ((s.filter fun x => isFinite x).toList ++ vs).IsChain Apart := by
  cases s with
  | none => exact h
  | some p =>
      rw [Option.filter_some]
      split_ifs
      · exact h
      · exact (List.isChain_append.mp h).2.1

/-- Rows of one series meet readings that are apart from theirs. -/
theorem apart_of_consecutive {l : List RowPair} : ∀ {start : Option PyFloat},
    (start.toList ++ l.map fun p => p.left.value).IsChain Apart →
    ∀ q ∈ consecutive (fun p : RowPair => seenValue p.left) start l, ∀ v, q.2 = some v → Apart v q.1.left.value := by
  induction l with
  | nil => intro start _ q hq; cases hq
  | cons p l ih =>
      intro start hchain q hq v hv
      rw [List.map_cons, isChain_cons_opt] at hchain
      rw [consecutive] at hq
      rcases List.mem_cons.mp hq with rfl | hq
      · exact hchain.1 v hv
      · exact @ih (some p.left.value) hchain.2 q hq v hv

/-- The carries hold the same readings but for blanks. -/
def SameCarried (raw raw' : Raw ℚ) : Prop :=
  ∀ k, Option.Rel ReblankedValue (carried raw k) (carried raw' k)

/-- **The masked delta frames are equal** when the readings of each series, from the carried one on, keep apart. -/
theorem masked_eq {raw raw' : Raw ℚ} (hraw : SameCarried raw raw') {z : List RowPair}
    (hapart : ∀ k, ((carried raw k).toList ++
      (part (fun p : RowPair => p.left.key) k z).map fun p => p.left.value).IsChain Apart) :
    ((walk LabelledRow.key seenValue plainRow (takenUp raw) (z.map RowPair.left)).map toGpuRow).map blanked =
      ((walk LabelledRow.key seenValue plainRow (takenUp raw') (z.map RowPair.right)).map toGpuRow).map blanked := by
  rw [walk_of_map, walk_of_map, walk_eq_map_held, walk_eq_map_held]
  have hkey : LabelledRow.key ∘ RowPair.right = LabelledRow.key ∘ RowPair.left := by
    funext p
    rfl
  rw [hkey]
  obtain ⟨hleft, hright⟩ := held_prod (LabelledRow.key ∘ RowPair.left) (seenValue ∘ RowPair.left)
    (seenValue ∘ RowPair.right) z (takenUp raw) (takenUp raw')
  rw [← hleft, ← hright]
  simp only [List.map_map]
  refine List.map_congr_left fun q hq => ?_
  obtain ⟨p, s, s'⟩ := q
  have hrel : Option.Rel ReblankedValue s s' := by
    obtain ⟨-, htable | ⟨b, -, hseen⟩⟩ := mem_held _ _ z _ hq
    · obtain ⟨hs, hs'⟩ := Prod.mk.inj htable
      rw [hs, hs']
      exact rel_filter (hraw _)
    · obtain ⟨hs, hs'⟩ := Prod.mk.inj hseen
      rw [hs, hs']
      exact Option.Rel.some b.same
  have hprev : ∀ v, s = some v → Apart v p.left.value := by
    have hheld : (p, s) ∈ held (LabelledRow.key ∘ RowPair.left) (seenValue ∘ RowPair.left) (takenUp raw) z := by
      rw [← hleft]
      exact List.mem_map_of_mem hq
    intro v hv
    exact apart_of_consecutive (isChain_filter (hapart p.left.key)) _ (mem_consecutive_of_held _ _ hheld) v hv
  have hdelta := plainDelta_reblanked p hrel hprev
  have hvalue := nanOut_reblanked p.same
  show blanked (toGpuRow (plainRow p.left s)) = blanked (toGpuRow (plainRow p.right s'))
  unfold blanked toGpuRow plainRow
  dsimp only
  rw [hdelta, hvalue]
  rfl

/-- The carries behind two such chunks. -/
theorem sameCarried_after {f f' : NvidiaFrame} (h : Reblanked f f') {raw raw' next next' : Raw ℚ}
    (hraw : SameCarried raw raw') (hnext : ∀ k, PyDict.get next k = lastEntries raw f.labelled k)
    (hnext' : ∀ k, PyDict.get next' k = lastEntries raw' f'.labelled k) : SameCarried next next' := by
  intro k
  obtain ⟨z, hleft, hright⟩ := seriesRows_pairs h k
  rw [carried_after hnext, carried_after hnext', hleft, hright, List.getLast?_append, List.getLast?_append,
    List.getLast?_map, List.getLast?_map, List.getLast?_map, List.getLast?_map, getLast?_toList,
    getLast?_toList]
  cases z.getLast? with
  | none => exact hraw k
  | some p => exact Option.Rel.some p.same

section Unchanged

variable (cast : ℚ → BitVec 64)

theorem packs_reblanked {f f' : NvidiaFrame} (h : Reblanked f f') : packs f' = packs f := by
  have hempty : f'.rows = [] ↔ f.rows = [] := by
    rw [← List.length_eq_zero_iff, ← List.length_eq_zero_iff, h.rows.length_eq]
  unfold packs
  simp only [hempty, (codes_reblanked h).1]

/-- Behind the deltas a chunk reads masked rows only. -/
theorem finishChunk_congr {carry carry' : Carry} (harc : carry'.arc = carry.arc)
    {deltas deltas' : List (CountedRow ℚ) × Option (Raw ℚ)}
    (h : (deltas.1.map toGpuRow).map blanked = (deltas'.1.map toGpuRow).map blanked) :
    (finishChunk cast carry' deltas').stored = (finishChunk cast carry deltas).stored ∧
      (finishChunk cast carry' deltas').carry.arc = (finishChunk cast carry deltas).carry.arc := by
  have hcollapse : collapseStatsWithDeltas cast deltas'.1 = collapseStatsWithDeltas cast deltas.1 := by
    unfold collapseStatsWithDeltas collapseNvidiaGpuVectorized
    rw [nvidiaNanOutDcgmBlanks_eq, nvidiaNanOutDcgmBlanks_eq, h]
  unfold finishChunk
  dsimp only
  rw [hcollapse, harc]
  exact ⟨rfl, rfl⟩

/-- **One chunk** stores the same rows and carries the same, but for blanks. -/
theorem chunk_eq {f f' : NvidiaFrame} (hf : Reblanked f f') {carry carry' : Carry}
    (hraw : SameCarried carry.raw carry'.raw) (harc : carry'.arc = carry.arc)
    {deltas deltas' : List (CountedRow ℚ) × Option (Raw ℚ)}
    (h : applyCounterDeltas f.toFrame (some carry.raw) = some deltas)
    (h' : applyCounterDeltas f'.toFrame (some carry'.raw) = some deltas')
    (hapart : ∀ k, ((carried carry.raw k).toList ++
      (seriesRows f.labelled k).map LabelledRow.value).IsChain Apart) :
    (finishChunk cast carry' deltas').stored = (finishChunk cast carry deltas).stored ∧
      (finishChunk cast carry' deltas').carry.arc = (finishChunk cast carry deltas).carry.arc ∧
      SameCarried (finishChunk cast carry deltas).carry.raw (finishChunk cast carry' deltas').carry.raw := by
  obtain ⟨hcounted, hnext⟩ := applyCounterDeltas_spec h
  obtain ⟨hcounted', hnext'⟩ := applyCounterDeltas_spec h'
  obtain ⟨z, hleft, hright⟩ := sortedRows_pairs hf
  have hmasked : (deltas.1.map toGpuRow).map blanked = (deltas'.1.map toGpuRow).map blanked := by
    rw [hcounted, hcounted', hleft, hright]
    refine masked_eq hraw fun k => ?_
    have hpart : (part (fun p : RowPair => p.left.key) k z).map RowPair.left = seriesRows f.labelled k := by
      rw [← part_sortedRows_key, hleft]
      exact (part_of_map (fun p : RowPair => p.left.key) (fun p => rfl) k z).symm
    have hvalues := hapart k
    rw [← hpart, List.map_map] at hvalues
    exact hvalues
  obtain ⟨hstored, harc'⟩ := finishChunk_congr cast harc hmasked
  exact ⟨hstored, harc', sameCarried_after hf hraw hnext hnext'⟩

/-- **A run does not depend on the blank values** when the readings keep apart. -/
theorem stored_eq {frames frames' : List NvidiaFrame} (h : List.Forall₂ Reblanked frames frames') :
    ∀ carry carry' : Carry, SameCarried carry.raw carry'.raw → carry'.arc = carry.arc →
    (∀ k, ((carried carry.raw k).toList ++ readings k (frames.takeWhile packs)).IsChain Apart) →
    (run cast carry' frames').map Flush.stored = (run cast carry frames).map Flush.stored := by
  induction h with
  | nil => exact fun _ _ _ _ _ => rfl
  | @cons f f' frames frames' hf hframes ih =>
      intro carry carry' hraw harc hapart
      have hpacks' := packs_reblanked hf
      have hempty : f'.rows = [] ↔ f.rows = [] := by
        rw [← List.length_eq_zero_iff, ← List.length_eq_zero_iff, hf.rows.length_eq]
      rw [run, run]
      rcases computeDeltasAndArcChunk_cases cast carry f with
        ⟨hrows, hpacks, hchunk⟩ | ⟨hpacks, hchunk⟩ | ⟨hpacks, deltas, hdeltas, hchunk⟩
      · have hchunk' : computeDeltasAndArcChunk cast carry' f' = some ⟨[], [], carry'⟩ :=
          if_pos (hempty.mpr hrows)
        rw [hchunk, hchunk']
        dsimp only
        rw [List.map_cons, List.map_cons, ih carry carry' hraw harc fun k => ?_]
        have hk := hapart k
        rw [List.takeWhile_cons_of_pos hpacks, readings_cons, seriesRows_empty hrows] at hk
        exact hk
      · rcases computeDeltasAndArcChunk_cases cast carry' f' with
          ⟨-, hp, -⟩ | ⟨-, hchunk'⟩ | ⟨hp, -⟩
        · rw [hpacks', hpacks] at hp
          cases hp
        · rw [hchunk, hchunk']
        · rw [hpacks', hpacks] at hp
          cases hp
      · rcases computeDeltasAndArcChunk_cases cast carry' f' with
          ⟨hrows', -, -⟩ | ⟨hp, -⟩ | ⟨-, deltas', hdeltas', hchunk'⟩
        · have hnone : applyCounterDeltas f.toFrame (some carry.raw) = none := if_pos (hempty.mp hrows')
          rw [hnone] at hdeltas
          cases hdeltas
        · rw [hpacks', hpacks] at hp
          cases hp
        · have hsplit : ∀ k, ((carried carry.raw k).toList ++
                (seriesRows f.labelled k).map LabelledRow.value).IsChain Apart ∧
              ((carried (deltas.2.getD []) k).toList ++ readings k (frames.takeWhile packs)).IsChain Apart := by
            intro k
            have hk := hapart k
            rw [List.takeWhile_cons_of_pos hpacks, readings_cons, ← List.append_assoc] at hk
            rw [carried_after (applyCounterDeltas_spec hdeltas).2 k]
            exact (isChain_append_last _ _).mp hk
          obtain ⟨hstored, harc', hraw'⟩ := chunk_eq cast hf hraw harc hdeltas hdeltas' fun k => (hsplit k).1
          rw [hchunk, hchunk']
          dsimp only
          rw [List.map_cons, List.map_cons, hstored, ih _ _ hraw' harc' fun k => (hsplit k).2]

end Unchanged

/-! ## When blanks are masked -/

/-- **A run depends on no blank value, and takes no delta of one, exactly when no blank reading stands next to a
number in its series.** -/
theorem blanksMasked_iff (cast : ℚ → BitVec 64) (frames : List NvidiaFrame) :
    BlanksMasked cast frames ↔ BlanksApart frames := by
  have hrun := noDelta_iff cast frames .empty
  constructor
  · exact fun h => hrun.mp h.noDelta
  · intro h
    refine ⟨fun frames' hframes => ?_, hrun.mpr h⟩
    exact stored_eq cast hframes .empty .empty (fun k => Option.Rel.none) rfl h

/-- A sensor that was blank first and then read 300 watts. -/
def wokenFrame (blank : ℚ) : NvidiaFrame where
  rows := [⟨fun c => if c = .type then 1 else 0, "W", 1, .fin blank, 48, 1⟩,
    ⟨fun c => if c = .type then 1 else 0, "W", 2, .fin 300, 48, 1⟩]
  text := fun o => if o = 1 then "nvidia_gpu" else "power_usage"
  kind := fun _ => .objects
  in_categories := by
    intro c categories h
    cases h
  nvidia := by
    intro r hr
    rw [List.mem_cons, List.mem_singleton] at hr
    rcases hr with rfl | rfl <;> rfl

/-- The delta that is stored with the 300 watts tells which blank was read. -/
theorem not_blanksMasked : ¬ ∀ (cast : ℚ → BitVec 64) (frames : List NvidiaFrame), BlanksMasked cast frames := by
  intro h
  have hreblanked : Reblanked (wokenFrame 140737488355328) (wokenFrame 140737488355329) := by
    refine ⟨rfl, rfl, List.Forall₂.cons ⟨_, rfl, Or.inr ⟨by decide +kernel, by decide +kernel⟩⟩ ?_⟩
    exact List.Forall₂.cons ⟨_, rfl, Or.inl rfl⟩ List.Forall₂.nil
  have hstored := (h (fun _ => 0) [wokenFrame 140737488355328]).unchanged [wokenFrame 140737488355329]
    (List.Forall₂.cons hreblanked List.Forall₂.nil)
  have hdeltas := congrArg (List.map (List.map fun r : StoredRow => r.delta)) hstored
  revert hdeltas
  decide +kernel

end DcgmBlanks
