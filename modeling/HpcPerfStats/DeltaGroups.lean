/-
# Counter deltas over packed group codes (`_apply_counter_deltas`)

The four label columns of a frame (host, type, device, event) are turned into codes: a
categorical column has them, an object column is coded by the IDENTITY of its strings and
then by value, any other column by value.  When the product of the code ranges is small
enough the codes of a row are packed into one number, the rows are sorted by it and by
time, and neighbours are subtracted; otherwise the frame is sorted and grouped by the
codes themselves.  First rows of a series take up the value that is carried from the
chunk before, last rows are stored in the carry.

`plainDeltas` says what comes out for each series by itself: the rows in time order, ties
in input order, each with the difference to the row before or to the carried value.

Floats are exact, with infinities and NaN.  The label texts are there (no missing label).
Main results: `plain_iff` and `not_plain_of_infinite_carry`.
-/
import HpcPerfStats.CounterDeltas
import HpcPerfStats.CodonFeed
import HpcPerfStats.FloatArith
import HpcPerfStats.LabelCodes
import HpcPerfStats.PyDict

namespace DeltaGroups

open KeyedList LabelCodes PyText FloatArith CounterDeltas

variable {τ : Type*}

/-! ## Frames -/

/-- `_COUNTER_GROUP_COLS`. -/
inductive GroupCol where
  | host
  | type
  | dev
  | event
  deriving DecidableEq, Repr

def groupCols : List GroupCol :=
  [.host, .type, .dev, .event]

/-- A row of the frame; its labels are string objects. -/
structure CounterRow (τ : Type*) where
  label : GroupCol → ℕ
  unit : String
  time : τ
  value : PyFloat
  wid : ℤ
  mult : ℚ

/-- A row with the texts of its labels. -/
structure LabelledRow (τ : Type*) where
  text : GroupCol → String
  unit : String
  time : τ
  value : PyFloat
  wid : ℤ
  mult : ℚ

/-- What a label column is stored as. -/
inductive ColumnKind where
  /-- an array of pointers to strings -/
  | objects
  | other
  /-- a categorical column with its categories -/
  | categorical (categories : List String)
  deriving DecidableEq

/-- A frame: its rows, the texts of the string objects, and how the label columns are stored. -/
structure Frame (τ : Type*) where
  rows : List (CounterRow τ)
  text : ℕ → String
  kind : GroupCol → ColumnKind
  /-- the labels of a categorical column are among its categories -/
  in_categories : ∀ c categories, kind c = .categorical categories →
    ∀ r ∈ rows, text (r.label c) ∈ categories

def CounterRow.labelled (text : ℕ → String) (r : CounterRow τ) : LabelledRow τ :=
  ⟨fun c => text (r.label c), r.unit, r.time, r.value, r.wid, r.mult⟩

/-- The rows with the texts of their labels. -/
def Frame.labelled (f : Frame τ) : List (LabelledRow τ) :=
  f.rows.map (CounterRow.labelled f.text)

def LabelledRow.key (r : LabelledRow τ) : SeriesKey :=
  seriesKey (r.text .host) (r.text .type) (r.text .dev) (r.text .event)

/-- A row with its delta. -/
structure CountedRow (τ : Type*) where
  key : SeriesKey
  unit : String
  time : τ
  value : PyFloat
  delta : PyFloat
  deriving DecidableEq

/-- What the carry holds of a series. -/
inductive CarryEntry (τ : Type*) where
  | tuple (value : PyFloat) (wid : ℤ) (mult : ℚ) (time : τ)
  /-- an entry of the older form, a dictionary -/
  | dict (value : PyFloat)
  deriving DecidableEq

/-- `prev[0] if isinstance(prev, tuple) else prev["value"]`. -/
def CarryEntry.value : CarryEntry τ → PyFloat
  | .tuple value _ _ _ => value
  | .dict value => value

/-- `carry.raw`. -/
abbrev Raw (τ : Type*) :=
  List (SeriesKey × CarryEntry τ)

/-! ## Codes -/

/-- The string objects of a label column. -/
def Frame.column (f : Frame τ) (c : GroupCol) : List ℕ :=
  f.rows.map fun r => r.label c

/-- The codes of a label column. -/
def Frame.codes (f : Frame τ) (c : GroupCol) : List ℕ :=
  match f.kind c with
  | .objects => codesByIdentity f.text (f.column c)
  | .other => (factorizeSorted ((f.column c).map f.text)).1
  | .categorical categories => (f.column c).map fun o => categories.idxOf (f.text o)

/-- `sizes`: the highest code of each column and one. -/
def Frame.sizes (f : Frame τ) : List ℕ :=
  groupCols.map fun c => (f.codes c).max?.getD 0 + 1

/-- A row with its codes. -/
abbrev Coded (τ : Type*) :=
  LabelledRow τ × List ℕ

/-- The rows with the columns of codes beside them. -/
def Frame.coded (f : Frame τ) : List (Coded τ) :=
  f.rows.zipIdx.map fun p => (p.1.labelled f.text, groupCols.map fun c => (f.codes c).getD p.2 0)

/-! ## Differences -/

/-- A row with its difference before the carry, and whether it is the first of its group. -/
structure Marked (τ : Type*) where
  row : LabelledRow τ
  delta : PyFloat
  isFirst : Bool

/-- The difference to the row before in the group. -/
def mark (r : Coded τ) (prev : Option (Coded τ)) : Marked τ :=
  match prev with
  | none => ⟨r.1, .nan, true⟩
  | some p => ⟨r.1, sub r.1.value p.1.value, false⟩

/-- Differences of neighbours with one packed code. -/
def adjacent (gid : Coded τ → ℕ) : Option (Coded τ) → List (Coded τ) → List (Marked τ)
  | _, [] => []
  | prev, r :: rest =>
      mark r (prev.filter fun p => gid p = gid r) :: adjacent gid (some r) rest

/-- The rows in front of a neighbour with another packed code, and the last row. -/
def adjacentLasts (gid : Coded τ → ℕ) : List (Coded τ) → List (Coded τ)
  | [] => []
  | [r] => [r]
  | r :: s :: rest =>
      if gid r = gid s then adjacentLasts gid (s :: rest) else r :: adjacentLasts gid (s :: rest)

/-- `groupby(...).diff()`, with the rows of `head(1)` marked. -/
def groupDiffs (l : List (Coded τ)) : List (Marked τ) :=
  walk Prod.snd some mark (fun _ => none) l

/-- `groupby(...).tail(1)`. -/
def groupLasts : List (Coded τ) → List (Coded τ)
  | [] => []
  | r :: rest => if rest.any fun s => s.2 = r.2 then groupLasts rest else r :: groupLasts rest

/-- The difference of a first row to the carried value, when that is finite. -/
def carriedDelta (raw : Raw τ) (m : Marked τ) : PyFloat :=
  if m.isFirst then
    match PyDict.get raw m.row.key with
    | some e => if isFinite e.value then sub m.row.value e.value else m.delta
    | none => m.delta
  else m.delta

/-- Counter wrap of negative finite differences, and the multiplier. -/
def finishDelta (r : LabelledRow τ) (delta : PyFloat) : PyFloat :=
  CodonFeed.scale (if isNeg delta && isFinite delta then addPow r.wid delta else delta) r.mult

def finishMark (raw : Raw τ) (m : Marked τ) : CountedRow τ :=
  ⟨m.row.key, m.row.unit, m.row.time, m.row.value, finishDelta m.row (carriedDelta raw m)⟩

/-- One entry of `carry.raw.update`. -/
def store (raw : Raw τ) (r : Coded τ) : Raw τ :=
  PyDict.set raw r.1.key (.tuple r.1.value r.1.wid r.1.mult r.1.time)

def codedTime (r : Coded τ) : τ :=
  r.1.time

section Results

variable [LinearOrder τ]

/-- The path over packed codes. -/
def packedDeltas (f : Frame τ) (carry : Option (Raw τ)) : List (CountedRow τ) × Option (Raw τ) :=
  let gid : Coded τ → ℕ := fun r => ravel f.sizes r.2
  let l := sortOn (rank gid codedTime) f.coded
  ((adjacent gid none l).map (finishMark (carry.getD [])),
    carry.map fun raw => (adjacentLasts gid l).foldl store raw)

/-- The path by sorting and grouping. -/
def groupedDeltas (f : Frame τ) (carry : Option (Raw τ)) : List (CountedRow τ) × Option (Raw τ) :=
  let l := sortOn (rank Prod.snd codedTime) f.coded
  ((groupDiffs l).map (finishMark (carry.getD [])),
    carry.map fun raw => (groupLasts l).foldl store raw)

/-- The largest index of an array. -/
def maxIndex : ℕ := 2 ^ 63 - 1

/-- `_apply_counter_deltas`: the rows with their deltas and the carry behind them.  `none` is a
`ValueError`: the maximum of no codes, or a code range that `np.ravel_multi_index` cannot pack. -/
def applyCounterDeltas (f : Frame τ) (carry : Option (Raw τ)) :
    Option (List (CountedRow τ) × Option (Raw τ)) :=
  if f.rows = [] then none
  else if doubleProd f.sizes ≤ maxIndex then
    if f.sizes.prod ≤ maxIndex then some (packedDeltas f carry) else none
  else some (groupedDeltas f carry)

/-! ## The plain result -/

/-- The delta of a row to the value before: a negative difference is raised by `2 ^ wid`. -/
def plainDelta (r : LabelledRow τ) (prev : Option PyFloat) : PyFloat :=
  let d := (prev.map (sub r.value)).getD .nan
  CodonFeed.scale (if isNeg d then addPow r.wid d else d) r.mult

def plainRow (r : LabelledRow τ) (prev : Option PyFloat) : CountedRow τ :=
  ⟨r.key, r.unit, r.time, r.value, plainDelta r prev⟩

/-- The carried values. -/
def carried (raw : Raw τ) (k : SeriesKey) : Option PyFloat :=
  (PyDict.get raw k).map CarryEntry.value

def seenValue (r : LabelledRow τ) : Option PyFloat :=
  some r.value

/-- The rows in time order, ties in input order, each with its delta to the row before it in its
series, or to the carried value. -/
def plainDeltas (raw : Raw τ) (rows : List (LabelledRow τ)) : List (CountedRow τ) :=
  walk LabelledRow.key seenValue plainRow (carried raw) (sortOn LabelledRow.time rows)

/-- What the carry holds behind the rows: the last row of every series. -/
def lastEntries (raw : Raw τ) (rows : List (LabelledRow τ)) : SeriesKey → Option (CarryEntry τ) :=
  walkTable LabelledRow.key (fun r => some (.tuple r.value r.wid r.mult r.time))
    (PyDict.get raw) (sortOn LabelledRow.time rows)

/-- The carry behind the rows, if there is one. -/
def CarryHolds (rows : List (LabelledRow τ)) : Option (Raw τ) → Option (Raw τ) → Prop
  | none, none => True
  | some raw, some raw' => ∀ k, PyDict.get raw' k = lastEntries raw rows k
  | _, _ => False

/-- **The law of the deltas.**  The call returns every row with its plain delta, in some order, and
leaves the last value of every series in the carry. -/
def Plain (f : Frame τ) (carry : Option (Raw τ)) : Prop :=
  ∃ out carry', applyCounterDeltas f carry = some (out, carry') ∧
    out.Perm (plainDeltas (carry.getD []) f.labelled) ∧ CarryHolds f.labelled carry carry'

end Results

/-- The frames hold the same rows, whichever objects hold the label texts. -/
def SameTexts (f f' : Frame τ) : Prop :=
  f.labelled = f'.labelled ∧ f.kind = f'.kind

/-! ## What the codes are -/

/-- The code of a row in a column, read off its label text. -/
def Frame.coder (f : Frame τ) (c : GroupCol) (r : LabelledRow τ) : ℕ :=
  match f.kind c with
  | .categorical categories => categories.idxOf (r.text c)
  | _ => (sortedUniques (f.labelled.map fun s => s.text c)).idxOf (r.text c)

theorem column_texts (f : Frame τ) (c : GroupCol) :
    (f.column c).map f.text = f.labelled.map fun r => r.text c := by
  unfold Frame.column Frame.labelled
  rw [List.map_map, List.map_map]
  rfl

/-- **The codes of a column are those of its texts.** -/
theorem codes_eq (f : Frame τ) (c : GroupCol) : f.codes c = f.labelled.map (f.coder c) := by
  have hvalues : (factorizeSorted ((f.column c).map f.text)).1 = f.labelled.map fun r =>
      (sortedUniques (f.labelled.map fun s => s.text c)).idxOf (r.text c) := by
    rw [column_texts]
    unfold factorizeSorted
    simp only [List.map_map]
    rfl
  unfold Frame.codes Frame.coder
  cases f.kind c with
  | objects => exact (codesByIdentity_eq f.text (f.column c)).trans hvalues
  | other => exact hvalues
  | categorical categories =>
      have htexts := congrArg (List.map fun t => categories.idxOf t) (column_texts f c)
      rw [List.map_map, List.map_map] at htexts
      exact htexts

/-- The codes of a row. -/
def Frame.coderAll (f : Frame τ) (r : LabelledRow τ) : List ℕ :=
  groupCols.map fun c => f.coder c r

def Frame.codeRow (f : Frame τ) (r : LabelledRow τ) : Coded τ :=
  (r, f.coderAll r)

theorem coded_eq (f : Frame τ) : f.coded = f.labelled.map f.codeRow := by
  refine List.ext_getElem? fun i => ?_
  unfold Frame.coded
  rw [List.getElem?_map, List.getElem?_zipIdx, Nat.zero_add]
  unfold Frame.labelled
  rw [List.getElem?_map, List.getElem?_map]
  cases hr : f.rows[i]? with
  | none => rfl
  | some r =>
      have hcodes : (groupCols.map fun c => (f.codes c).getD i 0) = f.coderAll (r.labelled f.text) := by
        refine List.map_congr_left fun c _ => ?_
        rw [codes_eq, List.getD_eq_getElem?_getD, List.getElem?_map, Frame.labelled, List.getElem?_map, hr]
        rfl
      exact congrArg some (Prod.ext rfl hcodes)

/-- Rows have one code in a column when they have one text there. -/
theorem coder_eq_iff {f : Frame τ} {r s : LabelledRow τ} (hr : r ∈ f.labelled) (hs : s ∈ f.labelled)
    (c : GroupCol) : f.coder c r = f.coder c s ↔ r.text c = s.text c := by
  have huniques : ∀ {r}, r ∈ f.labelled → r.text c ∈ sortedUniques (f.labelled.map fun s => s.text c) :=
    fun h => mem_sortedUniques.mpr (List.mem_map_of_mem h)
  have hcategories : ∀ {categories r}, f.kind c = .categorical categories → r ∈ f.labelled →
      r.text c ∈ categories := by
    intro categories r hkind hr
    obtain ⟨q, hq, rfl⟩ := List.mem_map.mp hr
    exact f.in_categories c categories hkind q hq
  unfold Frame.coder
  cases hkind : f.kind c with
  | objects => exact ⟨eq_of_idxOf_eq (huniques hr) (huniques hs), fun h => by rw [h]⟩
  | other => exact ⟨eq_of_idxOf_eq (huniques hr) (huniques hs), fun h => by rw [h]⟩
  | categorical categories =>
      exact ⟨eq_of_idxOf_eq (hcategories hkind hr) (hcategories hkind hs), fun h => by rw [h]⟩

theorem key_eq_iff {r s : LabelledRow τ} : r.key = s.key ↔ ∀ c, r.text c = s.text c := by
  unfold LabelledRow.key seriesKey
  rw [toLex_inj, Prod.mk.injEq, toLex_inj, Prod.mk.injEq, toLex_inj, Prod.mk.injEq]
  constructor
  · rintro ⟨h1, h2, h3, h4⟩ c
    cases c with
    | host => exact h1
    | type => exact h2
    | dev => exact h3
    | event => exact h4
  · exact fun h => ⟨h .host, h .type, h .dev, h .event⟩

/-- **Rows of one series have the same codes, and no others do.** -/
theorem coderAll_eq_iff {f : Frame τ} {r s : LabelledRow τ} (hr : r ∈ f.labelled) (hs : s ∈ f.labelled) :
    f.coderAll r = f.coderAll s ↔ r.key = s.key := by
  rw [key_eq_iff]
  unfold Frame.coderAll
  rw [List.map_inj_left]
  constructor
  · intro h c
    refine (coder_eq_iff hr hs c).mp (h c ?_)
    cases c <;> decide
  · exact fun h c _ => (coder_eq_iff hr hs c).mpr (h c)

/-- Every code is below the size of its column. -/
theorem coderAll_lt {f : Frame τ} {r : LabelledRow τ} (hr : r ∈ f.labelled) :
    List.Forall₂ (· < ·) (f.coderAll r) f.sizes := by
  have hlt : ∀ c, f.coder c r < (f.codes c).max?.getD 0 + 1 := by
    intro c
    have hmem : f.coder c r ∈ f.codes c := by
      rw [codes_eq]
      exact List.mem_map_of_mem hr
    cases hmax : (f.codes c).max? with
    | none =>
        rw [List.max?_eq_none_iff] at hmax
        rw [hmax] at hmem
        cases hmem
    | some m =>
        exact Nat.lt_succ_of_le ((List.max?_eq_some_iff.mp hmax).2 _ hmem)
  unfold Frame.coderAll Frame.sizes
  rw [List.forall₂_map_left_iff, List.forall₂_map_right_iff]
  exact List.forall₂_same.mpr fun c _ => hlt c

/-- Packed codes tell series apart. -/
theorem ravel_eq_iff {f : Frame τ} {r s : LabelledRow τ} (hr : r ∈ f.labelled) (hs : s ∈ f.labelled) :
    ravel f.sizes (f.coderAll r) = ravel f.sizes (f.coderAll s) ↔ r.key = s.key := by
  rw [← coderAll_eq_iff hr hs]
  exact ⟨ravel_injective (coderAll_lt hr) (coderAll_lt hs), fun h => by rw [h]⟩

/-- Nothing but the label texts enters the codes. -/
theorem coded_congr {f f' : Frame τ} (h : SameTexts f f') : f'.coded = f.coded ∧ f'.sizes = f.sizes := by
  obtain ⟨hrows, hkind⟩ := h
  have hcoder : f'.coder = f.coder := by
    funext c r
    unfold Frame.coder
    rw [← hrows, ← hkind]
  have hcodeRow : f'.codeRow = f.codeRow := by
    funext r
    unfold Frame.codeRow Frame.coderAll
    rw [hcoder]
  have hcodes : f'.codes = f.codes := by
    funext c
    rw [codes_eq, codes_eq, ← hrows, hcoder]
  constructor
  · rw [coded_eq, coded_eq, ← hrows, hcodeRow]
  · unfold Frame.sizes
    rw [hcodes]

/-! ## Neighbours and groups -/

/-- In a sorted frame the neighbour before is the row before in the group. -/
theorem adjacent_eq_walk (gid : Coded τ → ℕ) {l : List (Coded τ)} (h : SortedOn gid l) :
    adjacent gid none l = walk gid some mark (fun _ => none) l := by
  have hgo : ∀ (l : List (Coded τ)) (p : Coded τ) (table : ℕ → Option (Coded τ)),
      SortedOn gid (p :: l) → table (gid p) = some p →
      (∀ a ∈ l, gid a ≠ gid p → table (gid a) = none) →
      adjacent gid (some p) l = walk gid some mark table l := by
    intro l
    induction l with
    | nil => intro p table _ _ _; rfl
    | cons r rest ih =>
        intro p table hsorted hp hother
        rw [adjacent, walk_cons]
        have hprev : (some p).filter (fun p => gid p = gid r) = table (gid r) := by
          rw [Option.filter_some]
          by_cases hpr : gid p = gid r
          · rw [if_pos (decide_eq_true hpr), ← hpr, hp]
          · rw [if_neg (by simpa using hpr), hother r List.mem_cons_self (Ne.symm hpr)]
        rw [hprev]
        congr 1
        obtain ⟨hple, hrest⟩ := List.pairwise_cons.mp hsorted
        refine ih r _ hrest (Function.update_self ..) fun a ha har => ?_
        rw [Function.update_of_ne har]
        -- a later row of another code is not in the group of `p` either
        refine hother a (List.mem_cons_of_mem r ha) fun hap => har ?_
        have h1 := (List.pairwise_cons.mp hrest).1 a ha
        have h2 := hple r List.mem_cons_self
        omega
  cases l with
  | nil => rfl
  | cons r rest =>
      rw [adjacent, walk_cons]
      congr 1
      refine hgo rest r _ h (Function.update_self ..) fun a _ har => ?_
      rw [Function.update_of_ne har]

/-! ## One row -/

/-- The carried value that the code takes up. -/
def takenUp (raw : Raw τ) (k : SeriesKey) : Option PyFloat :=
  (carried raw k).filter fun x => isFinite x

/-- An infinite difference stays what it is. -/
theorem wrap_eq (wid : ℤ) (d : PyFloat) :
    (if isNeg d && isFinite d then addPow wid d else d) = if isNeg d then addPow wid d else d := by
  cases d with
  | fin x => rw [show isFinite (.fin x) = true from rfl, Bool.and_true]
  | inf negative => cases negative <;> rfl
  | nan => rfl

/-- A first row, with what is taken up from the carry. -/
theorem finishMark_first (raw : Raw τ) (a : Coded τ) :
    finishMark raw (mark a none) = plainRow a.1 (takenUp raw a.1.key) := by
  have hdelta : carriedDelta raw (mark a none) =
      ((takenUp raw a.1.key).map (sub a.1.value)).getD .nan := by
    unfold carriedDelta mark takenUp carried
    simp only [if_true]
    cases PyDict.get raw a.1.key with
    | none => rfl
    | some e =>
        rw [Option.map_some, Option.filter_some]
        by_cases hfin : isFinite e.value = true
        · simp only [hfin, if_true]
          rfl
        · simp only [hfin]
          rfl
  unfold finishMark plainRow plainDelta finishDelta
  rw [hdelta, wrap_eq]
  rfl

/-- A row that is not the first of its series. -/
theorem finishMark_next (raw : Raw τ) (a p : Coded τ) :
    finishMark raw (mark a (some p)) = plainRow a.1 (some p.1.value) := by
  unfold finishMark plainRow plainDelta finishDelta carriedDelta mark
  simp only [Bool.false_eq_true, if_false]
  rw [wrap_eq]
  rfl

/-- The carry does no harm to a first row: the value is not infinite, or the difference to it is not a
number in any case. -/
def Harmless (r : LabelledRow τ) (prev : Option PyFloat) : Prop :=
  ∀ negative, prev = some (.inf negative) → r.mult = 0 ∨ r.value = .nan ∨ r.value = .inf negative

theorem sub_nan (x : PyFloat) : sub x .nan = .nan := by
  cases x <;> rfl

/-- An infinity stays one when it is scaled, but by zero. -/
theorem scale_inf_eq_nan_iff {negative : Bool} {m : ℚ} : CodonFeed.scale (.inf negative) m = .nan ↔ m = 0 := by
  unfold CodonFeed.scale
  split_ifs with h
  · exact iff_of_true rfl h
  · exact iff_of_false (fun heq => nomatch heq) h

/-- The plain delta of an infinite difference. -/
theorem scaled_inf_eq_nan_iff (r : LabelledRow τ) (negative : Bool) :
    CodonFeed.scale (if isNeg (.inf negative) then addPow r.wid (.inf negative) else .inf negative) r.mult = .nan ↔
      r.mult = 0 := by
  have hsame : (if isNeg (.inf negative) then addPow r.wid (.inf negative) else .inf negative) =
      PyFloat.inf negative := ite_self _
  rw [hsame]
  exact scale_inf_eq_nan_iff

/-- **The plain delta to an infinity** is not a number only where no difference is. -/
theorem plainDelta_inf_eq_nan_iff (r : LabelledRow τ) (negative : Bool) :
    plainDelta r (some (.inf negative)) = .nan ↔ r.mult = 0 ∨ r.value = .nan ∨ r.value = .inf negative := by
  unfold plainDelta
  rw [Option.map_some, Option.getD_some]
  cases r.value with
  | fin x =>
      refine (scaled_inf_eq_nan_iff r (!negative)).trans ⟨Or.inl, ?_⟩
      rintro (hmult | hv | hv)
      · exact hmult
      · cases hv
      · cases hv
  | nan => exact iff_of_true rfl (Or.inr (Or.inl rfl))
  | inf negative' =>
      by_cases hsign : negative' = negative
      · rw [sub, if_pos hsign, hsign]
        exact iff_of_true rfl (Or.inr (Or.inr rfl))
      · rw [sub, if_neg hsign]
        refine (scaled_inf_eq_nan_iff r negative').trans ⟨Or.inl, ?_⟩
        rintro (hmult | hv | hv)
        · exact hmult
        · cases hv
        · exact absurd (PyFloat.inf.inj hv) hsign

/-- What is taken up gives the plain delta exactly when the carry does no harm. -/
theorem plainDelta_filter_iff (r : LabelledRow τ) (prev : Option PyFloat) :
    plainDelta r (prev.filter fun x => isFinite x) = plainDelta r prev ↔ Harmless r prev := by
  unfold Harmless
  rcases prev with _ | (q | negative | _)
  · refine iff_of_true rfl fun negative h => ?_
    cases h
  · refine iff_of_true rfl fun negative h => ?_
    cases h
  · -- the code leaves NaN, the plain delta is taken to the infinity
    have hcode : plainDelta r ((some (PyFloat.inf negative)).filter fun x => isFinite x) = .nan := rfl
    rw [hcode, eq_comm, plainDelta_inf_eq_nan_iff]
    constructor
    · intro h negative' hneg
      obtain rfl : negative = negative' := PyFloat.inf.inj (Option.some.inj hneg)
      exact h
    · exact fun h => h negative rfl
  · refine iff_of_true ?_ fun negative h => ?_
    · unfold plainDelta
      rw [Option.map_some, Option.getD_some, sub_nan]
      rfl
    · cases h

theorem packed_keys (f : Frame τ) : ∀ r ∈ f.labelled, ∀ s ∈ f.labelled,
    ravel f.sizes (f.codeRow r).2 = ravel f.sizes (f.codeRow s).2 ↔ r.key = s.key :=
  fun _ hr _ hs => ravel_eq_iff hr hs

theorem grouped_keys (f : Frame τ) : ∀ r ∈ f.labelled, ∀ s ∈ f.labelled,
    (f.codeRow r).2 = (f.codeRow s).2 ↔ r.key = s.key :=
  fun _ hr _ hs => coderAll_eq_iff hr hs

/-! ## The carry -/

/-- What the carry stores of a row. -/
def entryOf (r : LabelledRow τ) : Option (CarryEntry τ) :=
  some (.tuple r.value r.wid r.mult r.time)

theorem get_store (raw : Raw τ) (r : Coded τ) :
    PyDict.get (store raw r) = Function.update (PyDict.get raw) r.1.key (entryOf r.1) :=
  funext fun k => PyDict.get_set raw r.1.key k _

/-- Storing the rows that end their run stores the last row of every series. -/
theorem get_foldl_adjacentLasts {gid : Coded τ → ℕ} {l : List (Coded τ)} (k : SeriesKey) :
    (∀ a ∈ l, ∀ b ∈ l, gid a = gid b → a.1.key = b.1.key) → ∀ raw : Raw τ,
      PyDict.get ((adjacentLasts gid l).foldl store raw) k =
        walkTable (fun r : Coded τ => r.1.key) (fun r => entryOf r.1) (PyDict.get raw) l k := by
  induction l with
  | nil => intro _ raw; rfl
  | cons r rest ih =>
      intro hkeys raw
      have hrest : ∀ a ∈ rest, ∀ b ∈ rest, gid a = gid b → a.1.key = b.1.key :=
        fun a ha b hb => hkeys a (List.mem_cons_of_mem r ha) b (List.mem_cons_of_mem r hb)
      cases rest with
      | nil => exact congrFun (get_store raw r) k
      | cons s rest =>
          rw [adjacentLasts]
          split_ifs with heq
          · -- the next row has the same series, so that storing this one first changes nothing
            have hkey : r.1.key = s.1.key :=
              hkeys r List.mem_cons_self s (List.mem_cons_of_mem r List.mem_cons_self) heq
            rw [ih hrest, walkTable_cons, walkTable_cons, walkTable_cons, hkey, Function.update_idem]
          · rw [List.foldl_cons, ih hrest, get_store, ← walkTable_cons]

theorem get_foldl_groupLasts {l : List (Coded τ)} (k : SeriesKey) :
    (∀ a ∈ l, ∀ b ∈ l, a.2 = b.2 → a.1.key = b.1.key) → ∀ raw : Raw τ,
      PyDict.get ((groupLasts l).foldl store raw) k =
        walkTable (fun r : Coded τ => r.1.key) (fun r => entryOf r.1) (PyDict.get raw) l k := by
  induction l with
  | nil => intro _ raw; rfl
  | cons r rest ih =>
      intro hkeys raw
      have hrest : ∀ a ∈ rest, ∀ b ∈ rest, a.2 = b.2 → a.1.key = b.1.key :=
        fun a ha b hb => hkeys a (List.mem_cons_of_mem r ha) b (List.mem_cons_of_mem r hb)
      rw [groupLasts]
      split_ifs with hany
      · -- a later row of the series is stored over this one
        rw [ih hrest, walkTable_cons]
        obtain ⟨s, hs, hcode⟩ := List.any_eq_true.mp hany
        have hkey : s.1.key = r.1.key :=
          hkeys s (List.mem_cons_of_mem r hs) r List.mem_cons_self (of_decide_eq_true hcode)
        by_cases hk : k = r.1.key
        · apply walkTable_of_mem
          exact ⟨s, hs, hkey.trans hk.symm⟩
        · have hsame : PyDict.get raw k = Function.update (PyDict.get raw) r.1.key (entryOf r.1) k := by
            rw [Function.update_of_ne hk]
          rw [walkTable_apply _ _ k rest _ _ hsame, walkTable_apply _ _ k rest _ _ rfl]
      · rw [List.foldl_cons, ih hrest, get_store, ← walkTable_cons]

/-! ## Whole frames -/

section Whole

variable [LinearOrder τ]

/-- **Either path is a walk over series and time.**  The key of the sort may be any that tells the
series of the frame apart. -/
theorem walk_coded {ι : Type*} [LinearOrder ι] [DecidableEq ι] (f : Frame τ) (raw : Raw τ) (κ : Coded τ → ι)
    (hκ : ∀ r ∈ f.labelled, ∀ s ∈ f.labelled, κ (f.codeRow r) = κ (f.codeRow s) ↔ r.key = s.key) :
    (walk κ some mark (fun _ => none) (sortOn (rank κ codedTime) f.coded)).map (finishMark raw) =
      walk LabelledRow.key seenValue plainRow (takenUp raw)
        (sortOn (rank (κ ∘ f.codeRow) LabelledRow.time) f.labelled) := by
  have hsorted : sortOn (rank κ codedTime) f.coded =
      (sortOn (rank (κ ∘ f.codeRow) LabelledRow.time) f.labelled).map f.codeRow := by
    rw [coded_eq, sortOn_map]
    rfl
  rw [hsorted, walk_of_map, walk_map]
  have hkeys : ∀ r ∈ sortOn (rank (κ ∘ f.codeRow) LabelledRow.time) f.labelled,
      ∀ s ∈ sortOn (rank (κ ∘ f.codeRow) LabelledRow.time) f.labelled,
      (κ ∘ f.codeRow) r = (κ ∘ f.codeRow) s ↔ r.key = s.key := by
    intro r hr s hs
    exact hκ r ((mem_sortOn _).mp hr) s ((mem_sortOn _).mp hs)
  rw [walk_key_congr _ _ _ hkeys (fun _ => none) (fun _ => none) fun _ _ => rfl]
  refine walk_eq_walk _ _ _
    (fun k s s' => (s = none ∧ s' = takenUp raw k) ∨ ∃ p : Coded τ, s = some p ∧ s' = some p.1.value)
    (fun _ => rfl) (fun a => Or.inr ⟨f.codeRow a, rfl, rfl⟩) ?_ _ _ _ (fun k => Or.inl ⟨rfl, rfl⟩)
  rintro a s s' (⟨rfl, rfl⟩ | ⟨p, rfl, rfl⟩)
  · exact finishMark_first raw (f.codeRow a)
  · exact finishMark_next raw (f.codeRow a) p

/-- The rows of a series, in time order. -/
def seriesRows (rows : List (LabelledRow τ)) (k : SeriesKey) : List (LabelledRow τ) :=
  part LabelledRow.key k (sortOn LabelledRow.time rows)

/-- What a sorted walk gives for one series. -/
theorem part_walk_coded {ι : Type*} [LinearOrder ι] {f : Frame τ} {κ : LabelledRow τ → ι}
    (hκ : ∀ r ∈ f.labelled, ∀ s ∈ f.labelled, κ r = κ s ↔ r.key = s.key) (table : SeriesKey → Option PyFloat)
    (k : SeriesKey) :
    part CountedRow.key k (walk LabelledRow.key seenValue plainRow table
        (sortOn (rank κ LabelledRow.time) f.labelled)) =
      walk LabelledRow.key seenValue plainRow table (seriesRows f.labelled k) := by
  rw [part_walk LabelledRow.key seenValue plainRow (fun _ _ => rfl) k _ table table rfl,
    part_sortOn_rank hκ]
  rfl

/-- The carried value does no harm to any series of the frame. -/
def CarryHarmless (raw : Raw τ) (rows : List (LabelledRow τ)) : Prop :=
  ∀ k, ∀ r, (seriesRows rows k).head? = some r → Harmless r (carried raw k)

/-- Two walks over one series that differ in the table they start with. -/
theorem walk_series (rows : List (LabelledRow τ)) (k : SeriesKey) (table : SeriesKey → Option PyFloat)
    {r : LabelledRow τ} {rest : List (LabelledRow τ)} (h : seriesRows rows k = r :: rest) :
    walk LabelledRow.key seenValue plainRow table (seriesRows rows k) =
      plainRow r (table k) :: walk LabelledRow.key seenValue plainRow (fun _ => some r.value) rest := by
  have hkey : ∀ s ∈ r :: rest, s.key = k := by
    intro s hs
    rw [← h] at hs
    exact ((mem_part LabelledRow.key).mp hs).2
  rw [h, walk_cons, hkey r List.mem_cons_self]
  congr 1
  refine walk_key_congr _ _ _ (fun a _ b _ => Iff.rfl) _ _ fun s hs => ?_
  rw [hkey s (List.mem_cons_of_mem r hs), Function.update_self]
  rfl

/-- **The rows that come out are the plain ones exactly when the carry does no harm.** -/
theorem perm_plainDeltas_iff {ι : Type*} [LinearOrder ι] {f : Frame τ} {κ : LabelledRow τ → ι}
    (hκ : ∀ r ∈ f.labelled, ∀ s ∈ f.labelled, κ r = κ s ↔ r.key = s.key) (raw : Raw τ) :
    (walk LabelledRow.key seenValue plainRow (takenUp raw)
        (sortOn (rank κ LabelledRow.time) f.labelled)).Perm (plainDeltas raw f.labelled) ↔
      CarryHarmless raw f.labelled := by
  have hplain : ∀ k, part CountedRow.key k (plainDeltas raw f.labelled) =
      walk LabelledRow.key seenValue plainRow (carried raw) (seriesRows f.labelled k) := by
    intro k
    exact part_walk LabelledRow.key seenValue plainRow (fun _ _ => rfl) k _ _ _ rfl
  constructor
  · intro hperm k r hr
    obtain ⟨rest, hrows⟩ : ∃ rest, seriesRows f.labelled k = r :: rest := by
      cases hrows : seriesRows f.labelled k with
      | nil =>
          rw [hrows] at hr
          cases hr
      | cons s rest =>
          rw [hrows] at hr
          obtain rfl := Option.some.inj hr
          exact ⟨rest, rfl⟩
    have hpart : (part CountedRow.key k _).Perm (part CountedRow.key k _) := hperm.filter _
    rw [part_walk_coded hκ, hplain, walk_series f.labelled k _ hrows, walk_series f.labelled k _ hrows] at hpart
    have hhead : [plainRow r (takenUp raw k)].Perm [plainRow r (carried raw k)] :=
      (List.perm_append_right_iff _).mp hpart
    have hrow := List.singleton_perm_singleton.mp hhead
    exact (plainDelta_filter_iff r _).mp (congrArg CountedRow.delta hrow)
  · intro h
    refine perm_of_part CountedRow.key fun k => ?_
    rw [part_walk_coded hκ, hplain]
    cases hrows : seriesRows f.labelled k with
    | nil => rfl
    | cons r rest =>
        have hdelta := (plainDelta_filter_iff r (carried raw k)).mpr (h k r (by rw [hrows]; rfl))
        rw [← hrows, walk_series f.labelled k _ hrows, walk_series f.labelled k _ hrows]
        congr 1
        unfold plainRow takenUp
        rw [hdelta]

/-- The last rows of a sorted frame are those of the rows in time order. -/
theorem walkTable_coded {ι : Type*} [LinearOrder ι] {f : Frame τ} {κ : Coded τ → ι}
    (hκ : ∀ r ∈ f.labelled, ∀ s ∈ f.labelled, κ (f.codeRow r) = κ (f.codeRow s) ↔ r.key = s.key)
    (raw : Raw τ) (k : SeriesKey) :
    walkTable (fun r : Coded τ => r.1.key) (fun r => entryOf r.1) (PyDict.get raw)
        (sortOn (rank κ codedTime) f.coded) k = lastEntries raw f.labelled k := by
  have hsorted : sortOn (rank κ codedTime) f.coded =
      (sortOn (rank (κ ∘ f.codeRow) LabelledRow.time) f.labelled).map f.codeRow := by
    rw [coded_eq, sortOn_map]
    rfl
  rw [hsorted, walkTable_of_map]
  have hpart : part LabelledRow.key k (sortOn (rank (κ ∘ f.codeRow) LabelledRow.time) f.labelled) =
      part LabelledRow.key k (sortOn LabelledRow.time f.labelled) :=
    part_sortOn_rank hκ k
  show walkTable LabelledRow.key entryOf _ _ k = walkTable LabelledRow.key entryOf _ _ k
  rw [walkTable_apply LabelledRow.key entryOf k _ _ _ rfl,
    walkTable_apply LabelledRow.key entryOf k (sortOn LabelledRow.time f.labelled) _ _ rfl,
    hpart]

/-- Members of the sorted frame are coded rows. -/
theorem keys_of_sorted {ι : Type*} [LinearOrder ι] {f : Frame τ} {κ : Coded τ → ι}
    (hκ : ∀ r ∈ f.labelled, ∀ s ∈ f.labelled, κ (f.codeRow r) = κ (f.codeRow s) ↔ r.key = s.key) :
    ∀ a ∈ sortOn (rank κ codedTime) f.coded, ∀ b ∈ sortOn (rank κ codedTime) f.coded,
      κ a = κ b → a.1.key = b.1.key := by
  have hmem : ∀ a ∈ sortOn (rank κ codedTime) f.coded, ∃ r ∈ f.labelled, f.codeRow r = a := by
    intro a ha
    rw [mem_sortOn, coded_eq] at ha
    exact List.mem_map.mp ha
  intro a ha b hb
  obtain ⟨r, hr, rfl⟩ := hmem a ha
  obtain ⟨s, hs, rfl⟩ := hmem b hb
  exact (hκ r hr s hs).mp

/-- A path that does not raise: its rows are the plain ones exactly when the carry does no harm, and
the carry holds the last rows. -/
theorem packedDeltas_spec (f : Frame τ) (carry : Option (Raw τ)) :
    ((packedDeltas f carry).1.Perm (plainDeltas (carry.getD []) f.labelled) ↔
        CarryHarmless (carry.getD []) f.labelled) ∧
      CarryHolds f.labelled carry (packedDeltas f carry).2 := by
  have hsorted := sortedOn_sortOn (rank (fun r : Coded τ => ravel f.sizes r.2) codedTime) f.coded
  have hgid : SortedOn (fun r : Coded τ => ravel f.sizes r.2)
      (sortOn (rank (fun r : Coded τ => ravel f.sizes r.2) codedTime) f.coded) := by
    refine hsorted.imp fun {a b} hab => ?_
    rcases Prod.Lex.toLex_le_toLex.mp hab with hlt | ⟨heq, -⟩
    · exact hlt.le
    · exact heq.le
  constructor
  · unfold packedDeltas
    simp only
    rw [adjacent_eq_walk _ hgid, walk_coded f _ _ (packed_keys f)]
    exact perm_plainDeltas_iff (packed_keys f) _
  · cases carry with
    | none => trivial
    | some raw =>
        intro k
        rw [get_foldl_adjacentLasts k (keys_of_sorted (packed_keys f)), walkTable_coded (packed_keys f)]

theorem groupedDeltas_spec (f : Frame τ) (carry : Option (Raw τ)) :
    ((groupedDeltas f carry).1.Perm (plainDeltas (carry.getD []) f.labelled) ↔
        CarryHarmless (carry.getD []) f.labelled) ∧
      CarryHolds f.labelled carry (groupedDeltas f carry).2 := by
  constructor
  · unfold groupedDeltas groupDiffs
    simp only
    rw [walk_coded f _ _ (grouped_keys f)]
    exact perm_plainDeltas_iff (grouped_keys f) _
  · cases carry with
    | none => trivial
    | some raw =>
        intro k
        rw [get_foldl_groupLasts k (keys_of_sorted (grouped_keys f)), walkTable_coded (grouped_keys f)]

/-! ## The condition for the law -/

/-- **The result does not depend on which equal strings share an object.** -/
theorem applyCounterDeltas_congr {f f' : Frame τ} (h : SameTexts f f') (carry : Option (Raw τ)) :
    applyCounterDeltas f' carry = applyCounterDeltas f carry := by
  obtain ⟨hcoded, hsizes⟩ := coded_congr h
  have hempty : f'.rows = [] ↔ f.rows = [] := by
    have hlabelled : ∀ f : Frame τ, f.rows = [] ↔ f.labelled = [] := fun f => List.map_eq_nil_iff.symm
    rw [hlabelled f', hlabelled f, h.1]
  unfold applyCounterDeltas packedDeltas groupedDeltas
  rw [hcoded, hsizes]
  simp only [hempty]

/-- **When the deltas are the plain ones**: the frame has a row, the guard on the code range holds up,
and no infinite carried value is left out where it would count.  The result is the same for all frames
with the same label texts. -/
theorem plain_iff (f : Frame τ) (carry : Option (Raw τ)) :
    (Plain f carry ∧ ∀ f', SameTexts f f' → applyCounterDeltas f' carry = applyCounterDeltas f carry) ↔
      f.rows ≠ [] ∧ (doubleProd f.sizes ≤ maxIndex → f.sizes.prod ≤ maxIndex) ∧
        CarryHarmless (carry.getD []) f.labelled := by
  have hident : ∀ f', SameTexts f f' → applyCounterDeltas f' carry = applyCounterDeltas f carry :=
    fun f' h => applyCounterDeltas_congr h carry
  rw [and_iff_left hident]
  have hresult : ∀ result : List (CountedRow τ) × Option (Raw τ),
      applyCounterDeltas f carry = some result →
      ((result.1.Perm (plainDeltas (carry.getD []) f.labelled) ↔ CarryHarmless (carry.getD []) f.labelled) ∧
        CarryHolds f.labelled carry result.2) →
      (Plain f carry ↔ CarryHarmless (carry.getD []) f.labelled) := by
    intro result hrun hspec
    constructor
    · rintro ⟨out, carry', h, hperm, -⟩
      obtain rfl := Option.some.inj (hrun.symm.trans h)
      exact hspec.1.mp hperm
    · exact fun h => ⟨result.1, result.2, hrun, hspec.1.mpr h, hspec.2⟩
  have hraise : applyCounterDeltas f carry = none → ¬ Plain f carry := by
    rintro hrun ⟨out, carry', h, -⟩
    rw [hrun] at h
    cases h
  by_cases hempty : f.rows = []
  · have hrun : applyCounterDeltas f carry = none := if_pos hempty
    exact iff_of_false (hraise hrun) fun h => h.1 hempty
  · by_cases hguard : doubleProd f.sizes ≤ maxIndex
    · by_cases hfits : f.sizes.prod ≤ maxIndex
      · have hrun : applyCounterDeltas f carry = some (packedDeltas f carry) := by
          unfold applyCounterDeltas
          rw [if_neg hempty, if_pos hguard, if_pos hfits]
        rw [hresult _ hrun (packedDeltas_spec f carry)]
        exact ⟨fun h => ⟨hempty, fun _ => hfits, h⟩, fun h => h.2.2⟩
      · have hrun : applyCounterDeltas f carry = none := by
          unfold applyCounterDeltas
          rw [if_neg hempty, if_pos hguard, if_neg hfits]
        exact iff_of_false (hraise hrun) fun h => hfits (h.2.1 hguard)
    · have hrun : applyCounterDeltas f carry = some (groupedDeltas f carry) := by
        unfold applyCounterDeltas
        rw [if_neg hempty, if_neg hguard]
      rw [hresult _ hrun (groupedDeltas_spec f carry)]
      exact ⟨fun h => ⟨hempty, fun hg => absurd hg hguard, h⟩, fun h => h.2.2⟩

end Whole

/-- One row of a series that was last seen at infinity. -/
def infiniteFrame : Frame ℚ where
  rows := [⟨fun _ => 0, "", 1, .fin 5, 48, 1⟩]
  text := fun _ => "x"
  kind := fun _ => .objects
  in_categories := by
    intro c categories h
    cases h

/-- **An infinite carried value is left out.**  The delta comes out as NaN; the plain one is minus
infinity, as it is when both values stand in one frame. -/
theorem not_plain_of_infinite_carry :
    ¬ Plain infiniteFrame (some [(seriesKey "x" "x" "x" "x", .tuple (.inf false) 48 1 0)]) := by
  rintro ⟨out, carry', h, hperm, -⟩
  have hout : (applyCounterDeltas infiniteFrame
        (some [(seriesKey "x" "x" "x" "x", .tuple (.inf false) 48 1 0)])).map Prod.fst =
      some [⟨seriesKey "x" "x" "x" "x", "", 1, .fin 5, .nan⟩] := by
    decide +kernel
  have hplain : plainDeltas [(seriesKey "x" "x" "x" "x", .tuple (.inf false) 48 1 0)] infiniteFrame.labelled =
      [⟨seriesKey "x" "x" "x" "x", "", 1, .fin 5, .inf true⟩] := by
    decide +kernel
  rw [h] at hout
  obtain rfl := Option.some.inj hout
  rw [Option.getD_some, hplain] at hperm
  have hrow := List.singleton_perm_singleton.mp hperm
  exact absurd (congrArg CountedRow.delta hrow) (by decide)

end DeltaGroups
