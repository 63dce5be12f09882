/-
# Codes for labels

A small library for tables whose labels are replaced by numbers.  It names nothing of a
particular system.

* `factorize` numbers the distinct values of a list in order of appearance,
  `factorizeSorted` in their own order
* `codesByIdentity` numbers the values that objects hold, by way of the distinct OBJECTS:
  values are looked at once for each object.  `codesByIdentity_eq`: the numbers are those
  of the values, whichever objects hold them
* `ravel` packs one code for each column into one number, the last column fastest;
  codes below the sizes are read back (`ravel_injective`)
-/
import HpcPerfStats.KeyedList
import Mathlib.Algebra.Group.Nat.Defs

namespace LabelCodes

open KeyedList

/-! ## Numbering -/

section Numbering

variable {α ι : Type*}

/-- Codes by first appearance, with the distinct values. -/
def factorize [DecidableEq α] (xs : List α) : List ℕ × List α :=
  let uniques := groupKeys id xs
  (xs.map fun x => uniques.idxOf x, uniques)

/-- The distinct values in their own order. -/
def sortedUniques [LinearOrder α] (xs : List α) : List α :=
  sortOn id (groupKeys id xs)

/-- Codes by the order of the values, with the distinct values. -/
def factorizeSorted [LinearOrder α] (xs : List α) : List ℕ × List α :=
  let uniques := sortedUniques xs
  (xs.map fun x => uniques.idxOf x, uniques)

/-- The codes of the values that the objects hold, by way of the distinct objects: an object is
numbered by first appearance, its value is read where it first appears, and the numbers of these
values are handed to all objects. -/
def codesByIdentity [DecidableEq ι] [LinearOrder α] (value : ι → α) (objs : List ι) : List ℕ :=
  let idCodes := (factorize objs).1
  let first := (List.range (factorize objs).2.length).map fun c => idCodes.idxOf c
  let valCodes := (factorizeSorted (first.filterMap fun i => objs[i]?.map value)).1
  idCodes.map fun c => valCodes.getD c 0

theorem mem_uniques [DecidableEq α] {x : α} {xs : List α} : x ∈ groupKeys id xs ↔ x ∈ xs := by
  rw [mem_groupKeys]
  constructor
  · rintro ⟨y, hy, rfl⟩
    exact hy
  · exact fun h => ⟨x, h, rfl⟩

theorem mem_sortedUniques [LinearOrder α] {x : α} {xs : List α} : x ∈ sortedUniques xs ↔ x ∈ xs := by
  rw [sortedUniques, mem_sortOn, mem_uniques]

/-- The distinct values in their order depend on the set of values only. -/
theorem sortedUniques_congr [LinearOrder α] {xs ys : List α} (h : ∀ x, x ∈ xs ↔ x ∈ ys) :
    sortedUniques xs = sortedUniques ys := by
  have hperm : (groupKeys id xs).Perm (groupKeys id ys) := by
    rw [List.perm_ext_iff_of_nodup (nodup_groupKeys id xs) (nodup_groupKeys id ys)]
    intro x
    rw [mem_uniques, mem_uniques, h]
  refine sortOn_congr id fun k => ?_
  have hpart : ∀ l : List α, part id k l = List.replicate (l.count k) k := fun l => List.filter_eq k
  rw [hpart, hpart, hperm.count_eq]

/-- The value at the code of a value. -/
theorem getElem?_idxOf [DecidableEq α] {x : α} {xs : List α} (h : x ∈ xs) : xs[xs.idxOf x]? = some x := by
  rw [List.getElem?_eq_getElem (List.idxOf_lt_length_of_mem h), List.getElem_idxOf]

/-- Values with one code are equal. -/
theorem eq_of_idxOf_eq [DecidableEq α] {x y : α} {xs : List α} (hx : x ∈ xs) (hy : y ∈ xs)
    (h : xs.idxOf x = xs.idxOf y) : x = y := by
  have hxs := getElem?_idxOf hx
  rw [h, getElem?_idxOf hy] at hxs
  exact (Option.some.inj hxs).symm

/-- The object that first has a code is the object with that code. -/
theorem getElem?_first [DecidableEq ι] {objs : List ι} {c : ℕ} (hc : c < (groupKeys id objs).length) :
    objs[(objs.map fun o => (groupKeys id objs).idxOf o).idxOf c]? = (groupKeys id objs)[c]? := by
  have hmem : (groupKeys id objs)[c] ∈ objs := mem_uniques.mp (List.getElem_mem hc)
  have hcode : (groupKeys id objs).idxOf (groupKeys id objs)[c] = c :=
    (nodup_groupKeys id objs).idxOf_getElem c hc
  have hcodes : c ∈ objs.map fun o => (groupKeys id objs).idxOf o :=
    List.mem_map.mpr ⟨_, hmem, hcode⟩
  have hat := getElem?_idxOf hcodes
  rw [List.getElem?_map] at hat
  cases hobj : objs[(objs.map fun o => (groupKeys id objs).idxOf o).idxOf c]? with
  | none =>
      rw [hobj] at hat
      cases hat
  | some o =>
      rw [hobj] at hat
      have ho : (groupKeys id objs).idxOf o = c := Option.some.inj hat
      have homem : o ∈ groupKeys id objs := mem_uniques.mpr (List.mem_of_getElem? hobj)
      rw [← ho, getElem?_idxOf homem]

/-- All positions of a list, read. -/
theorem filterMap_getElem?_range (l : List α) : ((List.range l.length).filterMap fun i => l[i]?) = l := by
  induction l with
  | nil => rfl
  | cons x l ih =>
      rw [List.length_cons, List.range_succ_eq_map, List.filterMap_cons_some List.getElem?_cons_zero,
        List.filterMap_map]
      exact congrArg (x :: ·) ih

/-- **Identity does not matter**: the codes by identity are those of the values. -/
theorem codesByIdentity_eq [DecidableEq ι] [LinearOrder α] (value : ι → α) (objs : List ι) :
    codesByIdentity value objs = (factorizeSorted (objs.map value)).1 := by
  have hvalues : (((List.range (groupKeys id objs).length).map fun c =>
      (objs.map fun o => (groupKeys id objs).idxOf o).idxOf c).filterMap fun i => objs[i]?.map value) =
      (groupKeys id objs).map value := by
    rw [List.filterMap_map]
    calc (List.range (groupKeys id objs).length).filterMap ((fun i => objs[i]?.map value) ∘
          fun c => (objs.map fun o => (groupKeys id objs).idxOf o).idxOf c)
        = (List.range (groupKeys id objs).length).filterMap fun c => (groupKeys id objs)[c]?.map value := by
          refine List.filterMap_congr fun c hc => ?_
          rw [Function.comp_apply, getElem?_first (List.mem_range.mp hc)]
      _ = ((List.range (groupKeys id objs).length).filterMap fun c => (groupKeys id objs)[c]?).map value := by
          rw [List.map_filterMap]
      _ = (groupKeys id objs).map value := by rw [filterMap_getElem?_range]
  have huniques : sortedUniques ((groupKeys id objs).map value) = sortedUniques (objs.map value) := by
    refine sortedUniques_congr fun x => ?_
    rw [List.mem_map, List.mem_map]
    simp only [mem_uniques]
  unfold codesByIdentity factorize factorizeSorted
  simp only [hvalues, huniques, List.map_map]
  refine List.map_congr_left fun o ho => ?_
  rw [Function.comp_apply, Function.comp_apply, List.getD_eq_getElem?_getD, List.getElem?_map,
    getElem?_idxOf (mem_uniques.mpr ho)]
  rfl

end Numbering

/-! ## Packing -/

/-- One number for a code in each column, the last column fastest (`sizes` in front of `codes`). -/
def ravel : List ℕ → List ℕ → ℕ
  | _ :: sizes, c :: codes => c * sizes.prod + ravel sizes codes
  | _, _ => 0

/-- A packed number is below the product of the sizes. -/
theorem ravel_lt {codes sizes : List ℕ} (h : List.Forall₂ (· < ·) codes sizes) :
    ravel sizes codes < sizes.prod := by
  induction h with
  | nil => exact Nat.one_pos
  | @cons c s codes sizes hc _ ih =>
      rw [ravel, List.prod_cons]
      calc c * sizes.prod + ravel sizes codes
          < c * sizes.prod + sizes.prod := Nat.add_lt_add_left ih _
        _ = (c + 1) * sizes.prod := (Nat.succ_mul c sizes.prod).symm
        _ ≤ s * sizes.prod := Nat.mul_le_mul_right _ hc

/-- **Codes are read back from the packed number.** -/
theorem ravel_injective {codes codes' sizes : List ℕ} (h : List.Forall₂ (· < ·) codes sizes)
    (h' : List.Forall₂ (· < ·) codes' sizes) (heq : ravel sizes codes = ravel sizes codes') :
    codes = codes' := by
  induction h generalizing codes' with
  | nil => exact (List.forall₂_nil_right_iff.mp h').symm
  | @cons c s codes sizes hc hcodes ih =>
      obtain ⟨c', codes', hc', hcodes', rfl⟩ := List.forall₂_cons_right_iff.mp h'
      rw [ravel, ravel] at heq
      have hlt := ravel_lt hcodes
      have hlt' := ravel_lt hcodes'
      have hdiv : ∀ {c r : ℕ}, r < sizes.prod → (c * sizes.prod + r) / sizes.prod = c := by
        intro c r hr
        rw [Nat.add_comm, Nat.add_mul_div_right _ _ (by omega), Nat.div_eq_of_lt hr, Nat.zero_add]
      have hcc : c = c' := by rw [← hdiv (c := c) hlt, heq, hdiv hlt']
      subst hcc
      rw [ih hcodes' (Nat.add_left_cancel heq)]

end LabelCodes
