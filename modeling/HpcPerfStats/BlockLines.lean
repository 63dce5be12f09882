/-
# Reading lines backwards in blocks

A text over any type is cut into blocks from its end on.  The line that a block begins in is open: its front
stands in the block before, so it is carried there.

* `linesOf`: the lines of the text from the front, each with its separator
* `blocksBack`, `closedLines`: the blocks from the end on and the lines they close, last line first
* `closedLines_blocksBack`: these are the lines of the text in reverse order, for every size of the blocks
* `filterMap_linesOf`: a reader that does not see the separator sees the same in `linesOf`
-/
import Mathlib.Data.List.Basic

namespace BlockLines

variable {α β : Type*}

/-! ## Splitting -/

section Splitting

variable [DecidableEq α]

/-- The first part holds no separator. -/
theorem splitOn_first {sep : α} (xs : List α) : ∀ {part : List α} {parts : List (List α)},
    xs.splitOn sep = part :: parts → part.splitOn sep = [part] := by
  induction xs with
  | nil =>
      intro part parts h
      rw [List.splitOn_nil] at h
      obtain ⟨rfl, -⟩ := List.cons.inj h
      rfl
  | cons x xs ih =>
      intro part parts h
      rw [List.splitOn_cons_eq_if_modifyHead] at h
      split_ifs at h with hx
      · obtain ⟨rfl, -⟩ := List.cons.inj h
        rfl
      · cases hxs : xs.splitOn sep with
        | nil => exact absurd hxs (List.splitOn_ne_nil sep xs)
        | cons p ps =>
            rw [hxs, List.modifyHead_cons] at h
            obtain ⟨rfl, -⟩ := List.cons.inj h
            rw [List.splitOn_cons_eq_if_modifyHead, if_neg hx, ih hxs, List.modifyHead_cons]

/-- The first part of a text is continued by the text in front of it. -/
theorem splitOn_append {sep : α} {xs part : List α} {parts : List (List α)} (h : xs.splitOn sep = part :: parts)
    (front : List α) : (front ++ xs).splitOn sep = (front ++ part).splitOn sep ++ parts := by
  induction front with
  | nil =>
      rw [List.nil_append, List.nil_append, h, splitOn_first xs h]
      rfl
  | cons x front ih =>
      rw [List.cons_append, List.cons_append, List.splitOn_cons_eq_if_modifyHead,
        List.splitOn_cons_eq_if_modifyHead, ih]
      split_ifs with hx
      · rfl
      · cases hfront : (front ++ part).splitOn sep with
        | nil => exact absurd hfront (List.splitOn_ne_nil sep _)
        | cons p ps => rfl

/-- A part is made of the text's elements other than the separator. -/
theorem mem_of_mem_splitOn {sep : α} (xs : List α) : ∀ {part : List α}, part ∈ xs.splitOn sep →
    ∀ x ∈ part, x ∈ xs ∧ x ≠ sep := by
  induction xs with
  | nil =>
      intro part hpart x hx
      rw [List.splitOn_nil, List.mem_singleton] at hpart
      rw [hpart] at hx
      cases hx
  | cons y xs ih =>
      intro part hpart x hx
      have htail : ∀ {p : List α}, p ∈ xs.splitOn sep → x ∈ p → x ∈ y :: xs ∧ x ≠ sep := by
        intro p hp hx
        obtain ⟨hmem, hne⟩ := ih hp x hx
        exact ⟨List.mem_cons_of_mem y hmem, hne⟩
      rw [List.splitOn_cons_eq_if_modifyHead] at hpart
      split_ifs at hpart with hy
      · rcases List.mem_cons.mp hpart with rfl | hpart
        · cases hx
        · exact htail hpart hx
      · cases hxs : xs.splitOn sep with
        | nil => exact absurd hxs (List.splitOn_ne_nil sep xs)
        | cons p ps =>
            rw [hxs, List.modifyHead_cons] at hpart
            rw [hxs] at htail
            rcases List.mem_cons.mp hpart with rfl | hpart
            · rcases List.mem_cons.mp hx with rfl | hx
              · exact ⟨List.mem_cons_self, fun h => hy (beq_iff_eq.mpr h)⟩
              · exact htail List.mem_cons_self hx
            · exact htail (List.mem_cons_of_mem p hpart) hx

end Splitting

/-! ## Backwards -/

/-- The blocks in front of an offset, each of the given size but the last, with their own offsets. -/
def blocksBack (size : ℕ) (xs : List α) : ℕ → ℕ → List (ℕ × List α)
  | 0, _ => []
  | fuel + 1, offset =>
      if 0 < offset then
        let readSize := min size offset
        (offset - readSize, (xs.drop (offset - readSize)).take readSize)
          :: blocksBack size xs fuel (offset - readSize)
      else []

/-- The lines that each block closes, last line first. -/
def closedLines [DecidableEq α] (sep : α) : List α → List (ℕ × List α) → List (List α)
  | _, [] => []
  | carry, (offset, block) :: blocks =>
      let parts := (block ++ carry).splitOn sep
      if 0 < offset then parts.tail.reverse ++ closedLines sep (parts.headD []) blocks
      else parts.reverse ++ closedLines sep [] blocks

theorem blocksBack_zero (size : ℕ) (xs : List α) (fuel : ℕ) : blocksBack size xs fuel 0 = [] := by
  cases fuel with
  | zero => rfl
  | succ fuel => rfl

/-- **Reading backwards.**  The induction is on the blocks; what is left to read and the carried line are always
a text whose lines are still to come. -/
theorem closedLines_blocksBack [DecidableEq α] {size : ℕ} (hsize : 0 < size) (sep : α) (xs : List α) : ∀ (fuel offset : ℕ)
    (carry : List α), offset ≤ fuel → 0 < offset →
    closedLines sep carry (blocksBack size xs fuel offset)
      = ((xs.take offset ++ carry).splitOn sep).reverse := by
  intro fuel
  induction fuel with
  | zero =>
      intro offset carry hle hpos
      omega
  | succ fuel ih =>
      intro offset carry hle hpos
      rw [blocksBack, if_pos hpos]
      dsimp only
      rw [closedLines]
      have hread : 0 < min size offset := by omega
      have htext : xs.take (offset - min size offset)
          ++ ((xs.drop (offset - min size offset)).take (min size offset)) = xs.take offset := by
        rw [← List.take_add]
        congr 1
        omega
      split_ifs with hmore
      · -- the first part of the block goes on in the block before
        cases hparts : ((xs.drop (offset - min size offset)).take (min size offset) ++ carry).splitOn sep with
        | nil => exact absurd hparts (List.splitOn_ne_nil sep _)
        | cons part parts =>
            have hsplit := splitOn_append hparts (xs.take (offset - min size offset))
            rw [← List.append_assoc, htext] at hsplit
            rw [List.tail_cons, List.headD_cons, ih _ _ (by omega) hmore, hsplit, List.reverse_append]
      · -- this block is the front of the text
        have hfront : offset - min size offset = 0 := by omega
        rw [hfront, List.take_zero, List.nil_append] at htext
        rw [hfront, htext, blocksBack_zero, closedLines, List.append_nil]

/-! ## Forwards -/

section Forwards

variable [DecidableEq α]

/-- The lines of a text, each but an open last one with its separator. -/
def linesOf (sep : α) : List α → List (List α)
  | [] => []
  | x :: xs =>
      if x = sep then [x] :: linesOf sep xs
      else
        match linesOf sep xs with
        | [] => [[x]]
        | line :: lines => (x :: line) :: lines

theorem linesOf_append_cons {sep : α} {line : List α} (hline : sep ∉ line) (xs : List α) :
    linesOf sep (line ++ sep :: xs) = (line ++ [sep]) :: linesOf sep xs := by
  induction line with
  | nil => rw [List.nil_append, linesOf, if_pos rfl, List.nil_append]
  | cons x line ih =>
      obtain ⟨hx, hline⟩ := (by simpa only [List.mem_cons, not_or] using hline : sep ≠ x ∧ sep ∉ line)
      rw [List.cons_append, linesOf, if_neg (Ne.symm hx), ih hline]
      rfl

theorem linesOf_of_notMem {sep : α} {line : List α} (hline : sep ∉ line) :
    linesOf sep line = if line = [] then [] else [line] := by
  induction line with
  | nil => rfl
  | cons x line ih =>
      obtain ⟨hx, hline⟩ := (by simpa only [List.mem_cons, not_or] using hline : sep ≠ x ∧ sep ∉ line)
      rw [linesOf, if_neg (Ne.symm hx), ih hline, if_neg (List.cons_ne_nil x line)]
      split_ifs with hnil
      · rw [hnil]
      · rfl

/-- **The two ways to cut.**  A reader that ignores an empty part and the separator behind a line reads the same
from both. -/
theorem filterMap_linesOf (sep : α) (read : List α → Option β) (hnil : read [] = none)
    (hsep : ∀ line, sep ∉ line → read (line ++ [sep]) = read line) (xs : List α) :
    (linesOf sep xs).filterMap read = (xs.splitOn sep).filterMap read := by
  induction hlen : xs.length using Nat.strongRecOn generalizing xs with
  | ind n ih =>
      by_cases hmem : sep ∈ xs
      · -- the first line, up to and with its separator
        obtain ⟨line, rest, rfl, hline⟩ := List.eq_append_cons_of_mem hmem
        have hrest : rest.length < n := by
          rw [← hlen, List.length_append, List.length_cons]
          omega
        rw [linesOf_append_cons hline, List.splitOn_append_cons_self_of_not_mem hline, List.filterMap_cons,
          List.filterMap_cons, hsep line hline, ih rest.length hrest rest rfl]
      · rw [linesOf_of_notMem hmem, List.splitOn_eq_singleton hmem]
        split_ifs with hxs
        · rw [hxs, List.filterMap_cons, hnil]
        · rfl

end Forwards

end BlockLines
