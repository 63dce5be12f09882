/-
# Probing an open-addressed table

A small library for tables with open addressing and deletion marks.  It names nothing of a
particular program: a slot is of any type, what a slot holds is read through `Probe`, and the
slots that belong to a key are given as a list, its PATH.

* `scan see path` walks the path as a lookup does: it stops at the key or at the first slot
  never used, and offers the first deletion mark it has passed for re-use;
* `Reachable unused s path` says that the walk gets as far as `s`: no unused slot stands before it;
* `scan_of_reachable` and `scan_of_missing` say what a lookup returns, for a key that is there
  and for one that is not;
* `Reachable.mono`: what is reachable stays so as long as no slot becomes unused.
-/
import Mathlib.Data.List.Basic

namespace ProbeTable

variable {ι : Type*}

/-- What the walk for one key sees in a slot: never used, a deletion mark, the key itself,
or another key. -/
inductive Probe where
  | unused
  | deleted
  | hit
  | other
  deriving DecidableEq, Repr

/-- Walk a path: the slot of the key when it is met, otherwise the first deletion mark
passed, or the unused slot at which the walk stops.  `none` when the path ends before. -/
def scan (see : ι → Probe) : List ι → Option ι → Option ι
  | [], _ => none
  | s :: path, mark =>
      match see s with
      | .unused => some (mark.getD s)
      | .deleted => scan see path (mark.or (some s))
      | .hit => some s
      | .other => scan see path mark

theorem scan_nil (see : ι → Probe) (mark : Option ι) : scan see [] mark = none := rfl

theorem scan_cons (see : ι → Probe) (s : ι) (path : List ι) (mark : Option ι) : scan see (s :: path) mark =
    match see s with
    | .unused => some (mark.getD s)
    | .deleted => scan see path (mark.or (some s))
    | .hit => some s
    | .other => scan see path mark := rfl

/-- The walk along the path gets as far as the slot `s`. -/
def Reachable (unused : ι → Prop) (s : ι) (path : List ι) : Prop :=
  ∃ before after, path = before ++ s :: after ∧ ∀ r ∈ before, ¬ unused r

theorem Reachable.mem {unused : ι → Prop} {s : ι} {path : List ι} (h : Reachable unused s path) :
    s ∈ path := by
  obtain ⟨before, after, rfl, -⟩ := h
  simp

/-- Filling slots or marking them deleted keeps everything reachable. -/
theorem Reachable.mono {unused unused' : ι → Prop} {s : ι} {path : List ι}
    (hused : ∀ r, unused' r → unused r) (h : Reachable unused s path) :
    Reachable unused' s path := by
  obtain ⟨before, after, hpath, hbefore⟩ := h
  refine ⟨before, after, hpath, ?_⟩
  intro r hr hunused
  exact hbefore r hr (hused r hunused)

/-- **A key that is reachable is found.** -/
theorem scan_of_reachable {see : ι → Probe} {s : ι} (hit : ∀ r, see r = .hit ↔ r = s)
    {path : List ι} (h : Reachable (fun r => see r = .unused) s path) (mark : Option ι) :
    scan see path mark = some s := by
  obtain ⟨before, after, rfl, hbefore⟩ := h
  induction before generalizing mark with
  | nil =>
      rw [List.nil_append, scan_cons, (hit s).mpr rfl]
  | cons r before ih =>
      have hrest : ∀ mark, scan see (before ++ s :: after) mark = some s :=
        fun mark => ih mark fun r' hr' => hbefore r' (List.mem_cons_of_mem _ hr')
      rw [List.cons_append, scan_cons]
      match hr : see r with
      | .unused => exact absurd hr (hbefore r List.mem_cons_self)
      | .deleted => exact hrest _
      | .hit => rw [(hit r).mp hr]
      | .other => exact hrest _

/-- Without the key on the path, the walk ends somewhere exactly when it meets an unused slot. -/
theorem scan_isSome_iff {see : ι → Probe} {path : List ι} (hmiss : ∀ r ∈ path, see r ≠ .hit)
    (mark : Option ι) :
    (scan see path mark).isSome ↔ ∃ r ∈ path, see r = .unused := by
  induction path generalizing mark with
  | nil => simp [scan_nil]
  | cons r path ih =>
      have hrest := fun mark => ih (fun r' hr' => hmiss r' (List.mem_cons_of_mem _ hr')) mark
      rw [scan_cons]
      match hr : see r with
      | .unused => simp [hr]
      | .deleted => simp [hr, hrest]
      | .hit => exact absurd hr (hmiss r List.mem_cons_self)
      | .other => simp [hr, hrest]

/-- Once a mark has been passed, it is what the walk offers for a missing key. -/
theorem scan_of_mark {see : ι → Probe} {path : List ι} (hmiss : ∀ r ∈ path, see r ≠ .hit)
    {m : ι} (h : (scan see path (some m)).isSome) : scan see path (some m) = some m := by
  induction path with
  | nil => simp [scan_nil] at h
  | cons r path ih =>
      have hrest := ih fun r' hr' => hmiss r' (List.mem_cons_of_mem _ hr')
      rw [scan_cons] at h ⊢
      match hr : see r with
      | .unused => rfl
      | .deleted =>
          rw [hr] at h
          exact hrest h
      | .hit => exact absurd hr (hmiss r List.mem_cons_self)
      | .other =>
          rw [hr] at h
          exact hrest h

/-- **For a missing key the walk offers the first slot of the path without a key**, if it ends
within the path. -/
theorem scan_of_missing {see : ι → Probe} {path : List ι} (hmiss : ∀ r ∈ path, see r ≠ .hit)
    (h : (scan see path none).isSome) :
    scan see path none = path.find? fun r => see r = .unused ∨ see r = .deleted := by
  induction path with
  | nil => rfl
  | cons r path ih =>
      have hmiss' : ∀ r' ∈ path, see r' ≠ .hit := fun r' hr' => hmiss r' (List.mem_cons_of_mem _ hr')
      rw [scan_cons] at h ⊢
      match hr : see r with
      | .unused => simp [hr]
      | .deleted =>
          rw [hr] at h
          have hmark := scan_of_mark hmiss' h
          simpa [List.find?_cons, hr] using hmark
      | .hit => exact absurd hr (hmiss r List.mem_cons_self)
      | .other =>
          rw [hr] at h
          rw [List.find?_cons_of_neg (by simp [hr])]
          exact ih hmiss' h

/-- What the walk offers is the mark it started with or a slot of the path that holds no other key. -/
theorem scan_eq_some {see : ι → Probe} {path : List ι} {mark : Option ι} {s : ι}
    (h : scan see path mark = some s) : mark = some s ∨ (s ∈ path ∧ see s ≠ .other) := by
  induction path generalizing mark with
  | nil => cases h
  | cons r path ih =>
      have hlater : s ∈ path ∧ see s ≠ .other → s ∈ r :: path ∧ see s ≠ .other :=
        And.imp_left (List.mem_cons_of_mem r)
      rw [scan_cons] at h
      match hr : see r with
      | .unused =>
          rw [hr] at h
          cases mark with
          | none =>
              obtain rfl : r = s := Option.some.inj h
              exact Or.inr ⟨List.mem_cons_self, by rw [hr]; exact Probe.noConfusion⟩
          | some m => exact Or.inl h
      | .deleted =>
          rw [hr] at h
          rcases ih h with hmark | hs
          · cases mark with
            | none =>
                obtain rfl : r = s := Option.some.inj hmark
                exact Or.inr ⟨List.mem_cons_self, by rw [hr]; exact Probe.noConfusion⟩
            | some m => exact Or.inl hmark
          · exact Or.inr (hlater hs)
      | .hit =>
          rw [hr] at h
          obtain rfl : r = s := Option.some.inj h
          exact Or.inr ⟨List.mem_cons_self, by rw [hr]; exact Probe.noConfusion⟩
      | .other =>
          rw [hr] at h
          exact (ih h).imp_right hlater

/-- A search that stops at every unused slot gets no further than the walk. -/
theorem reachable_of_find? {unused : ι → Prop} {free : ι → Bool} {path : List ι} {s : ι}
    (hfree : ∀ r, unused r → free r = true) (h : path.find? free = some s) :
    Reachable unused s path := by
  obtain ⟨-, before, after, hpath, hbefore⟩ := List.find?_eq_some_iff_append.mp h
  refine ⟨before, after, hpath, ?_⟩
  intro r hr hunused
  have hr' := hbefore r hr
  rw [hfree r hunused] at hr'
  simp at hr'

end ProbeTable
