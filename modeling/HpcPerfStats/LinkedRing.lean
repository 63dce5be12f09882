/-
# Circular doubly linked lists

A small library for rings of nodes with a `forward` and a `backward` link, as `insque` and
`remque` of the C library build them.  It names nothing of a particular program; a node is a
number, and the links are two functions.

* `Seg forward x ids y`: following `forward` from `x` passes the nodes `ids` and then is at `y`;
* `Linked l ids`: the nodes `ids` form a ring in this order;
* `Linked.insque`, `Linked.remque` and `Linked.rotate`: what the two operations, and a change of
  the first node, do to the list of nodes;
* `Linked.trace_eq`: reading as many nodes as the ring has, from the first one on, gives the list.
-/
import Mathlib.Data.List.Nodup
import Mathlib.Logic.Function.Basic

namespace LinkedRing

/-- The two links of every node. -/
structure Links where
  forward : Nat → Nat
  backward : Nat → Nat

/-- `insque(elem, prev)`. -/
def insque (l : Links) (elem prev : Nat) : Links :=
  let next := l.forward prev
  { forward := Function.update (Function.update l.forward prev elem) elem next
    backward := Function.update (Function.update l.backward next elem) elem prev }

/-- `remque(elem)`. -/
def remque (l : Links) (elem : Nat) : Links :=
  let next := l.forward elem
  let prev := l.backward elem
  { forward := Function.update l.forward prev next
    backward := Function.update l.backward next prev }

/-- Both links of a node set to the node itself. -/
def selfLink (l : Links) (elem : Nat) : Links :=
  { forward := Function.update l.forward elem elem
    backward := Function.update l.backward elem elem }

/-! ## Segments -/

/-- Following `forward` from `x` passes the nodes `ids` and then is at `y`. -/
def Seg (forward : Nat → Nat) : Nat → List Nat → Nat → Prop
  | x, [], y => x = y
  | x, i :: ids, y => x = i ∧ Seg forward (forward i) ids y

theorem seg_append {forward : Nat → Nat} {x y : Nat} {a b : List Nat} :
    Seg forward x (a ++ b) y ↔ ∃ z, Seg forward x a z ∧ Seg forward z b y := by
  induction a generalizing x with
  | nil => simp [Seg]
  | cons i a ih => simp [Seg, ih, and_assoc]

/-- A segment only depends on the links of its own nodes. -/
theorem Seg.congr {forward forward' : Nat → Nat} {x y : Nat} {ids : List Nat}
    (hlinks : ∀ i ∈ ids, forward' i = forward i) (h : Seg forward x ids y) :
    Seg forward' x ids y := by
  induction ids generalizing x with
  | nil => exact h
  | cons i ids ih =>
      refine ⟨h.1, ?_⟩
      rw [hlinks i List.mem_cons_self]
      exact ih (fun j hj => hlinks j (List.mem_cons_of_mem _ hj)) h.2

/-- Every node of a segment but the first is the forward link of the one before it. -/
theorem Seg.forward_mem {forward : Nat → Nat} {x y i : Nat} {ids : List Nat}
    (h : Seg forward x ids y) (hi : i ∈ ids) : forward i = y ∨ forward i ∈ ids := by
  induction ids generalizing x with
  | nil => simp at hi
  | cons j ids ih =>
      rcases List.mem_cons.mp hi with rfl | hi
      · cases ids with
        | nil => exact Or.inl h.2
        | cons k ids => exact Or.inr (by rw [h.2.1]; simp)
      · exact (ih h.2 hi).imp_right (List.mem_cons_of_mem _)

/-! ## Rings -/

/-- The nodes `ids` form a ring, in this order. -/
structure Linked (l : Links) (ids : List Nat) : Prop where
  nodup : ids.Nodup
  seg : ∀ f ∈ ids.head?, Seg l.forward f ids f
  back : ∀ i ∈ ids, l.backward (l.forward i) = i

/-- The nodes read by following `forward` a number of times. -/
def trace (forward : Nat → Nat) : Nat → Nat → List Nat
  | 0, _ => []
  | n + 1, x => x :: trace forward n (forward x)

theorem linked_nil (l : Links) : Linked l [] := ⟨List.nodup_nil, by simp, by simp⟩

theorem linked_selfLink (l : Links) (x : Nat) : Linked (selfLink l x) [x] := by
  refine ⟨List.nodup_singleton x, ?_, ?_⟩
  · intro f hf
    obtain rfl : x = f := by simpa using hf
    exact ⟨rfl, by simp [selfLink, Seg]⟩
  · intro i hi
    obtain rfl : i = x := by simpa using hi
    simp [selfLink]

/-- A node linked to itself is left alone by `insque` after itself. -/
theorem insque_selfLink (l : Links) (x : Nat) : insque (selfLink l x) x x = selfLink l x := by
  simp [insque, selfLink]

/-- The ring can be entered at any of its nodes. -/
theorem Linked.rotate {l : Links} {a b : List Nat} (h : Linked l (a ++ b)) : Linked l (b ++ a) := by
  refine ⟨?_, ?_, ?_⟩
  · exact List.nodup_append_comm.mp h.nodup
  · cases a with
    | nil => simpa using h.seg
    | cons f a =>
        obtain ⟨z, ha, hb⟩ := seg_append.mp (h.seg f (by simp))
        intro g hg
        cases b with
        | nil =>
            obtain rfl : f = g := by simpa using hg
            obtain rfl : z = f := hb
            simpa using ha
        | cons g' b =>
            obtain rfl : g' = g := by simpa using hg
            obtain rfl : z = g' := hb.1
            exact seg_append.mpr ⟨f, hb, ha⟩
  · intro i hi
    exact h.back i (by rw [List.mem_append] at hi ⊢; exact hi.symm)

/-- The forward link of the last node is the first. -/
theorem Linked.forward_last {l : Links} {ids : List Nat} {x f : Nat}
    (h : Linked l (ids ++ [x])) (hf : (ids ++ [x]).head? = some f) : l.forward x = f := by
  obtain ⟨z, -, hx⟩ := seg_append.mp (h.seg f hf)
  exact hx.2

/-- The forward link of a node that is not the last is the next. -/
theorem Linked.forward_next {l : Links} {a b : List Nat} {x y : Nat}
    (h : Linked l (a ++ x :: y :: b)) : l.forward x = y := by
  obtain ⟨f, hf⟩ : ∃ f, (a ++ x :: y :: b).head? = some f := by
    cases a with
    | nil => exact ⟨x, rfl⟩
    | cons f a => exact ⟨f, rfl⟩
  obtain ⟨z, -, hx⟩ := seg_append.mp (h.seg f hf)
  exact hx.2.1

/-- **Reading the ring** from its first node on. -/
theorem Linked.trace_eq {l : Links} {ids : List Nat} {f : Nat} (h : Linked l ids)
    (hf : ids.head? = some f) : trace l.forward ids.length f = ids := by
  have hseg : ∀ (ids : List Nat) (x y : Nat), Seg l.forward x ids y →
      trace l.forward ids.length x = ids := by
    intro ids
    induction ids with
    | nil => intros; rfl
    | cons i ids ih =>
        intro x y hx
        obtain rfl : x = i := hx.1
        rw [List.length_cons, trace, ih _ _ hx.2]
  exact hseg ids f f (h.seg f hf)

/-- **A node inserted after the last one** is the new last one. -/
theorem Linked.insque {l : Links} {ids : List Nat} {x new : Nat} (h : Linked l (ids ++ [x]))
    (hnew : new ∉ ids ++ [x]) : Linked (insque l new x) (ids ++ [x] ++ [new]) := by
  obtain ⟨f, hf⟩ : ∃ f, (ids ++ [x]).head? = some f := by
    cases ids with
    | nil => exact ⟨x, rfl⟩
    | cons f ids => exact ⟨f, rfl⟩
  have hlast : l.forward x = f := h.forward_last hf
  have hxnew : x ≠ new := by rintro rfl; simp at hnew
  have hxids : x ∉ ids := by
    have := List.nodup_append.mp h.nodup
    intro hx
    exact this.2.2 x hx x (by simp) rfl
  have hfmem : f ∈ ids ++ [x] := List.mem_of_mem_head? hf
  have hfnew : f ≠ new := by rintro rfl; exact hnew hfmem
  -- the forward links: only those of `x` and of the new node are changed
  have hfwd : ∀ i, i ≠ x → i ≠ new → (LinkedRing.insque l new x).forward i = l.forward i := by
    intro i hix hin
    simp [LinkedRing.insque, Function.update_of_ne, hix, hin]
  have hfwdx : (LinkedRing.insque l new x).forward x = new := by
    simp [LinkedRing.insque, Function.update_of_ne, hxnew]
  have hfwdnew : (LinkedRing.insque l new x).forward new = f := by
    simp [LinkedRing.insque, hlast]
  refine ⟨?_, ?_, ?_⟩
  · rw [List.nodup_append]
    refine ⟨h.nodup, by simp, ?_⟩
    intro a ha b hb
    obtain rfl : b = new := by simpa using hb
    rintro rfl
    exact hnew ha
  · intro g hg
    have hg' : g = f := by
      rw [List.head?_append, hf] at hg
      simpa using hg.symm
    subst hg'
    obtain ⟨z, hids, hx⟩ := seg_append.mp (h.seg g hf)
    obtain rfl : z = x := hx.1
    rw [List.append_assoc, seg_append]
    refine ⟨z, hids.congr ?_, ?_⟩
    · intro i hi
      apply hfwd i
      · rintro rfl
        exact hxids hi
      · rintro rfl
        exact hnew (List.mem_append_left _ hi)
    · exact ⟨rfl, by rw [hfwdx]; exact ⟨rfl, hfwdnew⟩⟩
  · intro i hi
    by_cases hin : i = new
    · subst hin
      rw [hfwdnew]
      simp [LinkedRing.insque, hlast, Function.update_of_ne, hfnew]
    have hi' : i ∈ ids ++ [x] := by
      rcases List.mem_append.mp hi with h' | h'
      · exact h'
      · exact absurd (by simpa using h') hin
    by_cases hix : i = x
    · subst hix
      rw [hfwdx]
      simp [LinkedRing.insque]
    · rw [hfwd i hix hin]
      -- the forward link of `i` is a node of the ring other than the first
      have hback := h.back i hi'
      have hne : l.forward i ≠ f := by
        intro hif
        rw [hif, ← hlast, h.back x (by simp)] at hback
        exact hix hback.symm
      have hmem : l.forward i ∈ ids ++ [x] :=
        ((h.seg f hf).forward_mem hi').resolve_left hne
      have hnenew : l.forward i ≠ new := by
        intro hin'
        exact hnew (hin' ▸ hmem)
      simp [LinkedRing.insque, hlast, Function.update_of_ne, hne, hnenew, hback]

/-- **The first node taken out.** -/
theorem Linked.remque {l : Links} {ids : List Nat} {f g : Nat} (h : Linked l (f :: g :: ids)) :
    Linked (remque l f) (g :: ids) ∧ l.forward f = g := by
  have hfg : l.forward f = g := h.forward_next (a := [])
  obtain ⟨a, x, hax⟩ : ∃ a x, g :: ids = a ++ [x] := by
    refine ⟨(g :: ids).dropLast, (g :: ids).getLast (by simp), ?_⟩
    exact (List.dropLast_append_getLast _).symm
  have hnodup := List.nodup_cons.mp h.nodup
  have hxmem : x ∈ g :: ids := by rw [hax]; simp
  have hlast : l.forward x = f := by
    have h' : Linked l ((f :: a) ++ [x]) := by
      rw [List.cons_append, ← hax]
      exact h
    exact h'.forward_last rfl
  have hprev : l.backward f = x := by
    have := h.back x (List.mem_cons_of_mem _ hxmem)
    rw [hlast] at this
    exact this
  have hfwd : ∀ i, i ≠ x → (LinkedRing.remque l f).forward i = l.forward i := by
    intro i hix
    simp [LinkedRing.remque, hprev, Function.update_of_ne, hix]
  have hfwdx : (LinkedRing.remque l f).forward x = g := by
    simp [LinkedRing.remque, hprev, hfg]
  refine ⟨⟨hnodup.2, ?_, ?_⟩, hfg⟩
  · intro g' hg'
    obtain rfl : g = g' := by simpa using hg'
    have hseg := (h.seg f rfl).2
    rw [hfg] at hseg
    have hnodup' := hnodup.2
    rw [hax] at hseg hnodup' ⊢
    obtain ⟨z, ha, hx⟩ := seg_append.mp hseg
    refine seg_append.mpr ⟨z, ha.congr ?_, hx.1, ?_⟩
    · intro i hi
      apply hfwd
      rintro rfl
      exact (List.nodup_append.mp hnodup').2.2 i hi i (by simp) rfl
    · exact hfwdx
  · intro i hi
    by_cases hix : i = x
    · subst hix
      rw [hfwdx]
      simp [LinkedRing.remque, hfg, hprev]
    · rw [hfwd i hix]
      have hback := h.back i (List.mem_cons_of_mem _ hi)
      have hne : l.forward i ≠ g := by
        intro hig
        rw [hig, ← hfg, h.back f List.mem_cons_self] at hback
        exact hnodup.1 (hback ▸ hi)
      simp [LinkedRing.remque, hfg, Function.update_of_ne, hne, hback]

end LinkedRing
