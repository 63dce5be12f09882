/-
# Insertion-ordered dictionaries

A dictionary of the source is a list of key/value pairs in insertion order.  `set` replaces
the value of a key that is there and otherwise appends the pair, so the order of the keys is
that of their first insertion; `List.lookup` reads a key.
-/
import Mathlib.Data.List.Basic

namespace PyDict

variable {α β γ : Type*} [DecidableEq α]

/-- `d[key] = value`. -/
def set : List (α × β) → α → β → List (α × β)
  | [], key, value => [(key, value)]
  | (k, v) :: rest, key, value =>
      if k = key then (key, value) :: rest else (k, v) :: set rest key value

/-- `d.get(key)`, by the equality of the keys. -/
def get (d : List (α × β)) (key : α) : Option β :=
  d.lookup key

/-- `dict(pairs)`. -/
def ofPairs (pairs : List (α × β)) : List (α × β) :=
  pairs.foldl (fun d p => set d p.1 p.2) []

theorem mem_of_lookup {d : List (α × β)} {key : α} {value : β}
    (h : d.lookup key = some value) : (key, value) ∈ d := by
  obtain ⟨l₁, l₂, rfl, -⟩ := List.lookup_eq_some_iff.mp h
  exact List.mem_append_right _ List.mem_cons_self

/-- A pair is read at its key, when no key is there twice. -/
theorem lookup_of_mem {d : List (α × β)} (hkeys : (d.map Prod.fst).Nodup) {x : α × β} (hx : x ∈ d) :
    d.lookup x.1 = some x.2 := by
  induction d with
  | nil => cases hx
  | cons y rest ih =>
      rw [List.map_cons, List.nodup_cons] at hkeys
      rcases List.mem_cons.mp hx with rfl | hx
      · exact List.lookup_cons_self
      · have hne : (x.1 == y.1) = false := by
          rw [beq_eq_false_iff_ne]
          intro h
          exact hkeys.1 (h ▸ List.mem_map_of_mem hx)
        rw [List.lookup_cons, hne]
        exact ih hkeys.2 hx

theorem mem_set {d : List (α × β)} {key : α} {value : β} {x : α × β}
    (h : x ∈ set d key value) : x = (key, value) ∨ x ∈ d := by
  induction d with
  | nil => exact Or.inl (List.mem_singleton.mp h)
  | cons y rest ih =>
      obtain ⟨k, v⟩ := y
      rw [set] at h
      split_ifs at h with hk
      · rcases List.mem_cons.mp h with h | h
        · exact Or.inl h
        · exact Or.inr (List.mem_cons_of_mem _ h)
      · rcases List.mem_cons.mp h with h | h
        · exact Or.inr (h ▸ List.mem_cons_self)
        · exact (ih h).imp_right (List.mem_cons_of_mem _)

@[simp] theorem lookup_set_self (d : List (α × β)) (key : α) (value : β) :
    (set d key value).lookup key = some value := by
  induction d with
  | nil => simp [set]
  | cons y rest ih =>
      obtain ⟨k, v⟩ := y
      rw [set]
      split_ifs with hk
      · simp
      · have hne : (key == k) = false := by simpa using Ne.symm hk
        rw [List.lookup_cons, hne]
        exact ih

theorem lookup_set_of_ne (d : List (α × β)) {key q : α} (value : β) (hq : q ≠ key) :
    (set d key value).lookup q = d.lookup q := by
  have hne : (q == key) = false := by simpa using hq
  induction d with
  | nil => simp [set, List.lookup_cons, hne]
  | cons y rest ih =>
      obtain ⟨k, v⟩ := y
      rw [set]
      split_ifs with hk
      · subst hk
        simp [List.lookup_cons, hne]
      · rw [List.lookup_cons, List.lookup_cons, ih]

theorem get_set (d : List (α × β)) (key q : α) (value : β) :
    get (set d key value) q = Function.update (get d) key (some value) q := by
  unfold get
  by_cases hq : q = key
  · subst hq
    rw [lookup_set_self, Function.update_self]
  · rw [lookup_set_of_ne d value hq, Function.update_of_ne hq]

/-- `del d[key]`: the other keys are read as before. -/
theorem lookup_filter_ne (d : List (α × β)) (key q : α) :
    (d.filter fun e => e.1 ≠ key).lookup q = if q = key then none else d.lookup q := by
  induction d with
  | nil => simp
  | cons y rest ih =>
      rw [List.filter_cons]
      by_cases hy : y.1 = key
      · rw [if_neg (by simpa using hy), ih, List.lookup_cons]
        by_cases hq : q = key
        · rw [if_pos hq, if_pos hq]
        · have hb : (q == y.1) = false := by
            rw [beq_eq_false_iff_ne, hy]
            exact hq
          rw [if_neg hq, if_neg hq, hb]
      · rw [if_pos (by simpa using hy), List.lookup_cons, List.lookup_cons, ih]
        by_cases hq : q = key
        · have hb : (q == y.1) = false := by
            rw [beq_eq_false_iff_ne, hq]
            exact fun h => hy h.symm
          rw [if_pos hq, if_pos hq, hb]
        · rw [if_neg hq, if_neg hq]

/-- A pair that a filter keeps is read as before. -/
theorem lookup_filter_of_lookup {d : List (α × β)} {key : α} {value : β} {p : α × β → Bool}
    (h : d.lookup key = some value) (hp : p (key, value) = true) :
    (d.filter p).lookup key = some value := by
  induction d with
  | nil => cases h
  | cons y rest ih =>
      obtain ⟨k, v⟩ := y
      by_cases hk : key = k
      · subst hk
        rw [List.lookup_cons_self, Option.some.injEq] at h
        subst h
        rw [List.filter_cons_of_pos hp, List.lookup_cons_self]
      · have hb : (key == k) = false := by simpa using hk
        rw [List.lookup_cons, hb] at h
        by_cases hy : p (k, v) = true
        · rw [List.filter_cons_of_pos hy, List.lookup_cons, hb]
          exact ih h
        · rw [List.filter_cons_of_neg hy]
          exact ih h

/-- A key that is not there. -/
theorem lookup_eq_none_of_notMem {d : List (α × β)} {key : α} (h : key ∉ d.map Prod.fst) :
    d.lookup key = none := by
  rw [List.lookup_eq_none_iff]
  intro p hp
  rw [bne_iff_ne]
  rintro rfl
  exact h (List.mem_map_of_mem hp)

/-- A change of the values that keeps the keys. -/
theorem lookup_map_values (d : List (α × β)) (k : α × β → γ) (key : α) :
    (d.map fun x => (x.1, k x)).lookup key = (d.lookup key).map fun v => k (key, v) := by
  induction d with
  | nil => rfl
  | cons x rest ih =>
      obtain ⟨q, v⟩ := x
      rw [List.map_cons, List.lookup_cons, List.lookup_cons]
      by_cases hq : key = q
      · subst hq
        simp
      · have hb : (key == q) = false := by simpa using hq
        rw [hb]
        exact ih

/-- Setting a key and then changing the values, or the other way round. -/
theorem map_set_values (f : β → γ) (d : List (α × β)) (key : α) (value : β) :
    (set d key value).map (fun x => (x.1, f x.2)) =
      set (d.map fun x => (x.1, f x.2)) key (f value) := by
  induction d with
  | nil => rfl
  | cons y rest ih =>
      obtain ⟨k, v⟩ := y
      rw [set, List.map_cons, set]
      by_cases hk : k = key
      · rw [if_pos hk, if_pos hk]
        rfl
      · rw [if_neg hk, if_neg hk, List.map_cons, ih]

/-- Setting a key to the value it has. -/
theorem set_lookup {d : List (α × β)} {key : α} {value : β} (h : d.lookup key = some value) :
    set d key value = d := by
  induction d with
  | nil => cases h
  | cons y rest ih =>
      obtain ⟨k, v⟩ := y
      rw [set]
      by_cases hk : k = key
      · subst hk
        rw [List.lookup_cons_self, Option.some.injEq] at h
        rw [if_pos rfl, h]
      · have hb : (key == k) = false := by
          simpa using fun h : key = k => hk h.symm
        rw [List.lookup_cons, hb] at h
        rw [if_neg hk, ih h]

/-- Setting a key takes the old value out of a count and the new one in. -/
theorem countP_set (d : List (α × β)) (p : β → Bool) (key : α) (value : β) :
    (set d key value).countP (fun e => p e.2) + (d.lookup key).toList.countP p =
      d.countP (fun e => p e.2) + (if p value = true then 1 else 0) := by
  induction d with
  | nil =>
      by_cases hp : p value = true
      · simp [set, hp]
      · simp [set, hp]
  | cons e l ih =>
      obtain ⟨k, v⟩ := e
      rw [set, List.lookup_cons]
      by_cases hk : k = key
      · subst hk
        rw [if_pos rfl, List.countP_cons, List.countP_cons]
        simp only [beq_self_eq_true, Option.toList_some, List.countP_singleton]
        omega
      · have hb : (key == k) = false := by
          simpa using fun h : key = k => hk h.symm
        rw [if_neg hk, hb, List.countP_cons, List.countP_cons]
        show _ + (l.lookup key).toList.countP p = _
        omega

/-- A new key is appended. -/
theorem set_of_notMem {d : List (α × β)} {key : α} (h : key ∉ d.map Prod.fst) (value : β) :
    set d key value = d ++ [(key, value)] := by
  induction d with
  | nil => rfl
  | cons p rest ih =>
      rw [List.map_cons, List.mem_cons, not_or] at h
      rw [set, if_neg (Ne.symm h.1), ih h.2]
      rfl

/-- The last pair is set in the dict of the others. -/
theorem ofPairs_concat (pairs : List (α × β)) (e : α × β) :
    ofPairs (pairs ++ [e]) = set (ofPairs pairs) e.1 e.2 :=
  List.foldl_append ..

/-- Pairs with distinct keys are their own dictionary. -/
theorem ofPairs_of_nodup {pairs : List (α × β)} (h : (pairs.map Prod.fst).Nodup) :
    ofPairs pairs = pairs := by
  have hgo : ∀ (rest d : List (α × β)), ((d ++ rest).map Prod.fst).Nodup →
      rest.foldl (fun d p => set d p.1 p.2) d = d ++ rest := by
    intro rest
    induction rest with
    | nil =>
        intro d _
        rw [List.foldl_nil, List.append_nil]
    | cons p rest ih =>
        intro d hd
        have hp : p.1 ∉ d.map Prod.fst := by
          rw [List.map_append, List.map_cons] at hd
          intro hmem
          exact (List.nodup_append.mp hd).2.2 p.1 hmem p.1 List.mem_cons_self rfl
        have hsplit : d ++ p :: rest = (d ++ [p]) ++ rest := by
          rw [List.append_assoc, List.singleton_append]
        rw [hsplit] at hd
        rw [List.foldl_cons, set_of_notMem hp, ih _ hd, hsplit]
  exact hgo pairs [] h

end PyDict
