/-
# Lists of keyed rows

A small library for tables of rows that belong to series: each row has a key, and every
operation treats the rows of one key by themselves.  It names nothing of a particular system.

* `part key k l`: the rows of one key; two tables with the same parts hold the same rows
  (`perm_of_part`), and are equal when both are sorted by the key (`eq_of_part`)
* `sortOn key l`: the stable sort by a key
* `groupOn key f l`: one result for each key, in the order in which the keys appear
* `walk` and `walkTable`: reading the rows in order with a table of what was last seen of
  each key
* `held` and `consecutive`: what each row meets in the table; within a series it is the row before

`part_walk_append` and `walkTable_sortOn_append` say when a table may be cut in two: sorting and
walking the parts one after the other gives, key by key, what sorting and walking the whole
table gives.  `walkTable_resume` says when rows in front may be left out: the table then
holds the same of a key before a given time.
-/
import Mathlib.Data.List.Sort
import Mathlib.Data.Prod.Lex

namespace KeyedList

variable {α β κ τ σ : Type*}

/-! ## Parts -/

section Part

variable [DecidableEq κ] (key : α → κ)

/-- The rows of one key. -/
def part (k : κ) (l : List α) : List α :=
  l.filter fun a => key a = k

@[simp] theorem part_nil (k : κ) : part key k [] = [] := rfl

@[simp] theorem part_append (k : κ) (l l' : List α) :
    part key k (l ++ l') = part key k l ++ part key k l' :=
  List.filter_append l l'

theorem part_cons_self (a : α) (l : List α) : part key (key a) (a :: l) = a :: part key (key a) l :=
  List.filter_cons_of_pos (by simp)

theorem part_cons_of_ne {a : α} {k : κ} (l : List α) (h : key a ≠ k) :
    part key k (a :: l) = part key k l :=
  List.filter_cons_of_neg (by simpa using h)

@[simp] theorem mem_part {a : α} {k : κ} {l : List α} : a ∈ part key k l ↔ a ∈ l ∧ key a = k := by
  simp [part]

theorem part_eq_nil {k : κ} {l : List α} (h : ∀ a ∈ l, key a ≠ k) : part key k l = [] := by
  rw [part, List.filter_eq_nil_iff]
  simpa using h

theorem part_eq_self {k : κ} {l : List α} (h : ∀ a ∈ l, key a = k) : part key k l = l := by
  rw [part, List.filter_eq_self]
  simpa using h

/-- A part of a part, by a finer key. -/
theorem part_part {ι : Type*} [DecidableEq ι] (fine : α → ι) {i : ι} {k : κ} (l : List α)
    (h : ∀ a, fine a = i → key a = k) : part fine i (part key k l) = part fine i l := by
  rw [part, part, List.filter_filter]
  refine List.filter_congr fun a _ => ?_
  by_cases hi : fine a = i
  · simp [hi, h a hi]
  · simp [hi]

theorem part_part_self (k : κ) (l : List α) : part key k (part key k l) = part key k l :=
  part_eq_self key fun _ ha => ((mem_part key).mp ha).2

theorem part_part_of_ne {i k : κ} (l : List α) (h : k ≠ i) : part key i (part key k l) = [] := by
  refine part_eq_nil key fun a ha hi => h ?_
  rw [← hi, ((mem_part key).mp ha).2]

/-- The part of a key that only one row has. -/
theorem part_eq_singleton {l : List α} (h : (l.map key).Nodup) {a : α} (ha : a ∈ l) :
    part key (key a) l = [a] := by
  induction l with
  | nil => cases ha
  | cons b l ih =>
      rw [List.map_cons, List.nodup_cons] at h
      have hother : ∀ c ∈ l, key c ≠ key b := by
        intro c hc heq
        exact h.1 (heq ▸ List.mem_map_of_mem hc)
      rcases List.mem_cons.mp ha with rfl | ha
      · rw [part_cons_self, part_eq_nil key hother]
      · rw [part_cons_of_ne key l (hother a ha).symm, ih h.2 ha]

/-- Tables with the same parts hold the same rows. -/
theorem perm_of_part {l l' : List α} (h : ∀ k, part key k l = part key k l') : l.Perm l' := by
  classical
  rw [List.perm_iff_count]
  intro a
  have hcount : ∀ m : List α, m.count a = (part key (key a) m).count a := by
    intro m
    rw [part, List.count_filter (by simp)]
  rw [hcount l, hcount l', h]

/-- What the rows of a key hold, read off the keys and contents of all rows. -/
theorem map_part {γ : Type*} (f : α → γ) (k : κ) (l : List α) :
    (part key k l).map f = ((l.map fun a => (key a, f a)).filter fun p => p.1 = k).map Prod.snd := by
  rw [List.filter_map, List.map_map]
  rfl

theorem perm_map_part {γ : Type*} {key' : β → κ} {f : α → γ} {g : β → γ} {l : List α} {l' : List β}
    (h : (l.map fun a => (key a, f a)).Perm (l'.map fun b => (key' b, g b))) (k : κ) :
    ((part key k l).map f).Perm ((part key' k l').map g) := by
  rw [map_part key f, map_part key' g]
  exact (h.filter _).map _

end Part

/-! ## Stable sorting -/

section Sorting

variable [LinearOrder κ] (key : α → κ)

/-- Sorted by the key. -/
def SortedOn (l : List α) : Prop :=
  l.Pairwise fun a b => key a ≤ key b

/-- The stable sort by a key. -/
def sortOn (l : List α) : List α :=
  l.insertionSort fun a b => key a ≤ key b

theorem sortedOn_sortOn (l : List α) : SortedOn key (sortOn key l) := by
  have : Std.Total fun a b : α => key a ≤ key b := ⟨fun a b => le_total (key a) (key b)⟩
  have : IsTrans α fun a b => key a ≤ key b := ⟨fun _ _ _ => le_trans⟩
  exact List.pairwise_insertionSort _ l

theorem perm_sortOn (l : List α) : (sortOn key l).Perm l :=
  List.perm_insertionSort _ l

@[simp] theorem mem_sortOn {a : α} {l : List α} : a ∈ sortOn key l ↔ a ∈ l :=
  (perm_sortOn key l).mem_iff

/-- The sort is stable: rows of one key keep their order. -/
theorem part_sortOn (l : List α) (k : κ) : part key k (sortOn key l) = part key k l := by
  have hinsert : ∀ (a : α) (m : List α),
      part key k (m.orderedInsert (fun a b => key a ≤ key b) a) = part key k (a :: m) := by
    intro a m
    induction m with
    | nil => rfl
    | cons b m ih =>
        rw [List.orderedInsert_cons]
        split_ifs with hab
        · rfl
        · -- `b` is smaller, so it has another key than `a`
          by_cases hb : key b = k
          · have ha : key a ≠ k := by
              rintro rfl
              exact hab hb.ge
            rw [← hb, part_cons_self, hb, ih, part_cons_of_ne key _ ha, part_cons_of_ne key _ ha,
              ← hb, part_cons_self]
          · rw [part_cons_of_ne key _ hb, ih]
            by_cases ha : key a = k
            · rw [← ha, part_cons_self, part_cons_self, part_cons_of_ne key _ (by rwa [ha])]
            · rw [part_cons_of_ne key _ ha, part_cons_of_ne key _ ha, part_cons_of_ne key _ hb]
  induction l with
  | nil => rfl
  | cons a l ih =>
      rw [sortOn, List.insertionSort_cons, hinsert, part, part, List.filter_cons, List.filter_cons]
      rw [part, part] at ih
      rw [← ih]
      rfl

/-- **Parts determine a sorted table.** -/
theorem eq_of_part {l l' : List α} (hl : SortedOn key l) (hl' : SortedOn key l')
    (h : ∀ k, part key k l = part key k l') : l = l' := by
  induction l generalizing l' with
  | nil => exact ((perm_of_part key h).nil_eq).symm ▸ rfl
  | cons a l ih =>
      cases l' with
      | nil => exact absurd (perm_of_part key h).eq_nil (List.cons_ne_nil a l)
      | cons b m =>
          have hperm := perm_of_part key h
          have hab : key a = key b := by
            apply le_antisymm
            · rcases List.mem_cons.mp (hperm.mem_iff.mpr List.mem_cons_self) with rfl | hb
              · exact le_rfl
              · exact (List.pairwise_cons.mp hl).1 b hb
            · rcases List.mem_cons.mp (hperm.mem_iff.mp List.mem_cons_self) with rfl | ha
              · exact le_rfl
              · exact (List.pairwise_cons.mp hl').1 a ha
          have hhead := h (key a)
          rw [part_cons_self, hab, part_cons_self, ← hab] at hhead
          obtain ⟨rfl, htail⟩ := List.cons.inj hhead
          congr 1
          refine ih (List.pairwise_cons.mp hl).2 (List.pairwise_cons.mp hl').2 fun k => ?_
          by_cases hk : key a = k
          · rw [← hk]
            exact htail
          · have hrest := h k
            rwa [part_cons_of_ne key _ hk, part_cons_of_ne key _ hk] at hrest

theorem sortOn_congr {l l' : List α} (h : ∀ k, part key k l = part key k l') :
    sortOn key l = sortOn key l' := by
  refine eq_of_part key (sortedOn_sortOn key l) (sortedOn_sortOn key l') fun k => ?_
  rw [part_sortOn, part_sortOn, h]

theorem sortOn_eq_self {l : List α} (h : SortedOn key l) : sortOn key l = l :=
  eq_of_part key (sortedOn_sortOn key l) h (part_sortOn key l)

/-- Sorting mapped rows. -/
theorem sortOn_map {ι : Type*} (f : ι → α) (l : List ι) :
    sortOn key (l.map f) = (sortOn (key ∘ f) l).map f :=
  (List.map_insertionSort _ _ f l fun _ _ _ _ => Iff.rfl).symm

theorem SortedOn.part {ι : Type*} [DecidableEq ι] {coarse : α → ι} {l : List α}
    (h : SortedOn key l) (i : ι) : SortedOn key (part coarse i l) :=
  List.Pairwise.sublist List.filter_sublist h

end Sorting

/-! ## Groups -/

section Group

variable [DecidableEq κ] (key : α → κ)

/-- The keys in the order in which they appear. -/
def groupKeys : List α → List κ
  | [] => []
  | a :: l => key a :: (groupKeys l).filter fun k => k ≠ key a

/-- One result for each key. -/
def groupOn (f : κ → List α → β) (l : List α) : List β :=
  (groupKeys key l).map fun k => f k (part key k l)

theorem mem_groupKeys {k : κ} {l : List α} : k ∈ groupKeys key l ↔ ∃ a ∈ l, key a = k := by
  induction l with
  | nil => simp [groupKeys]
  | cons a l ih =>
      simp only [groupKeys, List.mem_cons, List.mem_filter, ih, ne_eq, decide_eq_true_eq]
      constructor
      · rintro (rfl | ⟨⟨b, hb, rfl⟩, -⟩)
        · exact ⟨a, Or.inl rfl, rfl⟩
        · exact ⟨b, Or.inr hb, rfl⟩
      · rintro ⟨b, rfl | hb, rfl⟩
        · exact Or.inl rfl
        · by_cases hk : key b = key a
          · exact Or.inl hk
          · exact Or.inr ⟨⟨b, hb, rfl⟩, hk⟩

theorem nodup_groupKeys (l : List α) : (groupKeys key l).Nodup := by
  induction l with
  | nil => exact List.nodup_nil
  | cons a l ih =>
      rw [groupKeys, List.nodup_cons]
      exact ⟨by simp, ih.filter _⟩

theorem map_groupOn {f : κ → List α → β} {out : β → κ} (hout : ∀ k l, out (f k l) = k)
    (l : List α) : (groupOn key f l).map out = groupKeys key l := by
  rw [groupOn, List.map_map]
  exact (List.map_congr_left fun k _ => hout k _).trans (List.map_id _)

/-- The keys that a predicate on keys keeps. -/
theorem groupKeys_filter (p : κ → Bool) (l : List α) :
    (groupKeys key l).filter p = groupKeys key (l.filter fun a => p (key a)) := by
  induction l with
  | nil => rfl
  | cons a l ih =>
      rw [groupKeys]
      by_cases hp : p (key a) = true
      · have hkeep : (a :: l).filter (fun a => p (key a)) = a :: l.filter fun a => p (key a) :=
          List.filter_cons_of_pos (by exact hp)
        rw [List.filter_cons_of_pos hp, hkeep, groupKeys, ← ih, List.filter_filter,
          List.filter_filter]
        congr 1
        exact List.filter_congr fun k _ => Bool.and_comm _ _
      · have hdrop : (a :: l).filter (fun a => p (key a)) = l.filter fun a => p (key a) :=
          List.filter_cons_of_neg (by exact hp)
        rw [List.filter_cons_of_neg hp, hdrop, ← ih, List.filter_filter]
        refine List.filter_congr fun k _ => ?_
        by_cases hk : k = key a
        · subst hk
          simpa using hp
        · simp [hk]

/-- The results of one coarse key are the results of the rows of that key. -/
theorem part_groupOn {ι : Type*} [DecidableEq ι] {f : κ → List α → β} {coarse : κ → ι}
    {out : β → ι} (hout : ∀ k l, out (f k l) = coarse k) (i : ι) (l : List α) :
    part out i (groupOn key f l) = groupOn key f (part (fun a => coarse (key a)) i l) := by
  rw [groupOn, part, List.filter_map]
  have hkeys : (groupKeys key l).filter ((fun b => decide (out b = i)) ∘ fun k => f k (part key k l))
      = groupKeys key (part (fun a => coarse (key a)) i l) := by
    rw [part, ← groupKeys_filter key (fun k => decide (coarse k = i))]
    refine List.filter_congr fun k _ => ?_
    simp [hout]
  rw [hkeys, groupOn]
  refine List.map_congr_left fun k hk => ?_
  obtain ⟨a, ha, rfl⟩ := (mem_groupKeys key).mp hk
  have hi : coarse (key a) = i := ((mem_part _).mp ha).2
  rw [part_part (fun a => coarse (key a)) key l fun b hb => by rw [hb, hi]]

/-- Rows of one key are one group. -/
theorem groupOn_eq_singleton {f : κ → List α → β} {a : α} {l : List α}
    (h : ∀ b ∈ a :: l, key b = key a) : groupOn key f (a :: l) = [f (key a) (a :: l)] := by
  have hrest : (groupKeys key l).filter (fun k => k ≠ key a) = [] := by
    rw [List.filter_eq_nil_iff]
    intro k hk
    obtain ⟨b, hb, rfl⟩ := (mem_groupKeys key).mp hk
    simp [h b (List.mem_cons_of_mem _ hb)]
  rw [groupOn, groupKeys, hrest, List.map_singleton, part_eq_self key h]

/-- When no key is there twice, every row is a group. -/
theorem groupKeys_of_nodup {l : List α} (h : (l.map key).Nodup) : groupKeys key l = l.map key := by
  induction l with
  | nil => rfl
  | cons a l ih =>
      rw [List.map_cons, List.nodup_cons] at h
      rw [groupKeys, ih h.2, List.map_cons, List.filter_eq_self.mpr]
      intro k hk
      exact decide_eq_true fun heq => h.1 (heq ▸ hk)

theorem groupOn_of_nodup (f : κ → List α → β) {l : List α} (h : (l.map key).Nodup) :
    groupOn key f l = l.map fun a => f (key a) [a] := by
  unfold groupOn
  rw [groupKeys_of_nodup key h, List.map_map]
  exact List.map_congr_left fun a ha => congrArg (f (key a)) (part_eq_singleton key h ha)

/-- Rows that are changed without their keys. -/
theorem groupKeys_map {γ : Type*} {key' : γ → κ} {g : α → γ} (hg : ∀ a, key' (g a) = key a) (l : List α) :
    groupKeys key' (l.map g) = groupKeys key l := by
  induction l with
  | nil => rfl
  | cons a l ih => rw [List.map_cons, groupKeys, groupKeys, ih, hg]

theorem part_of_map {γ : Type*} {key' : γ → κ} {g : α → γ} (hg : ∀ a, key' (g a) = key a) (k : κ)
    (l : List α) : part key' k (l.map g) = (part key k l).map g := by
  unfold part
  rw [List.filter_map]
  congr 1
  refine List.filter_congr fun a _ => ?_
  rw [Function.comp_apply, hg]

theorem groupOn_of_map {γ : Type*} {key' : γ → κ} {g : α → γ} (hg : ∀ a, key' (g a) = key a)
    (f : κ → List γ → β) (l : List α) :
    groupOn key' f (l.map g) = groupOn key (fun k rows => f k (rows.map g)) l := by
  unfold groupOn
  rw [groupKeys_map key hg]
  exact List.map_congr_left fun k _ => congrArg (f k) (part_of_map key hg k l)

end Group

/-! ## Walking with a table -/

section Walk

variable [DecidableEq κ] (key : α → κ) (seen : α → σ) (out : α → σ → β)

/-- Read the rows in order; `seen` is what the table keeps of a row under its key. -/
def walk : (κ → σ) → List α → List β
  | _, [] => []
  | table, a :: l => out a (table (key a)) :: walk (Function.update table (key a) (seen a)) l

/-- The table behind the rows. -/
def walkTable : (κ → σ) → List α → κ → σ
  | table, [] => table
  | table, a :: l => walkTable (Function.update table (key a) (seen a)) l

theorem walk_cons (table : κ → σ) (a : α) (l : List α) : walk key seen out table (a :: l) =
    out a (table (key a)) :: walk key seen out (Function.update table (key a) (seen a)) l := rfl

theorem walkTable_nil (table : κ → σ) : walkTable key seen table [] = table := rfl

theorem walkTable_cons (table : κ → σ) (a : α) (l : List α) :
    walkTable key seen table (a :: l) = walkTable key seen (Function.update table (key a) (seen a)) l := rfl

theorem walk_append (l l' : List α) : ∀ table,
    walk key seen out table (l ++ l') = walk key seen out table l
      ++ walk key seen out (walkTable key seen table l) l' := by
  induction l with
  | nil => intro table; rfl
  | cons a l ih =>
      intro table
      rw [List.cons_append, walk_cons, walk_cons, walkTable_cons, ih, List.cons_append]

theorem walkTable_append (l l' : List α) : ∀ table,
    walkTable key seen table (l ++ l')
      = walkTable key seen (walkTable key seen table l) l' := by
  induction l with
  | nil => intro table; rfl
  | cons a l ih => intro table; exact ih _

/-- Rows of other keys do not change what the table holds of a key. -/
theorem walkTable_apply (k : κ) (l : List α) : ∀ table table' : κ → σ, table k = table' k →
    walkTable key seen table l k = walkTable key seen table' (part key k l) k := by
  induction l with
  | nil => intro table table' h; exact h
  | cons a l ih =>
      intro table table' h
      rw [walkTable_cons]
      by_cases hk : key a = k
      · subst hk
        rw [part_cons_self, walkTable_cons]
        refine ih _ _ ?_
        rw [Function.update_self, Function.update_self]
      · rw [part_cons_of_ne key l hk]
        refine ih _ _ ?_
        rw [Function.update_of_ne (Ne.symm hk), h]

/-- The results of one key depend on the rows of that key alone. -/
theorem part_walk {outKey : β → κ} (hout : ∀ a s, outKey (out a s) = key a) (k : κ) (l : List α) :
    ∀ table table' : κ → σ, table k = table' k →
      part outKey k (walk key seen out table l) = walk key seen out table' (part key k l) := by
  induction l with
  | nil => intro table table' _; rfl
  | cons a l ih =>
      intro table table' h
      rw [walk_cons]
      by_cases hk : key a = k
      · have hhead : outKey (out a (table (key a))) = k := by rw [hout, hk]
        rw [part, List.filter_cons_of_pos (by simpa using hhead), ← part]
        subst hk
        rw [part_cons_self, walk_cons, h]
        congr 1
        refine ih _ _ ?_
        rw [Function.update_self, Function.update_self]
      · have hhead : outKey (out a (table (key a))) ≠ k := by rw [hout]; exact hk
        rw [part_cons_of_ne outKey _ hhead, part_cons_of_ne key l hk]
        refine ih _ _ ?_
        rw [Function.update_of_ne (Ne.symm hk), h]

/-- What does not depend on the table is read off the rows. -/
theorem map_walk {γ : Type*} {g : β → γ} {h : α → γ} (hg : ∀ a s, g (out a s) = h a) (l : List α) :
    ∀ table, (walk key seen out table l).map g = l.map h := by
  induction l with
  | nil => intro table; rfl
  | cons a l ih =>
      intro table
      rw [walk_cons, List.map_cons, List.map_cons, hg, ih]

/-- Mapping the results. -/
theorem walk_map {γ : Type*} (g : β → γ) (l : List α) :
    ∀ table, (walk key seen out table l).map g = walk key seen (fun a s => g (out a s)) table l := by
  induction l with
  | nil => intro table; rfl
  | cons a l ih =>
      intro table
      rw [walk_cons, walk_cons, List.map_cons, ih]

/-- Walking over mapped rows. -/
theorem walk_of_map {ι : Type*} (f : ι → α) (l : List ι) :
    ∀ table, walk key seen out table (l.map f) = walk (key ∘ f) (seen ∘ f) (out ∘ f) table l := by
  induction l with
  | nil => intro table; rfl
  | cons a l ih =>
      intro table
      rw [List.map_cons, walk_cons, walk_cons, ih]
      rfl

theorem walkTable_of_map {ι : Type*} (f : ι → α) (l : List ι) :
    ∀ table, walkTable key seen table (l.map f) = walkTable (key ∘ f) (seen ∘ f) table l := by
  induction l with
  | nil => intro table; rfl
  | cons a l ih =>
      intro table
      rw [List.map_cons, walkTable_cons, walkTable_cons, ih]
      rfl

/-- **Two walks side by side**: tables that stay related and rows that come out the same. -/
theorem walk_eq_walk {σ' : Type*} {key' : α → κ} {seen' : α → σ'} {out' : α → σ' → β}
    (R : κ → σ → σ' → Prop) (hkey : ∀ a, key' a = key a) (hseen : ∀ a, R (key a) (seen a) (seen' a))
    (hout : ∀ a s s', R (key a) s s' → out a s = out' a s') (l : List α) :
    ∀ (table : κ → σ) (table' : κ → σ'), (∀ k, R k (table k) (table' k)) →
      walk key seen out table l = walk key' seen' out' table' l := by
  induction l with
  | nil => intro table table' _; rfl
  | cons a l ih =>
      intro table table' h
      rw [walk_cons, walk_cons, hkey, hout a _ _ (h (key a))]
      congr 1
      refine ih _ _ fun k => ?_
      by_cases hk : k = key a
      · subst hk
        rw [Function.update_self, Function.update_self]
        exact hseen a
      · rw [Function.update_of_ne hk, Function.update_of_ne hk]
        exact h k

/-- A key may be replaced by another one that tells the same rows apart. -/
theorem walk_key_congr {ι : Type*} [DecidableEq ι] {key' : α → ι} {l : List α} :
    (∀ a ∈ l, ∀ b ∈ l, key a = key b ↔ key' a = key' b) → ∀ (table : κ → σ) (table' : ι → σ),
      (∀ a ∈ l, table (key a) = table' (key' a)) →
      walk key seen out table l = walk key' seen out table' l := by
  induction l with
  | nil => intro _ table table' _; rfl
  | cons a l ih =>
      intro hsame table table' h
      rw [walk_cons, walk_cons, h a List.mem_cons_self]
      congr 1
      refine ih (fun b hb c hc => hsame b (List.mem_cons_of_mem a hb) c (List.mem_cons_of_mem a hc)) _ _
        fun b hb => ?_
      have hb' := List.mem_cons_of_mem a hb
      by_cases hk : key b = key a
      · have hk' : key' b = key' a := (hsame b hb' a List.mem_cons_self).mp hk
        rw [hk, hk', Function.update_self, Function.update_self]
      · have hk' : key' b ≠ key' a := fun h' => hk ((hsame b hb' a List.mem_cons_self).mpr h')
        rw [Function.update_of_ne hk, Function.update_of_ne hk', h b hb']

theorem mem_walk {b : β} (l : List α) : ∀ table, b ∈ walk key seen out table l →
    ∃ a ∈ l, ∃ s, b = out a s := by
  induction l with
  | nil => intro table hb; cases hb
  | cons a l ih =>
      intro table hb
      rw [walk_cons] at hb
      rcases List.mem_cons.mp hb with rfl | hb
      · exact ⟨a, List.mem_cons_self, _, rfl⟩
      · obtain ⟨c, hc, s, hs⟩ := ih _ hb
        exact ⟨c, List.mem_cons_of_mem a hc, s, hs⟩

/-- The results stand in the order of the rows. -/
theorem sortedOn_walk {ι : Type*} [LinearOrder ι] {rowKey : α → ι} {outKey : β → ι}
    (hout : ∀ a s, outKey (out a s) = rowKey a) {l : List α} (h : SortedOn rowKey l) :
    ∀ table, SortedOn outKey (walk key seen out table l) := by
  induction l with
  | nil => intro table; exact List.Pairwise.nil
  | cons a l ih =>
      intro table
      obtain ⟨ha, hl⟩ := List.pairwise_cons.mp h
      refine List.Pairwise.cons ?_ (ih hl _)
      intro b hb
      obtain ⟨c, hc, s, rfl⟩ := mem_walk key seen out l _ hb
      rw [hout, hout]
      exact ha c hc

/-- What the table holds of a row's key when the row is read, row by row. -/
def held (table : κ → σ) (l : List α) : List (α × σ) :=
  walk key seen Prod.mk table l

theorem walk_eq_map_held (l : List α) (table : κ → σ) :
    walk key seen out table l = (held key seen table l).map fun p => out p.1 p.2 :=
  (walk_map key seen Prod.mk (fun p => out p.1 p.2) l table).symm

/-- What a row meets is the table it started with, or another row of the list. -/
theorem mem_held {p : α × σ} (l : List α) : ∀ table : κ → σ, p ∈ held key seen table l →
    p.1 ∈ l ∧ (p.2 = table (key p.1) ∨ ∃ b ∈ l, p.2 = seen b) := by
  induction l with
  | nil => intro table hp; cases hp
  | cons a l ih =>
      intro table hp
      unfold held at hp
      rw [walk_cons] at hp
      rcases List.mem_cons.mp hp with rfl | hp
      · exact ⟨List.mem_cons_self, Or.inl rfl⟩
      · obtain ⟨hmem, htable | ⟨b, hb, hseen⟩⟩ := ih _ hp
        · refine ⟨List.mem_cons_of_mem a hmem, ?_⟩
          by_cases hk : key p.1 = key a
          · rw [hk, Function.update_self] at htable
            exact Or.inr ⟨a, List.mem_cons_self, htable⟩
          · rw [Function.update_of_ne hk] at htable
            exact Or.inl htable
        · exact ⟨List.mem_cons_of_mem a hmem, Or.inr ⟨b, List.mem_cons_of_mem a hb, hseen⟩⟩

/-- Each row with what was seen of the row before it. -/
def consecutive : σ → List α → List (α × σ)
  | _, [] => []
  | s, a :: l => (a, s) :: consecutive (seen a) l

theorem held_of_one_key {k : κ} (l : List α) : ∀ table : κ → σ, (∀ a ∈ l, key a = k) →
    held key seen table l = consecutive seen (table k) l := by
  induction l with
  | nil => intro table _; rfl
  | cons a l ih =>
      intro table hkey
      have ha : key a = k := hkey a List.mem_cons_self
      have hrest := ih (Function.update table k (seen a)) fun b hb => hkey b (List.mem_cons_of_mem a hb)
      rw [Function.update_self] at hrest
      unfold held at hrest ⊢
      rw [walk_cons, consecutive, ha, hrest]

/-- A row meets the row before it in its series. -/
theorem mem_consecutive_of_held {p : α × σ} {l : List α} {table : κ → σ} (hp : p ∈ held key seen table l) :
    p ∈ consecutive seen (table (key p.1)) (part key (key p.1) l) := by
  have hpart : p ∈ part (fun q : α × σ => key q.1) (key p.1) (held key seen table l) :=
    (mem_part fun q : α × σ => key q.1).mpr ⟨hp, rfl⟩
  unfold held at hpart
  rw [part_walk key seen Prod.mk (fun _ _ => rfl) (key p.1) l table table rfl] at hpart
  rw [← held_of_one_key key seen _ table fun a ha => ((mem_part key).mp ha).2]
  exact hpart

/-- Two tables may be walked with at once. -/
theorem held_prod {σ' : Type*} (seen' : α → σ') (l : List α) : ∀ (table : κ → σ) (table' : κ → σ'),
    (held key (fun a => (seen a, seen' a)) (fun k => (table k, table' k)) l).map (fun p => (p.1, p.2.1))
        = held key seen table l ∧
      (held key (fun a => (seen a, seen' a)) (fun k => (table k, table' k)) l).map (fun p => (p.1, p.2.2))
        = held key seen' table' l := by
  have hupdate : ∀ (a : α) (table : κ → σ) (table' : κ → σ'),
      Function.update (fun k => (table k, table' k)) (key a) (seen a, seen' a)
        = fun k => (Function.update table (key a) (seen a) k, Function.update table' (key a) (seen' a) k) := by
    intro a table table'
    funext k
    by_cases hk : k = key a
    · subst hk
      rw [Function.update_self, Function.update_self, Function.update_self]
    · rw [Function.update_of_ne hk, Function.update_of_ne hk, Function.update_of_ne hk]
  induction l with
  | nil => exact fun _ _ => ⟨rfl, rfl⟩
  | cons a l ih =>
      intro table table'
      obtain ⟨hleft, hright⟩ := ih (Function.update table (key a) (seen a)) (Function.update table' (key a) (seen' a))
      unfold held at hleft hright ⊢
      rw [walk_cons, walk_cons, walk_cons, hupdate, List.map_cons, List.map_cons, hleft, hright]
      exact ⟨rfl, rfl⟩

/-- The last row of a series stays in the table. -/
theorem walkTable_of_one_key {k : κ} (l : List α) : ∀ table : κ → σ, (∀ a ∈ l, key a = k) →
    walkTable key seen table l k = (l.getLast?.map seen).getD (table k) := by
  induction l with
  | nil => intro table _; rfl
  | cons a l ih =>
      intro table hkey
      have hrest := ih (Function.update table (key a) (seen a)) fun b hb => hkey b (List.mem_cons_of_mem a hb)
      rw [walkTable_cons, hrest, List.getLast?_cons, ← hkey a List.mem_cons_self, Function.update_self]
      cases l.getLast? <;> rfl

end Walk

/-! ## Cutting a table in two -/

section Cut

variable [LinearOrder κ] [LinearOrder τ] (key : α → κ) (time : α → τ)

/-- The order of the rows: by key, then by time. -/
def rank (a : α) : κ ×ₗ τ :=
  toLex (key a, time a)

/-- No key goes back in time from the first table to the second. -/
def Before (l l' : List α) : Prop :=
  ∀ a ∈ l, ∀ b ∈ l', key a = key b → time a ≤ time b

variable {key time} {l l' : List α}

/-- Sorting the two tables one after the other gives, key by key, the sorted whole. -/
theorem part_sortOn_append (h : Before key time l l') (k : κ) :
    part key k (sortOn (rank key time) (l ++ l'))
      = part key k (sortOn (rank key time) l) ++ part key k (sortOn (rank key time) l') := by
  apply eq_of_part (rank key time)
  · exact (sortedOn_sortOn _ _).part _ k
  · refine List.pairwise_append.mpr ⟨(sortedOn_sortOn _ _).part _ k,
      (sortedOn_sortOn _ _).part _ k, ?_⟩
    intro a ha b hb
    rw [mem_part, mem_sortOn] at ha hb
    refine Prod.Lex.toLex_le_toLex.mpr (Or.inr ⟨ha.2.trans hb.2.symm, ?_⟩)
    exact h a ha.1 b hb.1 (ha.2.trans hb.2.symm)
  · intro r
    by_cases hk : (ofLex r).1 = k
    · have hfine : ∀ a : α, rank key time a = r → key a = k := by
        rintro a rfl
        exact hk
      rw [part_append, part_part key _ _ hfine, part_part key _ _ hfine, part_part key _ _ hfine,
        part_sortOn, part_sortOn, part_sortOn, part_append]
    · have hno : ∀ m : List α, part (rank key time) r (part key k m) = [] := by
        intro m
        apply part_eq_nil
        rintro a ha rfl
        exact hk ((mem_part _).mp ha).2
      rw [part_append, hno, hno, hno]
      rfl

variable (seen : α → σ) (out : α → σ → β)

/-- **Cutting a walk.** -/
theorem part_walk_append {outKey : β → κ} (hout : ∀ a s, outKey (out a s) = key a)
    (h : Before key time l l') (table : κ → σ) (k : κ) :
    part outKey k (walk key seen out table (sortOn (rank key time) (l ++ l')))
      = part outKey k (walk key seen out table (sortOn (rank key time) l)
          ++ walk key seen out (walkTable key seen table (sortOn (rank key time) l))
              (sortOn (rank key time) l')) := by
  rw [part_append, part_walk key seen out hout k _ table table rfl,
    part_walk key seen out hout k _ table table rfl, part_sortOn_append h, walk_append]
  congr 1
  rw [part_walk key seen out hout k _ _ _ (walkTable_apply key seen k _ table table rfl)]

theorem walkTable_sortOn_append (h : Before key time l l') (table : κ → σ) :
    walkTable key seen table (sortOn (rank key time) (l ++ l'))
      = walkTable key seen (walkTable key seen table (sortOn (rank key time) l))
          (sortOn (rank key time) l') := by
  funext k
  rw [walkTable_apply key seen k _ table table rfl, part_sortOn_append h, walkTable_append,
    walkTable_apply key seen k (sortOn (rank key time) l') _ _
      (walkTable_apply key seen k _ table table rfl)]

end Cut

/-! ## One key at one time -/

section AtTime

variable [LinearOrder κ] [LinearOrder τ] {key : α → κ} {time : α → τ} {l : List α}

theorem part_rank (k : κ) (t : τ) (l : List α) :
    part (rank key time) (toLex (k, t)) l = part time t (part key k l) := by
  rw [part, part, part, List.filter_filter]
  refine List.filter_congr fun a _ => ?_
  rw [← Bool.decide_and]
  refine decide_eq_decide.mpr ?_
  rw [rank, toLex_inj, Prod.mk.injEq]
  exact and_comm

/-- The rows of one key are sorted by time. -/
theorem sortedOn_time_part (h : SortedOn (rank key time) l) (k : κ) :
    SortedOn time (part key k l) := by
  refine List.Pairwise.imp_of_mem ?_ (SortedOn.part (rank key time) h k)
  intro a b ha hb hab
  rcases Prod.Lex.toLex_le_toLex.mp hab with hlt | ⟨-, hle⟩
  · rw [mem_part] at ha hb
    exact absurd (ha.2.trans hb.2.symm) (ne_of_lt hlt)
  · exact hle

/-- Rows that are sorted by a key and time are, under any key that tells the same rows apart, the rows
of that key in time order. -/
theorem part_sortOn_rank {ι : Type*} [DecidableEq ι] {other : α → ι}
    (h : ∀ a ∈ l, ∀ b ∈ l, key a = key b ↔ other a = other b) (i : ι) :
    part other i (sortOn (rank key time) l) = part other i (sortOn time l) := by
  refine eq_of_part time ?_ (SortedOn.part time (sortedOn_sortOn time l) i) fun t => ?_
  · refine List.Pairwise.imp_of_mem ?_ (SortedOn.part (rank key time) (sortedOn_sortOn (rank key time) l) i)
    intro a b ha hb hab
    obtain ⟨ha, hai⟩ := (mem_part other).mp ha
    obtain ⟨hb, hbi⟩ := (mem_part other).mp hb
    have hkey : key a = key b :=
      (h a ((mem_sortOn _).mp ha) b ((mem_sortOn _).mp hb)).mpr (hai.trans hbi.symm)
    rcases Prod.Lex.toLex_le_toLex.mp hab with hlt | ⟨-, hle⟩
    · exact absurd hkey (ne_of_lt hlt)
    · exact hle
  · have hcomm : ∀ m : List α, part time t (part other i m) = part other i (part time t m) := by
      intro m
      rw [part, part, part, part, List.filter_comm]
    by_cases hex : ∃ a ∈ l, other a = i
    · obtain ⟨a, ha, rfl⟩ := hex
      -- the rows of one key and time, in both orders
      have hpart : ∀ m : List α, (∀ b ∈ m, b ∈ l) →
          part time t (part other (other a) m) = part (rank key time) (toLex (key a, t)) m := by
        intro m hm
        rw [part_rank]
        congr 1
        refine List.filter_congr fun b hb => decide_eq_decide.mpr ?_
        exact (h b (hm b hb) a ha).symm
      rw [hpart _ fun b hb => (mem_sortOn _).mp hb, part_sortOn, ← hpart l fun b hb => hb, hcomm, hcomm,
        part_sortOn]
    · have hnone : ∀ m : List α, (∀ b ∈ m, b ∈ l) → part other i m = [] :=
        fun m hm => part_eq_nil other fun b hb hbi => hex ⟨b, hm b hb, hbi⟩
      rw [hnone _ fun b hb => (mem_sortOn _).mp hb, hnone _ fun b hb => (mem_sortOn _).mp hb]

/-- A sorted table, split at a time. -/
theorem split_at_time (h : SortedOn time l) (t : τ) :
    l = l.filter (fun a => time a < t) ++ (part time t l ++ l.filter fun a => t < time a) := by
  have hsub : ∀ p : α → Bool, SortedOn time (l.filter p) :=
    fun p => List.Pairwise.sublist List.filter_sublist h
  apply eq_of_part time h
  · refine List.pairwise_append.mpr ⟨hsub _, List.pairwise_append.mpr ⟨hsub _, hsub _, ?_⟩, ?_⟩
    · intro a ha b hb
      rw [mem_part] at ha
      rw [List.mem_filter, decide_eq_true_eq] at hb
      rw [ha.2]
      exact hb.2.le
    · intro a ha b hb
      rw [List.mem_filter, decide_eq_true_eq] at ha
      rw [List.mem_append, mem_part, List.mem_filter, decide_eq_true_eq] at hb
      rcases hb with hb | hb
      · rw [hb.2]
        exact ha.2.le
      · exact (ha.2.trans hb.2).le
  · intro u
    have hfilter : ∀ p : α → Bool, part time u (l.filter p) = (part time u l).filter p := by
      intro p
      rw [part, part, List.filter_filter, List.filter_filter]
      exact List.filter_congr fun a _ => Bool.and_comm _ _
    have hconst : ∀ p : α → Bool, (∀ a, time a = u → p a = false) → (part time u l).filter p = [] := by
      intro p hp
      rw [List.filter_eq_nil_iff]
      intro a ha
      rw [hp a ((mem_part _).mp ha).2]
      exact Bool.false_ne_true
    have hself : ∀ p : α → Bool, (∀ a, time a = u → p a = true) →
        (part time u l).filter p = part time u l := by
      intro p hp
      rw [List.filter_eq_self]
      intro a ha
      exact hp a ((mem_part _).mp ha).2
    rw [part_append, part_append, hfilter, hfilter]
    rcases lt_trichotomy u t with hut | rfl | htu
    · rw [hself _ (by rintro a rfl; simpa using hut),
        hconst _ (by rintro a rfl; simpa using hut.le),
        part_eq_nil time (l := part time t l) (fun a ha => by
          rw [((mem_part _).mp ha).2]; exact hut.ne')]
      simp
    · rw [hconst _ (by rintro a rfl; simp), hconst _ (by rintro a rfl; simp),
        part_eq_self time (l := part time u l) (fun a ha => ((mem_part _).mp ha).2)]
      simp
    · rw [hconst _ (by rintro a rfl; simpa using htu.le),
        hself _ (by rintro a rfl; simpa using htu),
        part_eq_nil time (l := part time t l) (fun a ha => by
          rw [((mem_part _).mp ha).2]; exact htu.ne)]
      simp

variable (seen : α → σ) (out : α → σ → β)

/-- The results of one time in a sorted table. -/
theorem part_time_walk {outTime : β → τ} (hout : ∀ a s, outTime (out a s) = time a)
    (h : SortedOn time l) (t : τ) (table : κ → σ) :
    part outTime t (walk key seen out table l)
      = walk key seen out (walkTable key seen table (l.filter fun a => time a < t))
          (part time t l) := by
  have hmem : ∀ (m : List α) (tbl : κ → σ), (∀ a ∈ m, time a ≠ t) →
      part outTime t (walk key seen out tbl m) = [] := by
    intro m tbl hm
    apply part_eq_nil
    intro b hb
    obtain ⟨a, ha, s, rfl⟩ := mem_walk key seen out m tbl hb
    rw [hout]
    exact hm a ha
  have hall : ∀ (m : List α) (tbl : κ → σ), (∀ a ∈ m, time a = t) →
      part outTime t (walk key seen out tbl m) = walk key seen out tbl m := by
    intro m tbl hm
    apply part_eq_self
    intro b hb
    obtain ⟨a, ha, s, rfl⟩ := mem_walk key seen out m tbl hb
    rw [hout]
    exact hm a ha
  calc part outTime t (walk key seen out table l)
      = part outTime t (walk key seen out table
          (l.filter (fun a => time a < t) ++ (part time t l ++ l.filter fun a => t < time a))) := by
        rw [← split_at_time h t]
    _ = _ := by
        rw [walk_append, walk_append, part_append, part_append,
          hmem _ _ (fun a ha => by
            rw [List.mem_filter, decide_eq_true_eq] at ha
            exact ha.2.ne),
          hall _ _ (fun a ha => ((mem_part _).mp ha).2),
          hmem _ _ (fun a ha => by
            rw [List.mem_filter, decide_eq_true_eq] at ha
            exact ha.2.ne')]
        simp

/-- **One key at one time.**  The results depend on the rows of that key and time and on what
the table holds behind the earlier rows of the key. -/
theorem part_rank_walk {outKey : β → κ} {outTime : β → τ} (hkey : ∀ a s, outKey (out a s) = key a)
    (htime : ∀ a s, outTime (out a s) = time a) (h : SortedOn (rank key time) l) (k : κ) (t : τ)
    (table : κ → σ) :
    part (rank outKey outTime) (toLex (k, t)) (walk key seen out table l)
      = walk key seen out
          (walkTable key seen table ((part key k l).filter fun a => time a < t))
          (part (rank key time) (toLex (k, t)) l) := by
  rw [part_rank, part_rank, part_walk key seen out hkey k l table table rfl,
    part_time_walk seen out htime (sortedOn_time_part h k)]

/-- The results of one key at one time, from two tables of rows that agree there. -/
theorem part_rank_walk_congr {outKey : β → κ} {outTime : β → τ}
    (hkey : ∀ a s, outKey (out a s) = key a) (htime : ∀ a s, outTime (out a s) = time a)
    {l l' : List α} (h : SortedOn (rank key time) l) (h' : SortedOn (rank key time) l') {k : κ}
    {t : τ} {table : κ → σ}
    (hpart : part (rank key time) (toLex (k, t)) l = part (rank key time) (toLex (k, t)) l')
    (htable : walkTable key seen table ((part key k l).filter fun a => time a < t) k
      = walkTable key seen table ((part key k l').filter fun a => time a < t) k) :
    part (rank outKey outTime) (toLex (k, t)) (walk key seen out table l)
      = part (rank outKey outTime) (toLex (k, t)) (walk key seen out table l') := by
  rw [part_rank_walk seen out hkey htime h, part_rank_walk seen out hkey htime h', hpart]
  have hall : part key k (part (rank key time) (toLex (k, t)) l')
      = part (rank key time) (toLex (k, t)) l' := by
    apply part_eq_self
    intro a ha
    exact (Prod.mk.inj (toLex_inj.mp ((mem_part _).mp ha).2)).1
  have hwalk : ∀ tbl : κ → σ, part outKey k
      (walk key seen out tbl (part (rank key time) (toLex (k, t)) l'))
        = walk key seen out tbl (part (rank key time) (toLex (k, t)) l') := by
    intro tbl
    rw [part_walk key seen out hkey k _ tbl tbl rfl, hall]
  rw [← hwalk, part_walk key seen out hkey k _ _ _ htable, hall]

/-- Behind a row of a key the table does not depend on what it held before. -/
theorem walkTable_of_mem {k : κ} (l : List α) : ∀ table table' : κ → σ, (∃ a ∈ l, key a = k) →
    walkTable key seen table l k = walkTable key seen table' l k := by
  induction l with
  | nil => rintro table table' ⟨a, ha, -⟩; cases ha
  | cons a l ih =>
      rintro table table' ⟨b, hb, hk⟩
      rw [walkTable_cons, walkTable_cons]
      by_cases hrest : ∃ b ∈ l, key b = k
      · exact ih _ _ hrest
      · have hb : b = a := by
          rcases List.mem_cons.mp hb with rfl | hb
          · rfl
          · exact absurd ⟨b, hb, hk⟩ hrest
        subst hb
        have hnil : part key k l = [] := part_eq_nil key fun c hc hck => hrest ⟨c, hc, hck⟩
        rw [walkTable_apply key seen k l _ (fun _ => seen b) (by rw [← hk, Function.update_self]),
          walkTable_apply key seen k l (Function.update table' (key b) (seen b)) (fun _ => seen b)
            (by rw [← hk, Function.update_self])]

/-- The table holds what was seen of the last row. -/
theorem walkTable_last {k : κ} : ∀ {l : List α} (table : κ → σ), l ≠ [] → SortedOn time l →
    (∀ a ∈ l, key a = k) →
      ∃ m ∈ l, walkTable key seen table l k = seen m ∧ ∀ a ∈ l, time a ≤ time m := by
  intro l
  induction l with
  | nil => intro table hne; exact absurd rfl hne
  | cons a l ih =>
      intro table _ hsorted hkey
      obtain ⟨ha, hl⟩ := List.pairwise_cons.mp hsorted
      rw [walkTable_cons]
      by_cases hnil : l = []
      · subst hnil
        refine ⟨a, List.mem_cons_self, ?_, ?_⟩
        · rw [walkTable_nil, ← hkey a List.mem_cons_self, Function.update_self]
        · intro b hb
          rw [List.mem_singleton.mp hb]
      · obtain ⟨m, hm, hseen, hmax⟩ := ih (Function.update table (key a) (seen a)) hnil hl
          fun b hb => hkey b (List.mem_cons_of_mem a hb)
        refine ⟨m, List.mem_cons_of_mem a hm, hseen, ?_⟩
        intro b hb
        rcases List.mem_cons.mp hb with rfl | hb
        · exact ha m hm
        · exact hmax b hb

/-- The rows of the last time decide what a sorted table leaves behind. -/
theorem walkTable_latest (h : SortedOn time l) {u : τ} (hu : ∀ a ∈ l, time a ≤ u)
    (table : κ → σ) :
    walkTable key seen table l
      = walkTable key seen (walkTable key seen table (l.filter fun a => time a < u))
          (part time u l) := by
  have hnone : l.filter (fun a => u < time a) = [] := by
    rw [List.filter_eq_nil_iff]
    intro a ha
    simpa using hu a ha
  calc walkTable key seen table l
      = walkTable key seen table
          (l.filter (fun a => time a < u) ++ (part time u l ++ l.filter fun a => u < time a)) := by
        rw [← split_at_time h u]
    _ = _ := by rw [hnone, List.append_nil, walkTable_append]

/-- **Resuming.**  Rows in front may be left out when the rest has, for each of them, a row of
the key that is not older and still before the time. -/
theorem walkTable_resume {pre rest : List α} {k : κ} {t : τ}
    (h : ∀ a ∈ pre, key a = k → time a < t →
      ∃ c ∈ rest, key c = k ∧ time a ≤ time c ∧ time c < t) (table : κ → σ) :
    walkTable key seen table
        ((part key k (sortOn (rank key time) (pre ++ rest))).filter fun a => time a < t) k
      = walkTable key seen table
          ((part key k (sortOn (rank key time) rest)).filter fun a => time a < t) k := by
  have hsorted : ∀ l : List α,
      SortedOn time ((part key k (sortOn (rank key time) l)).filter fun a => time a < t) :=
    fun l => List.Pairwise.sublist List.filter_sublist
      (sortedOn_time_part (sortedOn_sortOn _ l) k)
  have hmem : ∀ (l : List α) (a : α),
      a ∈ (part key k (sortOn (rank key time) l)).filter (fun a => time a < t)
        ↔ (a ∈ l ∧ key a = k) ∧ time a < t := by
    intro l a
    rw [List.mem_filter, mem_part, mem_sortOn, decide_eq_true_eq]
  by_cases hnil : (part key k (sortOn (rank key time) rest)).filter (fun a => time a < t) = []
  · -- no row of the key before the time on either side
    have hnone : (part key k (sortOn (rank key time) (pre ++ rest))).filter (fun a => time a < t)
        = [] := by
      rw [List.eq_nil_iff_forall_not_mem] at hnil ⊢
      intro a ha
      obtain ⟨⟨ha, hk⟩, ht⟩ := (hmem _ a).mp ha
      rcases List.mem_append.mp ha with ha | ha
      · obtain ⟨c, hc, hck, -, hct⟩ := h a ha hk ht
        exact hnil c ((hmem _ c).mpr ⟨⟨hc, hck⟩, hct⟩)
      · exact hnil a ((hmem _ a).mpr ⟨⟨ha, hk⟩, ht⟩)
    rw [hnil, hnone]
  · -- the last row of the rest is the last of all
    obtain ⟨m, hm, -, hmax⟩ := walkTable_last (fun a : α => a)
      (fun _ => (List.exists_mem_of_ne_nil _ hnil).choose) hnil (hsorted rest)
      fun a ha => ((hmem _ a).mp ha).1.2
    have hmax' : ∀ a ∈ (part key k (sortOn (rank key time) (pre ++ rest))).filter
        (fun a => time a < t), time a ≤ time m := by
      intro a ha
      obtain ⟨⟨ha, hk⟩, ht⟩ := (hmem _ a).mp ha
      rcases List.mem_append.mp ha with ha | ha
      · obtain ⟨c, hc, hck, hac, hct⟩ := h a ha hk ht
        exact hac.trans (hmax c ((hmem _ c).mpr ⟨⟨hc, hck⟩, hct⟩))
      · exact hmax a ((hmem _ a).mpr ⟨⟨ha, hk⟩, ht⟩)
    have hmt : time m < t := ((hmem _ m).mp hm).2
    have hat : ∀ l : List α, part time (time m)
        ((part key k (sortOn (rank key time) l)).filter fun a => time a < t)
          = part (rank key time) (toLex (k, time m)) l := by
      intro l
      rw [← part_sortOn (rank key time) l, part_rank, part, part, List.filter_filter]
      refine List.filter_congr fun a _ => ?_
      by_cases ha : time a = time m
      · simp [ha, hmt]
      · simp [ha]
    rw [walkTable_latest seen (hsorted _) hmax', walkTable_latest seen (hsorted _) hmax, hat, hat,
      part_append, walkTable_append]
    apply walkTable_of_mem
    refine ⟨m, (mem_part _).mpr ⟨((hmem _ m).mp hm).1.1, ?_⟩, ((hmem _ m).mp hm).1.2⟩
    rw [rank, ((hmem _ m).mp hm).1.2]

end AtTime

end KeyedList
