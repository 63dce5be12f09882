/-
# Rows that are merged as they are read

A small library for a reader that makes at most one row of every element of its input and merges it at once
into the rows that it keeps, one for each key.  It names nothing of a particular system.

* `mergeOnline` merges a row into the one with its key, or appends it; `mergeAll` does so row by row;
* `mergedOf` is the merge of the rows of one key;
* `reads` are the rows that a machine with failures makes, in the order of its input;
* `mem_mergeAll` says which rows are kept, and `view_foldlM` that a reader keeps the merge of what it reads.
-/
import HpcPerfStats.KeyedList
import Mathlib.Data.List.Induction

namespace OnlineMerge

open KeyedList

/-! ## Merging by key -/

section Merge

variable {α κ : Type*} (key : α → κ) (merge : α → α → α)

/-- The merge of rows of one key. -/
def mergedOf (samples : List α) : Option α :=
  samples.foldl (fun acc s => some (acc.elim s fun e => merge e s)) none

theorem mergedOf_concat (l : List α) (s : α) :
    mergedOf merge (l ++ [s]) = some ((mergedOf merge l).elim s fun e => merge e s) :=
  List.foldl_concat ..

variable {key merge}

theorem mergedOf_ne_none {l : List α} (h : l ≠ []) : ∃ r, mergedOf merge l = some r := by
  rw [← List.dropLast_append_getLast h, mergedOf_concat]
  exact ⟨_, rfl⟩

/-- What all rows of a key have in common, their merge has. -/
theorem mergedOf_key (hkey : ∀ e s, key e = key s → key (merge e s) = key e) {k : κ} {l : List α} {r : α}
    (hl : ∀ a ∈ l, key a = k) (h : mergedOf merge l = some r) : key r = k := by
  induction l using List.reverseRecOn generalizing r with
  | nil => cases h
  | append_singleton l s ih =>
      rw [mergedOf_concat, Option.some.injEq] at h
      subst h
      have hs : key s = k := hl s (List.mem_append_right _ List.mem_cons_self)
      cases he : mergedOf merge l with
      | none => exact hs
      | some e =>
          have hek := ih (fun a ha => hl a (List.mem_append_left _ ha)) he
          exact (hkey e s (hek.trans hs.symm)).trans hek

/-- A value of the merge is the merge of the values. -/
theorem map_mergedOf {ν : Type*} (merge : α → α → α) (val : α → ν) (comb : ν → ν → ν) {l : List α}
    (h : ∀ e, ∀ s ∈ l, val (merge e s) = comb (val e) (val s)) :
    (mergedOf merge l).map val = mergedOf comb (l.map val) := by
  induction l using List.reverseRecOn with
  | nil => rfl
  | append_singleton l s ih =>
      have hl := ih fun e a ha => h e a (List.mem_append_left _ ha)
      rw [List.map_append, List.map_singleton, mergedOf_concat, mergedOf_concat, ← hl, Option.map_some]
      cases mergedOf merge l with
      | none => rfl
      | some e =>
          show some (val (merge e s)) = some (comb (val e) (val s))
          rw [h e s (List.mem_append_right _ List.mem_cons_self)]

/-- A merge that starts from a unit. -/
theorem foldl_eq_mergedOf {z : α} (hz : ∀ s, merge z s = s) (l : List α) :
    l.foldl merge z = (mergedOf merge l).getD z := by
  induction l using List.reverseRecOn with
  | nil => rfl
  | append_singleton l s ih =>
      rw [List.foldl_concat, mergedOf_concat, ih]
      cases mergedOf merge l with
      | none => exact hz s
      | some e => rfl

/-- The merge that keeps the first row. -/
theorem mergedOf_first (l : List α) : mergedOf (fun e _ => e) l = l.head? := by
  induction l using List.reverseRecOn with
  | nil => rfl
  | append_singleton l s ih =>
      rw [mergedOf_concat, ih]
      cases l with
      | nil => rfl
      | cons a l => rfl

variable [DecidableEq κ] (key merge)

/-- The row is merged into the one that has its key, or is appended. -/
def mergeOnline (row : α) : List α → List α
  | [] => [row]
  | r :: rest => if key r = key row then merge r row :: rest else r :: mergeOnline row rest

/-- One row after the other. -/
def mergeAll (samples : List α) : List α :=
  samples.foldl (fun rows s => mergeOnline key merge s rows) []

variable {key merge}

theorem find?_of_key {k : κ} {r : α} (h : key r = k) (l : List α) :
    (r :: l).find? (key · = k) = some r :=
  List.find?_cons_of_pos (decide_eq_true h)

theorem find?_of_key_ne {k : κ} {r : α} (h : key r ≠ k) (l : List α) :
    (r :: l).find? (key · = k) = l.find? (key · = k) :=
  List.find?_cons_of_neg (by simpa using h)

/-- The keys that are there: a new one is the last. -/
theorem map_key_mergeOnline (hkey : ∀ e s, key e = key s → key (merge e s) = key e) (row : α)
    (l : List α) :
    (mergeOnline key merge row l).map key =
      if key row ∈ l.map key then l.map key else l.map key ++ [key row] := by
  induction l with
  | nil => rfl
  | cons r rest ih =>
      rw [mergeOnline]
      by_cases hr : key r = key row
      · rw [if_pos hr, if_pos (by rw [← hr]; exact List.mem_cons_self), List.map_cons, List.map_cons,
          hkey r row hr]
      · rw [if_neg hr, List.map_cons, ih, List.map_cons]
        by_cases hmem : key row ∈ rest.map key
        · rw [if_pos hmem, if_pos (List.mem_cons_of_mem _ hmem)]
        · rw [if_neg hmem, if_neg]
          · rfl
          · intro h
            rcases List.mem_cons.mp h with h | h
            · exact hr h.symm
            · exact hmem h

/-- The row of a key after one more row. -/
theorem find?_mergeOnline (hkey : ∀ e s, key e = key s → key (merge e s) = key e) (row : α) (k : κ)
    (l : List α) :
    (mergeOnline key merge row l).find? (key · = k) =
      if key row = k then some ((l.find? (key · = k)).elim row fun e => merge e row)
      else l.find? (key · = k) := by
  induction l with
  | nil =>
      rw [mergeOnline]
      by_cases hk : key row = k
      · rw [if_pos hk, find?_of_key hk]
        rfl
      · rw [if_neg hk, find?_of_key_ne hk]
  | cons r rest ih =>
      rw [mergeOnline]
      by_cases hr : key r = key row
      · have hmerged : key (merge r row) = key row := (hkey r row hr).trans hr
        rw [if_pos hr]
        by_cases hk : key row = k
        · rw [if_pos hk, find?_of_key (hmerged.trans hk), find?_of_key (hr.trans hk)]
          rfl
        · rw [if_neg hk, find?_of_key_ne (hmerged ▸ hk), find?_of_key_ne (hr ▸ hk)]
      · rw [if_neg hr]
        by_cases hrk : key r = k
        · have hk : key row ≠ k := fun h => hr (hrk.trans h.symm)
          rw [if_neg hk, find?_of_key hrk, find?_of_key hrk]
        · rw [find?_of_key_ne hrk, find?_of_key_ne hrk, ih]

theorem nodup_mergeAll (hkey : ∀ e s, key e = key s → key (merge e s) = key e) (samples : List α) :
    ((mergeAll key merge samples).map key).Nodup := by
  induction samples using List.reverseRecOn with
  | nil => exact List.nodup_nil
  | append_singleton l s ih =>
      rw [mergeAll, List.foldl_concat, map_key_mergeOnline hkey]
      split_ifs with hmem
      · exact ih
      · exact List.nodup_append.mpr ⟨ih, List.nodup_singleton _,
          fun a ha b hb => by rintro rfl; exact hmem (List.mem_singleton.mp hb ▸ ha)⟩

/-- The row of a key is the merge of its rows. -/
theorem find?_mergeAll (hkey : ∀ e s, key e = key s → key (merge e s) = key e) (k : κ)
    (samples : List α) :
    (mergeAll key merge samples).find? (key · = k) = mergedOf merge (part key k samples) := by
  induction samples using List.reverseRecOn with
  | nil => rfl
  | append_singleton l s ih =>
      rw [mergeAll, List.foldl_concat, find?_mergeOnline hkey, part_append]
      by_cases hk : key s = k
      · subst hk
        rw [if_pos rfl, part_cons_self, part_nil, mergedOf_concat, ← ih, mergeAll]
      · rw [if_neg hk, part_cons_of_ne _ _ hk, part_nil, List.append_nil, ← ih, mergeAll]

/-- **The rows that are kept.**  A row is kept when it is the merge of the rows of its key. -/
theorem mem_mergeAll (hkey : ∀ e s, key e = key s → key (merge e s) = key e) {samples : List α} {r : α} :
    r ∈ mergeAll key merge samples ↔ mergedOf merge (part key (key r) samples) = some r := by
  rw [← find?_mergeAll hkey]
  constructor
  · intro hr
    have hone := part_eq_singleton key (nodup_mergeAll hkey samples) hr
    rw [← List.head?_filter]
    unfold part at hone
    rw [hone]
    rfl
  · exact List.mem_of_find?_eq_some

/-- The keys that are kept are those of the samples. -/
theorem exists_mergeAll_iff (hkey : ∀ e s, key e = key s → key (merge e s) = key e) {l : List α}
    {k : κ} : (∃ r ∈ mergeAll key merge l, key r = k) ↔ ∃ s ∈ l, key s = k := by
  constructor
  · rintro ⟨r, hr, rfl⟩
    rw [mem_mergeAll hkey] at hr
    have hne : part key (key r) l ≠ [] := by
      rintro h
      rw [h] at hr
      cases hr
    obtain ⟨s, hs⟩ := List.exists_mem_of_ne_nil _ hne
    exact ⟨s, ((mem_part key).mp hs).1, ((mem_part key).mp hs).2⟩
  · rintro ⟨s, hs, rfl⟩
    obtain ⟨r, hr⟩ : ∃ r, mergedOf merge (part key (key s) l) = some r :=
      mergedOf_ne_none (List.ne_nil_of_mem ((mem_part key).mpr ⟨hs, rfl⟩))
    have hrk := mergedOf_key hkey (fun a ha => ((mem_part key).mp ha).2) hr
    refine ⟨r, ?_, hrk⟩
    rw [mem_mergeAll hkey, hrk, hr]

theorem mergeOnline_congr {κ' : Type*} [DecidableEq κ'] {key' : α → κ'} {row : α} {l : List α}
    (h : ∀ r ∈ l, key r = key row ↔ key' r = key' row) :
    mergeOnline key merge row l = mergeOnline key' merge row l := by
  induction l with
  | nil => rfl
  | cons r rest ih =>
      obtain ⟨hr, hrest⟩ := List.forall_mem_cons.mp h
      rw [mergeOnline, mergeOnline, ih hrest]
      simp only [hr]

theorem forall_mergeOnline {Q : α → Prop} (hmerge : ∀ e s, Q e → Q s → Q (merge e s)) {row : α} (hrow : Q row)
    {l : List α} (hl : ∀ r ∈ l, Q r) : ∀ r ∈ mergeOnline key merge row l, Q r := by
  induction l with
  | nil =>
      intro r hr
      rw [List.mem_singleton.mp hr]
      exact hrow
  | cons r rest ih =>
      obtain ⟨hr, hrest⟩ := List.forall_mem_cons.mp hl
      rw [mergeOnline]
      split_ifs
      · exact List.forall_mem_cons.mpr ⟨hmerge r row hr hrow, hrest⟩
      · exact List.forall_mem_cons.mpr ⟨hr, ih hrest⟩

theorem forall_mergeAll {Q : α → Prop} (hmerge : ∀ e s, Q e → Q s → Q (merge e s)) {samples : List α}
    (h : ∀ s ∈ samples, Q s) : ∀ r ∈ mergeAll key merge samples, Q r := by
  induction samples using List.reverseRecOn with
  | nil => nofun
  | append_singleton l s ih =>
      rw [mergeAll, List.foldl_concat]
      exact forall_mergeOnline hmerge (h s (List.mem_append_right _ List.mem_cons_self))
        (ih fun a ha => h a (List.mem_append_left _ ha))

/-- Two keys that tell the same samples apart. -/
theorem mergeAll_congr {κ' : Type*} [DecidableEq κ'] {key' : α → κ'} {Q : α → Prop}
    (hkey : ∀ a b, Q a → Q b → (key a = key b ↔ key' a = key' b)) (hmerge : ∀ e s, Q e → Q s → Q (merge e s))
    {samples : List α} (h : ∀ s ∈ samples, Q s) :
    mergeAll key merge samples = mergeAll key' merge samples := by
  induction samples using List.reverseRecOn with
  | nil => rfl
  | append_singleton l s ih =>
      have hl : ∀ a ∈ l, Q a := fun a ha => h a (List.mem_append_left _ ha)
      have hs : Q s := h s (List.mem_append_right _ List.mem_cons_self)
      have hkept : ∀ r ∈ mergeAll key merge l, Q r := forall_mergeAll hmerge hl
      rw [mergeAll, mergeAll, List.foldl_concat, List.foldl_concat]
      show mergeOnline key merge s (mergeAll key merge l) = mergeOnline key' merge s (mergeAll key' merge l)
      rw [← ih hl]
      exact mergeOnline_congr fun r hr => hkey r s (hkept r hr) hs

end Merge

/-! ## Reading -/

section Read

variable {σ α β ε ν : Type*}

/-- What a machine makes of the elements of its input. -/
def reads (f : σ → α → Except ε σ) (out : σ → α → Option β) : σ → List α → Except ε (List β)
  | _, [] => .ok []
  | s, a :: as =>
      match f s a with
      | .error e => .error e
      | .ok s' => (reads f out s' as).map ((out s a).toList ++ ·)

variable {f : σ → α → Except ε σ} {out : σ → α → Option β}

theorem reads_cons_ok {s s' : σ} {a : α} (h : f s a = .ok s') (as : List α) :
    reads f out s (a :: as) = (reads f out s' as).map ((out s a).toList ++ ·) := by
  rw [reads, h]

theorem reads_cons_error {s : σ} {a : α} {e : ε} (h : f s a = .error e) (as : List α) :
    reads f out s (a :: as) = .error e := by
  rw [reads, h]

/-- **Keeping what is read.**  When every step puts what it makes to the part of the state in view, the part
in view has at the end what was read put to it. -/
theorem view_foldlM (view : σ → ν) (put : ν → β → ν)
    (hview : ∀ s s' a, f s a = .ok s' → view s' = (out s a).elim (view s) (put (view s))) (as : List α) :
    ∀ s, (as.foldlM f s).map view = (reads f out s as).map fun bs => bs.foldl put (view s) := by
  induction as with
  | nil => exact fun s => rfl
  | cons a as ih =>
      intro s
      rw [List.foldlM_cons]
      cases hf : f s a with
      | error e =>
          rw [reads_cons_error hf]
          rfl
      | ok s' =>
          show (as.foldlM f s').map view = _
          rw [ih s', hview s s' a hf, reads_cons_ok hf]
          cases reads f out s' as with
          | error e => rfl
          | ok bs =>
              show Except.ok _ = Except.ok (((out s a).toList ++ bs).foldl put (view s))
              rw [List.foldl_append]
              cases out s a with
              | none => rfl
              | some b => rfl

/-- What every step makes of a state of a kind, all that is read is. -/
theorem forall_reads {P : σ → Prop} {Q : β → Prop} {R : α → Prop}
    (hstep : ∀ s s' a, P s → R a → f s a = .ok s' → P s' ∧ ∀ b ∈ out s a, Q b) (as : List α) :
    ∀ {s bs}, P s → (∀ a ∈ as, R a) → reads f out s as = .ok bs → ∀ b ∈ bs, Q b := by
  induction as with
  | nil =>
      intro s bs _ _ h b hb
      obtain rfl := Except.ok.inj h
      cases hb
  | cons a as ih =>
      intro s bs hs hall h b hb
      obtain ⟨ha, has⟩ := List.forall_mem_cons.mp hall
      cases hf : f s a with
      | error e =>
          rw [reads_cons_error hf] at h
          cases h
      | ok s' =>
          obtain ⟨hs', hout⟩ := hstep s s' a hs ha hf
          rw [reads_cons_ok hf] at h
          cases hr : reads f out s' as with
          | error e =>
              rw [hr] at h
              cases h
          | ok rest =>
              rw [hr] at h
              obtain rfl := Except.ok.inj h
              rcases List.mem_append.mp hb with hb | hb
              · exact hout b (Option.mem_toList.mp hb)
              · exact ih hs' has hr b hb

end Read

end OnlineMerge
