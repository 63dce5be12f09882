/-
# Inserting rows under a unique constraint

A small library for batches that are inserted into a table with a unique key, a row whose key is there
being skipped (`ON CONFLICT DO NOTHING`).  It names nothing of a particular system.

* `insertRows key hasNull t rows`: the rows one after another; a key with a NULL equals no key
* `upsertRows key t rows`: the same, a row whose key is there being replaced
* `part_insertRows`: what the table then holds of one key, from which `perm_insertRows_iff` says when two
  batches leave the same rows
* `lastByKey key rows`: the batch with the last row of every key, in the order of the keys
* `lastOf cells rows`: the batch without the rows whose cells a later row repeats
-/
import HpcPerfStats.KeyedList
import HpcPerfStats.OrderedDict
import Mathlib.Data.List.Dedup
import Mathlib.Data.List.Induction

namespace UniqueInsert

open KeyedList

variable {ρ κ ι : Type*} [DecidableEq κ] [DecidableEq ι]

/-- Tables with the same rows of every key. -/
theorem perm_iff_part (key : ρ → κ) {t t' : List ρ} :
    t.Perm t' ↔ ∀ k, (part key k t).Perm (part key k t') := by
  classical
  constructor
  · exact fun h k => h.filter _
  · intro h
    rw [List.perm_iff_count]
    intro a
    have hcount : ∀ m : List ρ, m.count a = (part key (key a) m).count a := by
      intro m
      rw [part, List.count_filter (by simp)]
    rw [hcount t, hcount t']
    exact List.perm_iff_count.mp (h (key a)) a

section Insert

variable (key : ρ → κ) (hasNull : κ → Bool)

/-- A row is skipped when its key has no NULL and is there. -/
def insertRow (t : List ρ) (r : ρ) : List ρ :=
  if hasNull (key r) = false ∧ key r ∈ t.map key then t else t ++ [r]

def insertRows (t rows : List ρ) : List ρ := rows.foldl (insertRow key hasNull) t

/-- What one batch adds to a table that holds these rows of a key. -/
def added (k : κ) (held rows : List ρ) : List ρ :=
  if hasNull k = true then rows
  else if held = [] then rows.take 1
  else []

theorem part_eq_nil_iff {k : κ} {t : List ρ} : part key k t = [] ↔ k ∉ t.map key := by
  rw [part, List.filter_eq_nil_iff]
  constructor
  · intro h hk
    obtain ⟨a, ha, rfl⟩ := List.mem_map.mp hk
    exact h a ha (decide_eq_true rfl)
  · intro h a ha hk
    exact h (List.mem_map.mpr ⟨a, ha, of_decide_eq_true hk⟩)

theorem insertRow_of_mem {t : List ρ} {r : ρ} (hnull : hasNull (key r) = false) (hmem : key r ∈ t.map key) :
    insertRow key hasNull t r = t :=
  if_pos ⟨hnull, hmem⟩

theorem insertRow_of_notMem {t : List ρ} {r : ρ} (h : hasNull (key r) = false → key r ∉ t.map key) :
    insertRow key hasNull t r = t ++ [r] :=
  if_neg fun hc => h hc.1 hc.2

/-- A row plays no part for another key. -/
theorem part_insertRow_of_ne {t : List ρ} {r : ρ} {k : κ} (h : key r ≠ k) :
    part key k (insertRow key hasNull t r) = part key k t := by
  unfold insertRow
  split_ifs
  · rfl
  · rw [part_append, part_cons_of_ne key [] h, part_nil, List.append_nil]

/-- **What a batch leaves of one key**: with a NULL every row of it, otherwise the first one if none was
there. -/
theorem part_insertRows (k : κ) (rows : List ρ) : ∀ t : List ρ,
    part key k (insertRows key hasNull t rows) =
      part key k t ++ added hasNull k (part key k t) (part key k rows) := by
  induction rows with
  | nil =>
      intro t
      have hnone : added hasNull k (part key k t) (part key k ([] : List ρ)) = [] := by
        unfold added
        split_ifs <;> rfl
      rw [hnone, List.append_nil]
      rfl
  | cons r rows ih =>
      intro t
      show part key k (insertRows key hasNull (insertRow key hasNull t r) rows) = _
      rw [ih]
      by_cases hk : key r = k
      · subst hk
        rw [part_cons_self]
        by_cases hskip : hasNull (key r) = false ∧ key r ∈ t.map key
        · -- the key is there, before and after
          have hheld : part key (key r) t ≠ [] := fun hnil => (part_eq_nil_iff key).mp hnil hskip.2
          rw [insertRow_of_mem key hasNull hskip.1 hskip.2]
          unfold added
          rw [if_neg (by rw [hskip.1]; exact Bool.false_ne_true), if_neg hheld,
            if_neg (by rw [hskip.1]; exact Bool.false_ne_true), if_neg hheld]
        · rw [insertRow_of_notMem key hasNull fun hnull hmem => hskip ⟨hnull, hmem⟩, part_append,
            part_cons_self, part_nil, List.append_assoc]
          congr 1
          unfold added
          by_cases hnull : hasNull (key r) = true
          · rw [if_pos hnull, if_pos hnull]
            rfl
          · have hfree : part key (key r) t = [] :=
              (part_eq_nil_iff key).mpr fun hmem => hskip ⟨Bool.eq_false_iff.mpr hnull, hmem⟩
            rw [if_neg hnull, if_neg hnull, hfree, List.nil_append, if_neg (List.cons_ne_nil r []), if_pos rfl]
            rfl
      · rw [part_insertRow_of_ne key hasNull hk, part_cons_of_ne key rows hk]

theorem perm_toList_iff {o o' : Option ρ} : o.toList.Perm o'.toList ↔ o = o' := by
  constructor
  · intro h
    cases o with
    | none =>
        cases o' with
        | none => rfl
        | some r => exact absurd h.length_eq (by simp)
    | some r =>
        cases o' with
        | none => exact absurd h.length_eq (by simp)
        | some r' => rw [List.singleton_inj.mp (List.singleton_perm.mp h)]
  · rintro rfl
    exact List.Perm.refl _

/-- **When two batches leave the same rows**: they have the same rows of every key with a NULL, and the same
first row of every other key that the table has not. -/
theorem perm_insertRows_iff (t rows rows' : List ρ) :
    (insertRows key hasNull t rows).Perm (insertRows key hasNull t rows') ↔ ∀ k,
      (hasNull k = true → (part key k rows).Perm (part key k rows')) ∧
        (hasNull k = false → k ∉ t.map key → (part key k rows).head? = (part key k rows').head?) := by
  rw [perm_iff_part key]
  refine forall_congr' fun k => ?_
  rw [part_insertRows, part_insertRows, List.perm_append_left_iff]
  unfold added
  by_cases hnull : hasNull k = true
  · rw [if_pos hnull, if_pos hnull]
    exact ⟨fun h => ⟨fun _ => h, fun hf => absurd hf (by rw [hnull]; exact Bool.noConfusion)⟩, fun h => h.1 hnull⟩
  · rw [if_neg hnull, if_neg hnull]
    by_cases hheld : part key k t = []
    · have hfree := (part_eq_nil_iff key).mp hheld
      rw [if_pos hheld, if_pos hheld, List.take_one, List.take_one, perm_toList_iff]
      constructor
      · exact fun h => ⟨fun ht => absurd ht hnull, fun _ _ => h⟩
      · exact fun h => h.2 (Bool.eq_false_iff.mpr hnull) hfree
    · -- the key is there, so that neither batch adds a row of it
      rw [if_neg hheld, if_neg hheld]
      refine ⟨fun _ => ⟨fun ht => absurd ht hnull, fun _ hfree => ?_⟩, fun _ => List.Perm.refl _⟩
      exact absurd ((part_eq_nil_iff key).mpr hfree) hheld

end Insert

/-! ## A key that is never NULL -/

section Primary

variable (key : ρ → κ)

/-- What is inserted comes behind the table. -/
theorem insertRows_eq_append (hasNull : κ → Bool) (rows : List ρ) : ∀ t : List ρ,
    ∃ news, news.Sublist rows ∧ insertRows key hasNull t rows = t ++ news := by
  induction rows with
  | nil => exact fun t => ⟨[], List.Sublist.refl [], (List.append_nil t).symm⟩
  | cons r rows ih =>
      intro t
      obtain ⟨news, hsub, heq⟩ := ih (insertRow key hasNull t r)
      have hrun : insertRows key hasNull t (r :: rows) = insertRow key hasNull t r ++ news := heq
      rw [hrun]
      unfold insertRow
      split_ifs
      · exact ⟨news, hsub.cons r, rfl⟩
      · exact ⟨r :: news, hsub.cons_cons r, by rw [List.append_assoc, List.singleton_append]⟩

theorem nodup_insertRow {t : List ρ} (h : (t.map key).Nodup) (r : ρ) :
    ((insertRow key (fun _ => false) t r).map key).Nodup := by
  unfold insertRow
  split_ifs with hskip
  · exact h
  · rw [List.map_append, List.nodup_append]
    refine ⟨h, List.nodup_singleton _, ?_⟩
    rintro a ha b hb rfl
    exact hskip ⟨rfl, List.mem_singleton.mp hb ▸ ha⟩

theorem nodup_insertRows {t : List ρ} (h : (t.map key).Nodup) (rows : List ρ) :
    ((insertRows key (fun _ => false) t rows).map key).Nodup := by
  induction rows generalizing t with
  | nil => exact h
  | cons r rows ih => exact ih (nodup_insertRow key h r)

/-- Replace the row of a key, or add it. -/
def upsertRow (t : List ρ) (r : ρ) : List ρ :=
  if key r ∈ t.map key then t.map fun q => if key q = key r then r else q else t ++ [r]

def upsertRows (t rows : List ρ) : List ρ := rows.foldl (upsertRow key) t

theorem map_key_upsertRow (t : List ρ) (r : ρ) :
    (upsertRow key t r).map key = if key r ∈ t.map key then t.map key else t.map key ++ [key r] := by
  unfold upsertRow
  split_ifs
  · rw [List.map_map]
    refine List.map_congr_left fun q _ => ?_
    rw [Function.comp_apply]
    split_ifs with hq
    · exact hq.symm
    · rfl
  · rw [List.map_append]
    rfl

theorem nodup_upsertRow {t : List ρ} (h : (t.map key).Nodup) (r : ρ) : ((upsertRow key t r).map key).Nodup := by
  rw [map_key_upsertRow]
  split_ifs with hmem
  · exact h
  · rw [List.nodup_append]
    refine ⟨h, List.nodup_singleton _, ?_⟩
    rintro a ha b hb rfl
    exact hmem (List.mem_singleton.mp hb ▸ ha)

theorem part_upsertRow_of_ne {t : List ρ} {r : ρ} {k : κ} (h : key r ≠ k) :
    part key k (upsertRow key t r) = part key k t := by
  unfold upsertRow
  split_ifs with hmem
  · clear hmem
    induction t with
    | nil => rfl
    | cons q t ih =>
        rw [List.map_cons]
        by_cases hq : key q = key r
        · rw [if_pos hq, part_cons_of_ne key _ h, part_cons_of_ne key _ (hq ▸ h)]
          exact ih
        · rw [if_neg hq]
          by_cases hk : key q = k
          · subst hk
            rw [part_cons_self, part_cons_self]
            exact congrArg _ ih
          · rw [part_cons_of_ne key _ hk, part_cons_of_ne key _ hk]
            exact ih
  · rw [part_append, part_cons_of_ne key [] h, part_nil, List.append_nil]

theorem mem_upsertRow_self (t : List ρ) (r : ρ) : r ∈ upsertRow key t r := by
  unfold upsertRow
  split_ifs with hmem
  · obtain ⟨q, hq, hkey⟩ := List.mem_map.mp hmem
    exact List.mem_map.mpr ⟨q, hq, if_pos hkey⟩
  · exact List.mem_append.mpr (Or.inr (List.mem_singleton.mpr rfl))

/-- **What an upsert leaves of one key**: the last row of it, or what was there. -/
theorem part_upsertRows (k : κ) (rows : List ρ) : ∀ {t : List ρ}, (t.map key).Nodup →
    part key k (upsertRows key t rows) = ((part key k rows).getLast?.map fun r => [r]).getD (part key k t) := by
  induction rows with
  | nil => exact fun _ => rfl
  | cons r rows ih =>
      intro t ht
      have hrun : upsertRows key t (r :: rows) = upsertRows key (upsertRow key t r) rows := rfl
      have hnodup := nodup_upsertRow key ht r
      rw [hrun, ih hnodup]
      by_cases hk : key r = k
      · -- the row is all there is of its key, until a later row replaces it
        subst hk
        rw [part_cons_self, List.getLast?_cons, part_eq_singleton key hnodup (mem_upsertRow_self key t r)]
        cases (part key (key r) rows).getLast? <;> rfl
      · rw [part_cons_of_ne key rows hk, part_upsertRow_of_ne key hk]

/-- New keys, all distinct, are appended by both. -/
theorem insertRows_eq_append_of_nodup {t rows : List ρ} (h : ((t ++ rows).map key).Nodup) :
    insertRows key (fun _ => false) t rows = t ++ rows ∧ upsertRows key t rows = t ++ rows := by
  induction rows generalizing t with
  | nil => exact ⟨(List.append_nil t).symm, (List.append_nil t).symm⟩
  | cons r rows ih =>
      have happ : t ++ r :: rows = (t ++ [r]) ++ rows := by rw [List.append_assoc, List.singleton_append]
      have hfresh : key r ∉ t.map key := by
        intro hmem
        rw [List.map_append] at h
        exact (List.nodup_append.mp h).2.2 _ hmem _ List.mem_cons_self rfl
      have hins : insertRow key (fun _ => false) t r = t ++ [r] := if_neg fun hc => hfresh hc.2
      have hups : upsertRow key t r = t ++ [r] := if_neg hfresh
      rw [happ] at h ⊢
      obtain ⟨hi, hu⟩ := ih h
      constructor
      · show insertRows key _ (insertRow key _ t r) rows = _
        rw [hins, hi]
      · show upsertRows key (upsertRow key t r) rows = _
        rw [hups, hu]

end Primary

/-! ## Dropping rows before the insert -/

section Drop

/-- The values of `{key(row): row for row in rows}`. -/
def lastByKey (key : ρ → κ) (rows : List ρ) : List ρ :=
  (PyDict.ofPairs (rows.map fun r => (key r, r))).map Prod.snd

/-- The rows whose cells no later row repeats. -/
def lastOf (cells : ρ → ι) (rows : List ρ) : List ρ :=
  rows.pwFilter fun a b => cells a ≠ cells b

variable (key : ρ → κ) (cells : ρ → ι)

theorem lookup_ofPairs_key (k : κ) (rows : List ρ) :
    (PyDict.ofPairs (rows.map fun r => (key r, r))).lookup k = (part key k rows).getLast? := by
  induction rows using List.reverseRecOn with
  | nil => rfl
  | append_singleton rows r ih =>
      rw [List.map_append, List.map_singleton, PyDict.ofPairs_concat, part_append]
      dsimp only
      by_cases hk : key r = k
      · subst hk
        rw [PyDict.lookup_set_self, part_cons_self, part_nil, List.getLast?_concat]
      · rw [PyDict.lookup_set_of_ne _ _ (Ne.symm hk), part_cons_of_ne key [] hk, part_nil, List.append_nil, ih]

theorem key_of_mem_ofPairs {rows : List ρ} {e : κ × ρ}
    (he : e ∈ PyDict.ofPairs (rows.map fun r => (key r, r))) : key e.2 = e.1 ∧ e.2 ∈ rows := by
  have hlookup := PyDict.lookup_of_mem (OrderedDict.nodup_ofPairs _) he
  rw [lookup_ofPairs_key] at hlookup
  have hmem := (mem_part key).mp (List.mem_of_getLast? hlookup)
  exact ⟨hmem.2, hmem.1⟩

theorem mem_of_mem_lastByKey {rows : List ρ} {r : ρ} (h : r ∈ lastByKey key rows) : r ∈ rows := by
  obtain ⟨e, he, rfl⟩ := List.mem_map.mp h
  exact (key_of_mem_ofPairs key he).2

/-- **The last row of every key.** -/
theorem part_lastByKey (k : κ) (rows : List ρ) :
    part key k (lastByKey key rows) = (part key k rows).getLast?.toList := by
  rw [← lookup_ofPairs_key]
  have hnodup := OrderedDict.nodup_ofPairs (rows.map fun r => (key r, r))
  have hkey : ∀ e ∈ PyDict.ofPairs (rows.map fun r => (key r, r)), key e.2 = e.1 :=
    fun e he => (key_of_mem_ofPairs key he).1
  unfold lastByKey
  generalize PyDict.ofPairs (rows.map fun r => (key r, r)) = d at hnodup hkey ⊢
  cases hk : d.lookup k with
  | none =>
      apply part_eq_nil
      intro r hr heq
      obtain ⟨e, he, rfl⟩ := List.mem_map.mp hr
      rw [← heq, hkey e he, PyDict.lookup_of_mem hnodup he] at hk
      cases hk
  | some r =>
      have hmem := PyDict.mem_of_lookup hk
      have hr : key r = k := hkey (k, r) hmem
      have hmap : (d.map Prod.snd).map key = d.map Prod.fst := by
        rw [List.map_map]
        exact List.map_congr_left hkey
      have hin : r ∈ d.map Prod.snd := List.mem_map.mpr ⟨(k, r), hmem, rfl⟩
      rw [← hr]
      exact part_eq_singleton key (hmap ▸ hnodup) hin

theorem lastByKey_map {σ : Type*} (g : σ → ρ) (rows : List σ) :
    lastByKey key (rows.map g) = (lastByKey (fun x => key (g x)) rows).map g := by
  have hdict : PyDict.ofPairs ((rows.map g).map fun r => (key r, r)) =
      (PyDict.ofPairs (rows.map fun x => (key (g x), x))).map fun e => (e.1, g e.2) := by
    induction rows using List.reverseRecOn with
    | nil => rfl
    | append_singleton rows x ih =>
        rw [List.map_append, List.map_append, List.map_append, List.map_singleton, List.map_singleton,
          List.map_singleton, PyDict.ofPairs_concat, PyDict.ofPairs_concat, ih, PyDict.map_set_values]
  unfold lastByKey
  rw [hdict, List.map_map, List.map_map]
  rfl

theorem lastOf_sublist (rows : List ρ) : (lastOf cells rows).Sublist rows :=
  List.pwFilter_sublist rows

theorem lastOf_cons_of_ne {r : ρ} {rows : List ρ} (h : ∀ q ∈ lastOf cells rows, cells r ≠ cells q) :
    lastOf cells (r :: rows) = r :: lastOf cells rows :=
  List.pwFilter_cons_of_pos h

theorem lastOf_cons_of_eq {r q : ρ} {rows : List ρ} (hq : q ∈ lastOf cells rows) (h : cells r = cells q) :
    lastOf cells (r :: rows) = lastOf cells rows :=
  List.pwFilter_cons_of_neg fun hall => hall q hq h

/-- **The last row of every key is kept**, where equal cells have one key. -/
theorem getLast?_part_lastOf (hcells : ∀ a b, cells a = cells b → key a = key b) (k : κ) (rows : List ρ) :
    (part key k (lastOf cells rows)).getLast? = (part key k rows).getLast? := by
  induction rows with
  | nil => rfl
  | cons r rows ih =>
      -- what is kept of the later rows decides on the first one
      by_cases hkept : ∀ q ∈ lastOf cells rows, cells r ≠ cells q
      · rw [lastOf_cons_of_ne cells hkept]
        by_cases hk : key r = k
        · subst hk
          rw [part_cons_self, part_cons_self, List.getLast?_cons, List.getLast?_cons, ih]
        · rw [part_cons_of_ne key _ hk, part_cons_of_ne key _ hk, ih]
      · -- a later row with the same cells is kept in its place
        push Not at hkept
        obtain ⟨q, hq, heq⟩ := hkept
        rw [lastOf_cons_of_eq cells hq heq, ih]
        by_cases hk : key r = k
        · subst hk
          have hlater : part key (key r) rows ≠ [] :=
            List.ne_nil_of_mem ((mem_part key).mpr ⟨(lastOf_sublist cells rows).subset hq, (hcells r q heq).symm⟩)
          rw [part_cons_self, List.getLast?_cons, List.getLast?_eq_some_getLast hlater, Option.getD_some]
        · rw [part_cons_of_ne key _ hk]

end Drop

end UniqueInsert
