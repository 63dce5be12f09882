/-
# Dictionaries with their keys apart

`PyDict` keeps a dictionary as the list of its pairs in insertion order.  A `Dict` is such a list
with no key twice, so that its size and its counts are those of its keys.  `get` reads a key, `set`
and `pop` change one key and `keep` drops all keys that do not pass a test; `get_set`, `get_pop` and
`get_keep` say what is then read, and `count_set` and `count_pop` how the number of values with a
property changes.
-/
import HpcPerfStats.PyDict
import Mathlib.Data.List.Nodup
import Mathlib.Tactic.Common

namespace OrderedDict

variable {α β : Type*}

/-- A dictionary, in insertion order. -/
structure Dict (α β : Type*) where
  entries : List (α × β)
  nodup : (entries.map Prod.fst).Nodup

/-- The empty dictionary. -/
def Dict.empty : Dict α β := ⟨[], List.nodup_nil⟩

/-- The value of a key. -/
def Dict.get [DecidableEq α] (d : Dict α β) (key : α) : Option β := d.entries.lookup key

/-- The number of keys. -/
def Dict.size (d : Dict α β) : ℕ := d.entries.length

/-- The number of keys whose value has a property. -/
def Dict.count (d : Dict α β) (p : β → Bool) : ℕ := d.entries.countP fun e => p e.2

/-! ## The keys of the changed lists -/

theorem nodup_filter {l : List (α × β)} (h : (l.map Prod.fst).Nodup) (p : α × β → Bool) :
    ((l.filter p).map Prod.fst).Nodup :=
  h.sublist (List.filter_sublist.map _)

variable [DecidableEq α]

theorem map_fst_set (l : List (α × β)) (key : α) (value : β) :
    (PyDict.set l key value).map Prod.fst =
      if key ∈ l.map Prod.fst then l.map Prod.fst else l.map Prod.fst ++ [key] := by
  induction l with
  | nil => rfl
  | cons e l ih =>
      obtain ⟨k, v⟩ := e
      rw [PyDict.set]
      by_cases hk : k = key
      · subst hk
        simp
      · have hne : ¬ key = k := fun h => hk h.symm
        rw [if_neg hk, List.map_cons, ih]
        by_cases hmem : key ∈ l.map Prod.fst
        · have hin : key ∈ ((k, v) :: l).map Prod.fst := List.mem_cons_of_mem _ hmem
          rw [if_pos hmem, if_pos hin]
          rfl
        · have hnot : key ∉ ((k, v) :: l).map Prod.fst := by
            intro h
            rcases List.mem_cons.mp h with h | h
            · exact hne h
            · exact hmem h
          rw [if_neg hmem, if_neg hnot]
          rfl

theorem nodup_set {l : List (α × β)} (h : (l.map Prod.fst).Nodup) (key : α) (value : β) :
    ((PyDict.set l key value).map Prod.fst).Nodup := by
  rw [map_fst_set]
  by_cases hmem : key ∈ l.map Prod.fst
  · rw [if_pos hmem]
    exact h
  · rw [if_neg hmem]
    apply h.append (List.nodup_singleton key)
    intro k hk hkey
    rw [List.mem_singleton.mp hkey] at hk
    exact hmem hk

/-! ## Operations -/

/-- `d[key] = value`. -/
def Dict.set (d : Dict α β) (key : α) (value : β) : Dict α β :=
  ⟨PyDict.set d.entries key value, nodup_set d.nodup key value⟩

theorem nodup_ofPairs (pairs : List (α × β)) : ((PyDict.ofPairs pairs).map Prod.fst).Nodup := by
  have hgo : ∀ d : List (α × β), (d.map Prod.fst).Nodup →
      ((pairs.foldl (fun d p => PyDict.set d p.1 p.2) d).map Prod.fst).Nodup := by
    induction pairs with
    | nil => exact fun d h => h
    | cons p pairs ih => exact fun d h => ih _ (nodup_set h p.1 p.2)
  exact hgo [] List.nodup_nil

/-- `dict(pairs)`. -/
def Dict.ofPairs (pairs : List (α × β)) : Dict α β :=
  ⟨PyDict.ofPairs pairs, nodup_ofPairs pairs⟩

/-- The keys that pass a test. -/
def Dict.keep (d : Dict α β) (p : α → Bool) : Dict α β :=
  ⟨d.entries.filter fun e => p e.1, nodup_filter d.nodup _⟩

/-- `d.pop(key, None)`. -/
def Dict.pop (d : Dict α β) (key : α) : Dict α β := d.keep fun k => k != key

/-- What is read after a key was set. -/
theorem get_set (d : Dict α β) (key : α) (value : β) (q : α) :
    (d.set key value).get q = if q = key then some value else d.get q := by
  unfold Dict.get Dict.set
  by_cases hq : q = key
  · rw [if_pos hq, hq]
    exact PyDict.lookup_set_self d.entries key value
  · rw [if_neg hq]
    exact PyDict.lookup_set_of_ne d.entries value hq

/-- What is read of the keys that were kept. -/
theorem get_keep (d : Dict α β) (p : α → Bool) (q : α) :
    (d.keep p).get q = if p q = true then d.get q else none := by
  unfold Dict.get Dict.keep
  show (d.entries.filter fun e => p e.1).lookup q = _
  induction d.entries with
  | nil => simp
  | cons e l ih =>
      obtain ⟨k, v⟩ := e
      rw [List.filter_cons]
      by_cases hq : q = k
      · subst hq
        by_cases hp : p q = true
        · simp [hp]
        · rw [if_neg hp, ih, if_neg hp, if_neg hp]
      · have hb : (q == k) = false := by simpa using hq
        have hskip : ((k, v) :: l).lookup q = l.lookup q := by
          rw [List.lookup_cons, hb]
        rw [hskip, ← ih]
        by_cases hp : p k = true
        · rw [if_pos hp, List.lookup_cons, hb]
        · rw [if_neg hp]

/-- What is read after a key was dropped. -/
theorem get_pop (d : Dict α β) (key q : α) :
    (d.pop key).get q = if q = key then none else d.get q := by
  unfold Dict.pop
  rw [get_keep]
  by_cases hq : q = key
  · rw [if_pos hq, if_neg (by simp [hq])]
  · rw [if_neg hq, if_pos (by simp [hq])]

/-- A pair is read at its key. -/
theorem get_of_mem {d : Dict α β} {e : α × β} (he : e ∈ d.entries) : d.get e.1 = some e.2 :=
  PyDict.lookup_of_mem d.nodup he

theorem mem_of_get {d : Dict α β} {key : α} {value : β} (h : d.get key = some value) :
    (key, value) ∈ d.entries :=
  PyDict.mem_of_lookup h

/-- The order of the keys plays no part in what is read. -/
theorem get_of_perm {d e : Dict α β} (h : d.entries.Perm e.entries) (key : α) : d.get key = e.get key := by
  cases hd : d.get key with
  | some value => exact (get_of_mem (h.mem_iff.mp (mem_of_get hd))).symm
  | none =>
      cases he : e.get key with
      | none => rfl
      | some value =>
          have hget := get_of_mem (h.mem_iff.mpr (mem_of_get he))
          rw [hd] at hget
          cases hget

/-- **Distinct pairs in any order** make the same dictionary. -/
theorem get_ofPairs_of_perm {pairs : List (α × β)} {d : Dict α β} (h : pairs.Perm d.entries) (key : α) :
    (Dict.ofPairs pairs).get key = d.get key := by
  have hnodup : (pairs.map Prod.fst).Nodup := (h.map Prod.fst).nodup_iff.mpr d.nodup
  apply get_of_perm
  show (PyDict.ofPairs pairs).Perm d.entries
  rw [PyDict.ofPairs_of_nodup hnodup]
  exact h

/-- A dictionary is a pair of it and the rest. -/
theorem perm_pop {d : Dict α β} {key : α} {value : β} (h : d.get key = some value) :
    d.entries.Perm ((key, value) :: (d.pop key).entries) := by
  have hpairs : d.entries.Nodup := List.Nodup.of_map _ d.nodup
  have hrest : (d.pop key).entries.Nodup := List.Nodup.of_map _ (d.pop key).nodup
  refine (List.perm_ext_iff_of_nodup hpairs (List.nodup_cons.mpr ⟨?_, hrest⟩)).mpr ?_
  · intro hmem
    have hget := get_of_mem hmem
    rw [get_pop, if_pos rfl] at hget
    cases hget
  · rintro ⟨k, v⟩
    rw [List.mem_cons]
    constructor
    · intro hkv
      by_cases hk : k = key
      · have hv : some v = some value := (get_of_mem hkv).symm.trans (hk ▸ h)
        exact Or.inl (Prod.ext hk (Option.some.inj hv))
      · refine Or.inr (mem_of_get ?_)
        rw [get_pop, if_neg hk]
        exact get_of_mem hkv
    · rintro (heq | hkv)
      · rw [heq]
        exact mem_of_get h
      · have hget := get_of_mem hkv
        rw [get_pop] at hget
        split_ifs at hget with hk
        exact mem_of_get hget

/-- **A key is there once.** -/
theorem filter_key_eq_singleton {d : Dict α β} {key : α} {value : β} :
    d.entries.filter (fun e => e.1 = key) = [(key, value)] ↔ d.get key = some value := by
  constructor
  · intro h
    have hmem : (key, value) ∈ d.entries.filter fun e => e.1 = key := by
      rw [h]
      exact List.mem_singleton_self _
    exact get_of_mem (List.mem_filter.mp hmem).1
  · intro h
    have hrest : (d.pop key).entries.filter (fun e => e.1 = key) = [] := by
      rw [List.filter_eq_nil_iff]
      intro e he hkey
      have hget := get_of_mem he
      rw [of_decide_eq_true hkey, get_pop, if_pos rfl] at hget
      cases hget
    have hhead : ((key, value) :: (d.pop key).entries).filter (fun e => e.1 = key) = [(key, value)] := by
      rw [List.filter_cons, hrest]
      exact if_pos (decide_eq_true rfl)
    have hperm := (perm_pop h).filter fun e => e.1 = key
    rw [hhead] at hperm
    exact List.perm_singleton.mp hperm

/-! ## Counts -/

/-- The keys are those that are read. -/
theorem isSome_get_iff (d : Dict α β) (key : α) :
    (d.get key).isSome = true ↔ key ∈ d.entries.map Prod.fst := by
  unfold Dict.get
  induction d.entries with
  | nil => simp
  | cons e l ih =>
      obtain ⟨k, v⟩ := e
      rw [List.lookup_cons, List.map_cons, List.mem_cons]
      by_cases hq : key = k
      · subst hq
        simp
      · have hb : (key == k) = false := by simpa using hq
        rw [hb]
        show (l.lookup key).isSome = true ↔ _
        rw [ih]
        constructor
        · exact Or.inr
        · rintro (h | h)
          · exact absurd h hq
          · exact h

/-- Setting a key takes the old value out of the count and the new one in. -/
theorem count_set (d : Dict α β) (p : β → Bool) (key : α) (value : β) :
    (d.set key value).count p + ((d.get key).toList.countP p) =
      d.count p + (if p value = true then 1 else 0) :=
  PyDict.countP_set d.entries p key value

/-- Dropping a key takes its value out of the count. -/
theorem count_pop (d : Dict α β) (p : β → Bool) (key : α) :
    (d.pop key).count p + ((d.get key).toList.countP p) = d.count p := by
  obtain ⟨entries, hnodup⟩ := d
  show (entries.filter fun e => e.1 != key).countP (fun e => p e.2) +
    (entries.lookup key).toList.countP p = entries.countP fun e => p e.2
  induction entries with
  | nil => rfl
  | cons e l ih =>
      obtain ⟨k, v⟩ := e
      rw [List.map_cons, List.nodup_cons] at hnodup
      by_cases hk : k = key
      · subst hk
        -- no other pair has this key
        have hrest : l.filter (fun e => e.1 != k) = l := by
          rw [List.filter_eq_self]
          intro e he
          have hne : e.1 ≠ k := by
            intro h
            have hmem : e.1 ∈ l.map Prod.fst := List.mem_map_of_mem he
            rw [h] at hmem
            exact hnodup.1 hmem
          simpa using hne
        rw [List.filter_cons_of_neg (by simp), hrest, List.lookup_cons, List.countP_cons]
        simp
      · have hb : (key == k) = false := by
          simpa using fun h : key = k => hk h.symm
        have ih := ih hnodup.2
        rw [List.filter_cons_of_pos (by simpa using hk), List.lookup_cons, hb, List.countP_cons,
          List.countP_cons]
        show _ + (l.lookup key).toList.countP p = _
        omega

/-! ## Keys and sizes -/

theorem isSome_get_pop (d : Dict α β) (i j : α) :
    ((d.pop i).get j).isSome = if j = i then false else (d.get j).isSome := by
  rw [get_pop]
  split_ifs <;> rfl

theorem isSome_get_set (d : Dict α β) (i j : α) (v : β) :
    ((d.set i v).get j).isSome = if j = i then true else (d.get j).isSome := by
  rw [get_set]
  split_ifs <;> rfl

/-- A new key stands last. -/
theorem entries_set_of_none {d : Dict α β} {key : α} (h : d.get key = none) (value : β) :
    (d.set key value).entries = d.entries ++ [(key, value)] := by
  refine PyDict.set_of_notMem ?_ value
  rw [← isSome_get_iff, h]
  exact Bool.false_ne_true

/-- A key that is not there is not dropped. -/
theorem entries_pop_of_none {d : Dict α β} {key : α} (h : d.get key = none) :
    (d.pop key).entries = d.entries := by
  refine List.filter_eq_self.mpr ?_
  intro e he
  have hget := get_of_mem he
  rw [bne_iff_ne]
  rintro rfl
  rw [hget] at h
  cases h

theorem size_set (d : Dict α β) (key : α) (value : β) :
    (d.set key value).size = if (d.get key).isSome then d.size else d.size + 1 := by
  have hkeys : (d.set key value).size = ((d.set key value).entries.map Prod.fst).length := (List.length_map _).symm
  have hset : (d.set key value).entries.map Prod.fst = _ := map_fst_set d.entries key value
  have hsize : (d.entries.map Prod.fst).length = d.size := List.length_map _
  rw [hkeys, hset]
  by_cases h : (d.get key).isSome = true
  · rw [if_pos h, if_pos ((isSome_get_iff d key).mp h), hsize]
  · rw [if_neg h, if_neg (fun hmem => h ((isSome_get_iff d key).mpr hmem)), List.length_append, hsize]
    rfl

theorem size_pop_le (d : Dict α β) (key : α) : (d.pop key).size ≤ d.size :=
  List.length_filter_le _ _

/-- Dictionaries that are read alike have the same pairs. -/
theorem perm_of_get {d e : Dict α β} (h : ∀ key, d.get key = e.get key) : d.entries.Perm e.entries := by
  refine (List.perm_ext_iff_of_nodup (List.Nodup.of_map _ d.nodup) (List.Nodup.of_map _ e.nodup)).mpr ?_
  intro p
  constructor
  · intro hp
    exact mem_of_get ((h p.1).symm.trans (get_of_mem hp))
  · intro hp
    exact mem_of_get ((h p.1).trans (get_of_mem hp))

/-- A dictionary in which a key was set is the pair and the rest. -/
theorem perm_set (d : Dict α β) (key : α) (value : β) :
    (d.set key value).entries.Perm ((key, value) :: (d.pop key).entries) := by
  refine (perm_pop (by rw [get_set, if_pos rfl])).trans (List.Perm.cons _ (perm_of_get fun q => ?_))
  rw [get_pop, get_pop, get_set]
  split_ifs
  · rfl
  · rfl

/-! ## A loop over a copy of the items -/

/-- The list has pairs of the dictionary, no key twice. -/
structure Tracks (d : Dict α β) (todo : List (α × β)) : Prop where
  nodup : (todo.map Prod.fst).Nodup
  entry : ∀ e ∈ todo, d.get e.1 = some e.2

theorem tracks_entries (d : Dict α β) : Tracks d d.entries :=
  ⟨d.nodup, fun _ he => get_of_mem he⟩

theorem Tracks.tail {d : Dict α β} {e : α × β} {todo : List (α × β)} (h : Tracks d (e :: todo)) : Tracks d todo :=
  ⟨(List.nodup_cons.mp h.nodup).2, fun p hp => h.entry p (List.mem_cons_of_mem e hp)⟩

/-- The pair in front may change. -/
theorem Tracks.tail_of_get {d d' : Dict α β} {e : α × β} {todo : List (α × β)} (h : Tracks d (e :: todo))
    (hget : ∀ key, key ≠ e.1 → d'.get key = d.get key) : Tracks d' todo := by
  obtain ⟨hnot, hnodup⟩ := List.nodup_cons.mp h.nodup
  refine ⟨hnodup, fun p hp => ?_⟩
  have hne : p.1 ≠ e.1 := by
    intro heq
    exact hnot (heq ▸ List.mem_map_of_mem hp)
  rw [hget p.1 hne]
  exact h.entry p (List.mem_cons_of_mem e hp)

theorem Tracks.pop {d : Dict α β} {e : α × β} {todo : List (α × β)} (h : Tracks d (e :: todo)) :
    Tracks (d.pop e.1) todo :=
  h.tail_of_get fun key hkey => by rw [get_pop, if_neg hkey]

/-! ## Dictionaries of lists -/

variable {γ : Type*}

/-- What the lists have together. -/
def buckets (d : Dict α (List γ)) : List γ := d.entries.flatMap Prod.snd

theorem buckets_of_get {d : Dict α (List γ)} {key : α} {bucket : List γ} (h : d.get key = some bucket) :
    (buckets d).Perm (bucket ++ buckets (d.pop key)) :=
  (perm_pop h).flatMap_right _

theorem buckets_set (d : Dict α (List γ)) (key : α) (bucket : List γ) :
    (buckets (d.set key bucket)).Perm (bucket ++ buckets (d.pop key)) :=
  (perm_set d key bucket).flatMap_right _

theorem buckets_pop_of_none {d : Dict α (List γ)} {key : α} (h : d.get key = none) :
    buckets (d.pop key) = buckets d := by
  unfold buckets
  rw [entries_pop_of_none h]

/-- A list is replaced by one that goes on with other values. -/
theorem buckets_set_of_append {d : Dict α (List γ)} {key : α} {front back : List γ}
    (h : (d.get key).getD [] = front ++ back) :
    (buckets d).Perm (front ++ buckets (d.set key back)) := by
  have hset := buckets_set d key back
  cases hget : d.get key with
  | none =>
      rw [hget] at h
      obtain ⟨rfl, rfl⟩ := List.append_eq_nil_iff.mp h.symm
      rw [buckets_pop_of_none hget] at hset
      exact hset.symm
  | some bucket =>
      rw [hget] at h
      have hpop := buckets_of_get hget
      rw [show bucket = front ++ back from h, List.append_assoc] at hpop
      exact hpop.trans (hset.symm.append_left front)

theorem mem_buckets {d : Dict α (List γ)} {x : γ} :
    x ∈ buckets d ↔ ∃ key bucket, d.get key = some bucket ∧ x ∈ bucket := by
  unfold buckets
  rw [List.mem_flatMap]
  constructor
  · rintro ⟨e, he, hx⟩
    exact ⟨e.1, e.2, get_of_mem he, hx⟩
  · rintro ⟨key, bucket, hget, hx⟩
    exact ⟨(key, bucket), mem_of_get hget, hx⟩

end OrderedDict
