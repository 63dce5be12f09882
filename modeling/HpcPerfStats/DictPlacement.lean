/-
# Placing the keys of a table anew

What `dict_resize` does with the keys of the old table, apart from the run that it is part of.  A key takes the
first free slot of its probe sequence, which may lie beyond the probes that a lookup makes.

* `settle` gives hashes their slots within the bound of the lookup, if that is possible;
* `Placed` says what the loop has built at any time, wherever the keys have come to stand;
* `Placed.foldlM`: the loop ends while there is room, and it leaves every key within the bound of its lookup
  exactly when the hashes settle.
-/
import HpcPerfStats.MonitorDict

namespace MonitorDict

open ProbeTable

/-! ## Slots for hashes -/

/-- The hashes of the keys of a table, in the order of their slots. -/
def liveHashes (table : List Entry) : List Nat :=
  table.filterMap fun e => e.key.map fun _ => e.hash

/-- Give each hash in turn the first free slot among the `n` that a lookup in a table of
length `n` visits; `none` when one of them finds all of these taken. -/
def settle (n : Nat) : List Nat → List Nat → Option (List Nat)
  | [], taken => some taken
  | hash :: hashes, taken =>
      ((path n hash).find? fun s => s ∉ taken).bind fun s => settle n hashes (s :: taken)

theorem probes_add (mask a b : Nat) (x : Nat × Nat) :
    probes mask (a + b) x.1 x.2 =
      probes mask a x.1 x.2 ++ probes mask b (advance^[a] x).1 (advance^[a] x).2 := by
  induction a generalizing x with
  | zero => simp [probes]
  | succ a ih =>
      rw [show a + 1 + b = (a + b) + 1 by omega, probes, probes, List.cons_append,
        Function.iterate_succ_apply]
      congr 1
      exact ih (advance x)

/-- Within the bound of the lookup, the unbounded probe of the resize stops where a key
settles. -/
theorem resizeProbe_eq {table : List Entry} {hash s : Nat}
    (h : (path table.length hash).find? (fun j => (entryAt table j).key.isNone) = some s) :
    resizeProbe table hash = some s := by
  rw [resizeProbe, probes_add _ table.length 13 (hash &&& (table.length - 1), hash)]
  rw [List.find?_append]
  show (List.find? (fun j => (entryAt table j).key.isNone) (path table.length hash)).or _ = some s
  rw [h, Option.some_or]

/-- A free slot is always found, since the probe reaches every slot. -/
theorem resizeProbe_isSome {table : List Entry} {k : Nat} (hk : k ≤ 64)
    (hlen : table.length = 2 ^ k) {hash s : Nat} (hhash : hash < 2 ^ 64) (hs : s < table.length)
    (hfree : (entryAt table s).key = none) : (resizeProbe table hash).isSome := by
  rw [resizeProbe, List.find?_isSome]
  refine ⟨s, ?_, ?_⟩
  · rw [hlen]
    exact mem_probes_all hk hhash (hlen ▸ hs)
  · show (entryAt table s).key.isNone = true
    rw [hfree]
    rfl

/-- The number of keys of a table. -/
def liveCount (table : List Entry) : Nat := table.countP fun e => e.key.isSome

/-- The number of slots a lookup does not stop at. -/
def usedCount (table : List Entry) : Nat := table.countP fun e => !e.isUnused

theorem liveCount_set {table : List Entry} {s : Nat} (hs : s < table.length) (e : Entry) :
    liveCount (table.set s e) + (if (entryAt table s).key.isSome then 1 else 0) =
      liveCount table + (if e.key.isSome then 1 else 0) := by
  have hentry : entryAt table s = table[s] := by
    rw [entryAt, List.getD_eq_getElem?_getD, List.getElem?_eq_getElem hs]
    rfl
  have hle : (if table[s].key.isSome then 1 else 0) ≤ table.countP fun e => e.key.isSome :=
    List.boole_getElem_le_countP (p := fun e : Entry => e.key.isSome) hs
  rw [liveCount, liveCount, List.countP_set hs, hentry]
  omega

theorem usedCount_set {table : List Entry} {s : Nat} (hs : s < table.length) (e : Entry) :
    usedCount (table.set s e) + (if (entryAt table s).isUnused then 0 else 1) =
      usedCount table + (if e.isUnused then 0 else 1) := by
  have hentry : entryAt table s = table[s] := by
    rw [entryAt, List.getD_eq_getElem?_getD, List.getElem?_eq_getElem hs]
    rfl
  have hflip : ∀ e : Entry, (if (!e.isUnused) = true then 1 else 0) =
      (if e.isUnused = true then 0 else 1) := by
    intro e
    cases e.isUnused <;> simp
  have hle : (if (!table[s].isUnused) = true then 1 else 0) ≤
      table.countP fun e => !e.isUnused :=
    List.boole_getElem_le_countP (p := fun e : Entry => !e.isUnused) hs
  rw [usedCount, usedCount, List.countP_set hs, hentry]
  simp only [hflip] at hle ⊢
  omega

/-! ## What is built -/

/-- What the loop of the resize has built: a loose table without marks, whose filled slots are the ones taken
so far. -/
structure Placed (n : Nat) (table : List Entry) (taken : List Nat) : Prop where
  length : table.length = n
  loose : Loose table
  clean : ∀ i, (entryAt table i).isDummy = false
  taken_iff : ∀ i, i ∈ taken ↔ (entryAt table i).key.isSome

/-- The same with every key within the bound of its lookup. -/
structure Rebuilt (n : Nat) (table : List Entry) (taken : List Nat) : Prop where
  length : table.length = n
  sound : Sound table
  clean : ∀ i, (entryAt table i).isDummy = false
  taken_iff : ∀ i, i ∈ taken ↔ (entryAt table i).key.isSome

theorem rebuilt_iff {n : Nat} {table : List Entry} {taken : List Nat} :
    Rebuilt n table taken ↔ Placed n table taken ∧ Bounded table :=
  ⟨fun h => ⟨⟨h.length, (sound_iff.mp h.sound).1, h.clean, h.taken_iff⟩, (sound_iff.mp h.sound).2⟩,
    fun h => ⟨h.1.length, sound_iff.mpr ⟨h.1.loose, h.2⟩, h.1.clean, h.1.taken_iff⟩⟩

theorem rebuilt_replicate (n : Nat) : Rebuilt n (List.replicate n Entry.zero) [] where
  length := List.length_replicate
  sound := sound_replicate n
  clean := by intro i; rw [entryAt_replicate]; rfl
  taken_iff := by intro i; rw [entryAt_replicate]; simp [Entry.zero]

theorem Placed.find?_eq {n : Nat} {table : List Entry} {taken : List Nat}
    (h : Placed n table taken) (slots : List Nat) :
    slots.find? (fun j => (entryAt table j).key.isNone) = slots.find? (fun s => s ∉ taken) := by
  apply List.find?_congr
  intro j _
  have hj := h.taken_iff j
  cases hk : (entryAt table j).key <;> simp [hk] at hj ⊢ <;> exact hj

/-- A table with fewer keys than slots has a free slot. -/
theorem exists_free {table : List Entry} (h : liveCount table < table.length) :
    ∃ s < table.length, (entryAt table s).key = none := by
  by_contra hno
  push Not at hno
  have hall : liveCount table = table.length := by
    rw [liveCount, List.countP_eq_length]
    intro e he
    obtain ⟨i, hi, rfl⟩ := List.getElem_of_mem he
    have hkey := hno i hi
    rw [entryAt, List.getD_eq_getElem?_getD, List.getElem?_eq_getElem hi] at hkey
    exact Option.isSome_iff_ne_none.mpr hkey
  omega

/-- **One round of the resize**, for a key that is not there yet: it takes the first free slot of its probe
sequence, which is where it settles or, if it does not, a slot that its lookup never visits. -/
theorem Placed.place {k : Nat} {table : List Entry} {taken : List Nat} (h : Placed (2 ^ k) table taken)
    (hk : k ≤ 64) {e : Entry} {p : KeyPtr} (hp : e.key = some p) (hhash : e.hash = dictStrhash p.text)
    (hnew : ∀ q, Stands table q → p.text ≠ q.text) (hroom : liveCount table < 2 ^ k) :
    ∃ s, resizeEntry table e = some (table.set s e) ∧ Placed (2 ^ k) (table.set s e) (s :: taken) ∧
      s < 2 ^ k ∧ (entryAt table s).key = none ∧
      ((path (2 ^ k) e.hash).find? (fun s => s ∉ taken) = some s ∨
        ((path (2 ^ k) e.hash).find? (fun s => s ∉ taken) = none ∧ s ∉ path (2 ^ k) e.hash)) := by
  have hdummy : e.isDummy = false := by
    rw [Entry.isDummy, hhash]
    exact Nat.testBit_lt_two_pow (dictStrhash_lt _)
  have hfree : ∃ s < table.length, (entryAt table s).key = none :=
    exists_free (by rw [h.length]; exact hroom)
  obtain ⟨s, hprobe, hlt, hkey, hplace⟩ : ∃ s, resizeProbe table e.hash = some s ∧ s < 2 ^ k ∧
      (entryAt table s).key = none ∧
      ((path (2 ^ k) e.hash).find? (fun s => s ∉ taken) = some s ∨
        ((path (2 ^ k) e.hash).find? (fun s => s ∉ taken) = none ∧ s ∉ path (2 ^ k) e.hash)) := by
    rw [← h.find?_eq]
    cases hfind : (path (2 ^ k) e.hash).find? (fun j => (entryAt table j).key.isNone) with
    | some s =>
        have hslot : s < 2 ^ k := mem_path_lt (Nat.two_pow_pos k) (List.mem_of_find?_eq_some hfind)
        have hprobe : resizeProbe table e.hash = some s := by
          apply resizeProbe_eq
          rw [h.length]
          exact hfind
        exact ⟨s, hprobe, hslot, by simpa using List.find?_some hfind, Or.inl rfl⟩
    | none =>
        -- all slots of the lookup are taken, and a free one is found behind them
        obtain ⟨s₀, hs₀, hkey₀⟩ := hfree
        have hhash64 : e.hash < 2 ^ 64 := by
          rw [hhash]
          exact lt_trans (dictStrhash_lt _) (by norm_num)
        obtain ⟨s, hs⟩ := Option.isSome_iff_exists.mp (resizeProbe_isSome hk h.length hhash64 hs₀ hkey₀)
        have hmem := List.mem_of_find?_eq_some hs
        have hnone := List.find?_some hs
        have hkey : (entryAt table s).key = none := Option.isNone_iff_eq_none.mp hnone
        refine ⟨s, hs, ?_, hkey, Or.inr ⟨rfl, ?_⟩⟩
        · have hle := mem_probes_lt hmem
          rw [h.length] at hle
          have := Nat.two_pow_pos k
          omega
        · intro hpath
          exact List.find?_eq_none.mp hfind s hpath (by rw [hkey]; rfl)
  have hlt' : s < table.length := h.length ▸ hlt
  refine ⟨s, ?_, ⟨?_, ?_, ?_, ?_⟩, hlt, hkey, hplace⟩
  · rw [resizeEntry, if_neg (by simp [hp, hdummy]), hprobe]
    rfl
  · rw [List.length_set, h.length]
  · apply h.loose.set hlt' (by simp [Entry.isUnused, hp])
    · intro q hq
      obtain rfl : p = q := by rw [hp] at hq; exact Option.some.inj hq
      exact hhash
    · intro q hq hpath
      obtain rfl : p = q := by rw [hp] at hq; exact Option.some.inj hq
      rw [h.length, ← hhash] at hpath ⊢
      -- on the path it can only stand where it has settled
      rcases hplace with hfind | ⟨-, hoff⟩
      · rw [← h.find?_eq] at hfind
        apply reachable_of_find? ?_ hfind
        intro r hr
        simp only [Entry.isUnused, Bool.and_eq_true] at hr
        exact hr.2
      · exact absurd hpath hoff
    · intro q hq i q' _ hq'
      obtain rfl : p = q := by rw [hp] at hq; exact Option.some.inj hq
      exact hnew q' ⟨i, hq'⟩
  · intro i
    rw [entryAt_set hlt']
    split_ifs
    · exact hdummy
    · exact h.clean i
  · intro i
    rw [entryAt_set hlt', List.mem_cons]
    split_ifs with hi
    · simp [hi, hp]
    · rw [h.taken_iff i]
      simp [hi]

/-! ## The loop -/

/-- A key placed in a free slot stays within the bound of its lookup, and the others keep theirs. -/
theorem bounded_place {table : List Entry} {s : Nat} {e : Entry} {p : KeyPtr} (hlt : s < table.length)
    (hp : e.key = some p) (hfree : (entryAt table s).key = none) :
    Bounded (table.set s e) ↔ Bounded table ∧ s ∈ path table.length (dictStrhash p.text) := by
  constructor
  · intro h
    constructor
    · intro i q hq
      have hi : i ≠ s := by
        rintro rfl
        rw [hfree] at hq
        cases hq
      have hpath := h i q (by rw [entryAt_set hlt, if_neg hi]; exact hq)
      rwa [List.length_set] at hpath
    · have hpath := h s p (by rw [entryAt_set hlt, if_pos rfl]; exact hp)
      rwa [List.length_set] at hpath
  · rintro ⟨hold, hnew⟩
    refine bounded_set hlt (fun i q _ hq => hold i q hq) ?_
    intro q hq
    obtain rfl : p = q := by rw [hp] at hq; exact Option.some.inj hq
    exact hnew

theorem stands_place {table : List Entry} {s : Nat} {e : Entry} {p : KeyPtr} (hlt : s < table.length)
    (hp : e.key = some p) (hfree : (entryAt table s).key = none) (q : KeyPtr) :
    Stands (table.set s e) q ↔ p = q ∨ Stands table q := by
  have hother : (∃ i ≠ s, (entryAt table i).key = some q) ↔ Stands table q := by
    constructor
    · rintro ⟨i, -, hi⟩
      exact ⟨i, hi⟩
    · rintro ⟨i, hi⟩
      refine ⟨i, ?_, hi⟩
      rintro rfl
      rw [hfree] at hi
      cases hi
  rw [stands_set hlt, hp, hother, Option.some.injEq]

theorem liveCount_place {table : List Entry} {s : Nat} {e : Entry} {p : KeyPtr} (hlt : s < table.length)
    (hp : e.key = some p) (hfree : (entryAt table s).key = none) :
    liveCount (table.set s e) = liveCount table + 1 := by
  have hset := liveCount_set hlt e
  rw [hfree, hp] at hset
  simpa using hset

/-- **The loop of the resize.**  It ends while there is room, the new table holds the old keys together with the
ones placed before, and all are within the bound of their lookup exactly when the hashes settle. -/
theorem Placed.foldlM {k : Nat} (hk : k ≤ 64) (later : List Nat) (es : List Entry) (table : List Entry)
    (taken : List Nat) (h : Placed (2 ^ k) table taken)
    (hhash : ∀ e ∈ es, ∀ p, e.key = some p → e.hash = dictStrhash p.text)
    (hnew : ∀ e ∈ es, ∀ p, e.key = some p → ∀ q, Stands table q → p.text ≠ q.text)
    (hpair : es.Pairwise fun a b => ∀ p q, a.key = some p → b.key = some q → p.text ≠ q.text)
    (hroom : liveCount table + liveCount es ≤ 2 ^ k) :
    ∃ table' taken', es.foldlM resizeEntry table = some table' ∧ Placed (2 ^ k) table' taken' ∧
      (∀ p, Stands table' p ↔ Stands table p ∨ ∃ e ∈ es, e.key = some p) ∧
      liveCount table' = liveCount table + liveCount es ∧
      (Bounded table' ∧ (settle (2 ^ k) later taken').isSome ↔
        Bounded table ∧ (settle (2 ^ k) (liveHashes es ++ later) taken).isSome) := by
  induction es generalizing table taken with
  | nil => exact ⟨table, taken, rfl, h, by simp, by simp [liveCount], Iff.rfl⟩
  | cons e es ih =>
      have hpair' := List.pairwise_cons.mp hpair
      have hhash' : ∀ e' ∈ es, ∀ p, e'.key = some p → e'.hash = dictStrhash p.text :=
        fun e' he' => hhash e' (List.mem_cons_of_mem _ he')
      cases hkey : e.key with
      | none =>
          -- `if (key == NULL || ...) continue`
          have hskip : resizeEntry table e = some table := by
            rw [resizeEntry, if_pos (by simp [hkey])]
          have hlive : liveHashes (e :: es) = liveHashes es := by simp [liveHashes, hkey]
          have hcount : liveCount (e :: es) = liveCount es := by simp [liveCount, hkey]
          rw [hcount] at hroom
          obtain ⟨table', taken', hfold, hplaced, hstands, hcount', hbounded⟩ :=
            ih table taken h hhash' (fun e' he' => hnew e' (List.mem_cons_of_mem _ he')) hpair'.2 hroom
          refine ⟨table', taken', ?_, hplaced, ?_, by rw [hcount', hcount], by rw [hbounded, hlive]⟩
          · rw [List.foldlM_cons, hskip]
            exact hfold
          · intro p
            rw [hstands p]
            simp [hkey]
      | some p =>
          have hehash := hhash e List.mem_cons_self p hkey
          have hlive : liveHashes (e :: es) = e.hash :: liveHashes es := by simp [liveHashes, hkey]
          have hcount : liveCount (e :: es) = liveCount es + 1 := by simp [liveCount, hkey]
          rw [hcount] at hroom
          obtain ⟨s, hentry, hplaced, hlt, hfree, hsettle⟩ :=
            h.place hk hkey hehash (hnew e List.mem_cons_self p hkey) (by omega)
          have hlt' : s < table.length := h.length ▸ hlt
          have hlive' := liveCount_place hlt' hkey hfree
          obtain ⟨table', taken', hfold, hplaced', hstands, hcount', hbounded⟩ :=
            ih (table.set s e) (s :: taken) hplaced hhash'
              (by
                intro e' he' p' hp' q hq
                rcases (stands_place hlt' hkey hfree q).mp hq with rfl | hq
                · exact Ne.symm (hpair'.1 e' he' p p' hkey hp')
                · exact hnew e' (List.mem_cons_of_mem _ he') p' hp' q hq)
              hpair'.2 (by omega)
          refine ⟨table', taken', ?_, hplaced', ?_, by omega, ?_⟩
          · rw [List.foldlM_cons, hentry]
            exact hfold
          · intro q
            rw [hstands q, stands_place hlt' hkey hfree q]
            simp only [List.mem_cons, exists_eq_or_imp, hkey, Option.some.injEq]
            exact or_assoc.trans or_left_comm
          · rw [hbounded, bounded_place hlt' hkey hfree, hlive, List.cons_append, settle, h.length, ← hehash]
            rcases hsettle with hfind | ⟨hfind, hoff⟩
            · have hmem := List.mem_of_find?_eq_some hfind
              rw [hfind, Option.bind_some, and_iff_left hmem]
            · rw [hfind, Option.bind_none]
              exact iff_of_false (fun hb => hoff hb.1.2) (fun hb => by cases hb.2)

end MonitorDict
