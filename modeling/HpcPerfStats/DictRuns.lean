/-
# Runs of the monitor's dictionary

The operations of `dict.c` in sequence.  `Inv` is what every operation keeps: a sound table
with both counters right.  `SetOk` says when an insertion is covered by the bound of the
lookup; it is the only condition, since a removal and a lookup keep the invariant as they are.

Main results: `run_refines` (in every run whose insertions are covered, each operation answers
as a finite map does) and `not_run_refines_collectorNames` (without the condition it does not:
the fifth key is refused by a table with four free slots).
-/
import HpcPerfStats.DictPlacement

namespace MonitorDict

open ProbeTable

/-! ## The length of a table -/

/-- The table length grows by doubling until the keys fill less than two thirds of it. -/
theorem growTableLen_spec {count : Nat} (hcount : 3 * count < 2 ^ 64) (rounds k : Nat)
    (hk : k ≤ 63) (hrounds : 63 ≤ k + rounds) :
    ∃ k', k ≤ k' ∧ k' ≤ 63 ∧ growTableLen count rounds (2 ^ k) = 2 ^ k' ∧
      (3 * count < 2 * 2 ^ k' ∨ k' = 63) := by
  have hwrap : wrap (3 * count) = 3 * count := Nat.mod_eq_of_lt hcount
  induction rounds generalizing k with
  | zero => exact ⟨k, le_rfl, hk, rfl, Or.inr (by omega)⟩
  | succ rounds ih =>
      rw [growTableLen, hwrap]
      by_cases hmax : k = 63
      · subst hmax
        refine ⟨63, le_rfl, le_rfl, ?_, Or.inr rfl⟩
        rw [if_neg (by rintro ⟨-, h⟩; exact absurd h (by simp [tableLenMax]))]
      · have hpow : 2 * 2 ^ k < 2 ^ 64 := by
          calc 2 * 2 ^ k = 2 ^ (k + 1) := by ring
            _ < 2 ^ 64 := Nat.pow_lt_pow_right (by norm_num) (by omega)
        have hdouble : wrap (2 ^ k * 2) = 2 ^ (k + 1) := by
          rw [wrap, Nat.mod_eq_of_lt (by omega), pow_succ]
        have htwice : wrap (2 * 2 ^ k) = 2 * 2 ^ k := Nat.mod_eq_of_lt hpow
        rw [htwice, hdouble]
        split_ifs with h
        · obtain ⟨k', hle, hle', heq, hor⟩ := ih (k + 1) (by omega) (by omega)
          exact ⟨k', by omega, hle', heq, hor⟩
        · refine ⟨k, le_rfl, hk, rfl, Or.inl ?_⟩
          have hlt : (2 : Nat) ^ k < tableLenMax :=
            Nat.pow_lt_pow_right (by norm_num) (by omega)
          by_contra hge
          exact h ⟨by omega, hlt⟩

/-! ## The invariant of a dictionary -/

/-- A dictionary in order: a table of power-of-two length that an allocation can give, sound,
and with both counters right. -/
structure Inv (d : Dict) : Prop where
  pow : ∃ k, 3 ≤ k ∧ k ≤ 59 ∧ d.tableLen = 2 ^ k
  sound : Sound d.table
  load : d.load = usedCount d.table
  count : d.count = liveCount d.table

/-- In order, up to keys that stand beyond the bound of their lookup. -/
structure LooseInv (d : Dict) : Prop where
  pow : ∃ k, 3 ≤ k ∧ k ≤ 59 ∧ d.tableLen = 2 ^ k
  loose : Loose d.table
  load : d.load = usedCount d.table
  count : d.count = liveCount d.table

theorem inv_iff {d : Dict} : Inv d ↔ LooseInv d ∧ Bounded d.table :=
  ⟨fun h => ⟨⟨h.pow, (sound_iff.mp h.sound).1, h.load, h.count⟩, (sound_iff.mp h.sound).2⟩,
    fun h => ⟨h.1.pow, sound_iff.mpr ⟨h.1.loose, h.2⟩, h.1.load, h.1.count⟩⟩

theorem LooseInv.pos {d : Dict} (h : LooseInv d) : 0 < d.tableLen := by
  obtain ⟨k, -, -, hk⟩ := h.pow
  rw [hk]
  exact Nat.two_pow_pos k

theorem Inv.pos {d : Dict} (h : Inv d) : 0 < d.tableLen := (inv_iff.mp h).1.pos

theorem LooseInv.load_le {d : Dict} (h : LooseInv d) : d.load ≤ d.tableLen := by
  rw [h.load]
  exact List.countP_le_length

/-- A slot with a key is in use. -/
theorem liveCount_le_usedCount (table : List Entry) : liveCount table ≤ usedCount table := by
  apply List.countP_mono_left
  intro e _ he
  simp only [Entry.isUnused, Bool.not_and, Bool.not_not, Bool.or_eq_true]
  right
  rw [Bool.not_eq_true', Option.isNone_eq_false_iff]
  exact he

theorem LooseInv.count_le {d : Dict} (h : LooseInv d) : d.count ≤ d.load := by
  rw [h.count, h.load]
  exact liveCount_le_usedCount d.table

/-- The length is far below the range of a `size_t`. -/
theorem LooseInv.tableLen_lt {d : Dict} (h : LooseInv d) : d.tableLen < 2 ^ 60 := by
  obtain ⟨k, -, hk, hlen⟩ := h.pow
  rw [hlen]
  exact Nat.pow_lt_pow_right (by norm_num) (by omega)

theorem le_of_callocFits {k : Nat} (h : callocFits (2 ^ k)) : k ≤ 59 := by
  by_contra hk
  have hle : (2 : Nat) ^ 60 ≤ 2 ^ k := Nat.pow_le_pow_right (by norm_num) (by omega)
  have hlt : 2 ^ k * 16 < 2 ^ 64 := by simpa [callocFits] using h
  omega

theorem inv_replicate {k : Nat} (hk : 3 ≤ k) (hk' : k ≤ 59) :
    Inv ⟨List.replicate (2 ^ k) Entry.zero, 0, 0⟩ where
  pow := ⟨k, hk, hk', List.length_replicate⟩
  sound := sound_replicate _
  load := by simp [usedCount, List.countP_replicate, Entry.zero, Entry.isUnused, Entry.isDummy]
  count := by simp [liveCount, List.countP_replicate, Entry.zero]

/-- `dict_init` gives an empty dictionary in order, whatever the hint. -/
theorem inv_init {count : Nat} {d : Dict} (h : dictInit count = some d) :
    Inv d ∧ Contents d.table fun _ => none := by
  have hpow : ∃ k', 3 ≤ k' ∧ growTableLen count 64 tableLenMin = 2 ^ k' := by
    have hgrow : ∀ rounds k, 3 ≤ k → k ≤ 63 →
        ∃ k', 3 ≤ k' ∧ growTableLen count rounds (2 ^ k) = 2 ^ k' := by
      intro rounds
      induction rounds with
      | zero => exact fun k hk _ => ⟨k, hk, rfl⟩
      | succ rounds ih =>
          intro k hk hk'
          rw [growTableLen]
          split_ifs with hcond
          · have hlt : k < 63 := by
              by_contra hge
              obtain rfl : k = 63 := by omega
              exact absurd hcond.2 (by simp [tableLenMax])
            have hdouble : wrap (2 ^ k * 2) = 2 ^ (k + 1) := by
              rw [wrap, ← pow_succ, Nat.mod_eq_of_lt]
              exact Nat.pow_lt_pow_right (by norm_num) (by omega)
            rw [hdouble]
            exact ih (k + 1) (by omega) (by omega)
          · exact ⟨k, hk, rfl⟩
    exact hgrow 64 3 le_rfl (by norm_num)
  obtain ⟨k, hk, hlen⟩ := hpow
  rw [dictInit, hlen] at h
  split_ifs at h with hfits
  obtain rfl := Option.some.inj h
  exact ⟨inv_replicate hk (le_of_callocFits hfits), contents_replicate _⟩

/-! ## When an insertion finds its slot -/

/-- The text stands in the table. -/
def holdsText (table : List Entry) (t : CString) : Bool :=
  table.any fun e => e.key.any fun p => p.text == t

/-- The lookup of a hash meets an unused slot within its bound. -/
def meetsUnused (d : Dict) (hash : Nat) : Bool :=
  (path d.tableLen hash).any fun r => (entryAt d.table r).isUnused

/-- The insertion takes an unused slot, rather than a deletion mark, and that fills two thirds
of the table. -/
def mustGrow (d : Dict) (hash : Nat) : Bool :=
  (((path d.tableLen hash).find? fun r => (entryAt d.table r).key.isNone).any
    fun r => (entryAt d.table r).isUnused) && decide (2 * d.tableLen ≤ 3 * (d.load + 1))

/-- The length the table grows to. -/
def grownLen (d : Dict) : Nat := growTableLen (d.count + 1) 64 d.tableLen

/-- An insertion is covered by the bound of the lookup: the text stands in the table, or its
lookup meets an unused slot; and if the table has to grow, the allocation can be given and
every key, in the order of the slots, the new one last, settles within the bound of the lookup
in the grown table. -/
def SetOk (d : Dict) (t : CString) : Prop :=
  holdsText d.table t = true ∨
    (meetsUnused d (dictStrhash t) = true ∧
      (mustGrow d (dictStrhash t) = true →
        callocFits (grownLen d) = true ∧
          (settle (grownLen d) (liveHashes d.table ++ [dictStrhash t]) []).isSome = true))

instance (d : Dict) (t : CString) : Decidable (SetOk d t) :=
  inferInstanceAs (Decidable (_ ∨ _ ∧ (_ → _ ∧ _)))

theorem holdsText_iff {table : List Entry} {t : CString} :
    holdsText table t = true ↔ ∃ p, Stands table p ∧ p.text = t := by
  rw [holdsText, List.any_eq_true]
  constructor
  · rintro ⟨e, he, hkey⟩
    obtain ⟨p, hp, ht⟩ := (Option.any_eq_true _ _).mp hkey
    obtain ⟨i, hi, rfl⟩ := List.getElem_of_mem he
    refine ⟨p, ⟨i, ?_⟩, by simpa using ht⟩
    rw [entryAt, List.getD_eq_getElem?_getD, List.getElem?_eq_getElem hi]
    exact hp
  · rintro ⟨p, ⟨i, hi⟩, rfl⟩
    refine ⟨entryAt table i, entryAt_mem (lt_length_of_key hi), ?_⟩
    simp [hi]

/-! ## One operation -/

/-- Overwriting the key of an entry by one with the same text. -/
theorem dictSet_of_key {d : Dict} {m : CString → Option KeyPtr} (h : Inv d)
    (hm : Contents d.table m) {key p : KeyPtr} {i : Nat} (hp : (entryAt d.table i).key = some p)
    (htext : p.text = key.text) :
    ∃ d', dictSet d key = some (0, d') ∧ Inv d' ∧
      Contents d'.table (Function.update m key.text (some key)) := by
  have hlt := lt_length_of_key hp
  have href := dictEntryRef_of_key h.pos h.sound hp
  rw [htext] at href
  have hsome : (d.entry i).key.isSome = true := by
    show (entryAt d.table i).key.isSome = true
    rw [hp]
    rfl
  let e : Entry := ⟨(entryAt d.table i).hash, some key⟩
  -- one entry has the text, so the slot of the old key is the only one the new key can clash with
  have hslot : ∀ j q, (entryAt d.table j).key = some q → (q.text = key.text ↔ j = i) := by
    intro j q hq
    constructor
    · intro ht
      exact h.sound.alone j i q p hq hp (ht.trans htext.symm)
    · rintro rfl
      rw [hp] at hq
      rw [← htext, Option.some.inj hq]
  refine ⟨{ d with table := d.table.set i e }, ?_, ⟨?_, ?_, ?_, ?_⟩, ?_⟩
  · rw [dictSet, href]
    show (if (d.entry i).key.isSome = true then _ else _) = _
    rw [if_pos hsome]
    rfl
  · obtain ⟨k, hk, hk', hlen⟩ := h.pow
    exact ⟨k, hk, hk', by rw [← hlen]; exact List.length_set⟩
  · apply h.sound.set hlt
    · simp [Entry.isUnused, e]
    · intro q hq
      obtain rfl : key = q := by simpa [e] using hq
      show (entryAt d.table i).hash = dictStrhash key.text
      rw [h.sound.hash i p hp, htext]
    · intro q hq
      obtain rfl : key = q := by simpa [e] using hq
      rw [← htext]
      exact h.sound.reach i p hp
    · intro q hq j q' hj hq'
      obtain rfl : key = q := by simpa [e] using hq
      intro ht
      exact hj ((hslot j q' hq').mp ht.symm)
  -- the slot was in use before and is in use after, so neither counter moves
  · have hset := usedCount_set hlt e
    have hused : (entryAt d.table i).isUnused = false := by simp [Entry.isUnused, hp]
    have hused' : e.isUnused = false := by simp [Entry.isUnused, e]
    rw [hused, hused'] at hset
    simp only [Bool.false_eq_true, if_false] at hset
    show d.load = usedCount (d.table.set i e)
    rw [h.load]
    omega
  · have hset := liveCount_set hlt e
    rw [hp] at hset
    show d.count = liveCount (d.table.set i e)
    rw [h.count]
    simp only [e, Option.isSome_some, if_true] at hset ⊢
    omega
  · exact hm.put hlt hslot

/-- Writing a new key into a slot without one that its lookup offers, with the counters the code leaves. -/
theorem LooseInv.put {d : Dict} {m : CString → Option KeyPtr} (h : LooseInv d) (hm : Contents d.table m)
    {key : KeyPtr} (hmiss : ∀ p, Stands d.table p → p.text ≠ key.text) {s : Nat}
    (hs : (path d.tableLen (dictStrhash key.text)).find?
      (fun r => (entryAt d.table r).key.isNone) = some s) {load : Nat}
    (hload : load = d.load + if (entryAt d.table s).isUnused then 1 else 0) :
    LooseInv ((⟨d.table, load, d.count + 1⟩ : Dict).put s (dictStrhash key.text) key) ∧
      Contents (d.table.set s ⟨dictStrhash key.text, some key⟩)
        (Function.update m key.text (some key)) ∧
      (Bounded (d.table.set s ⟨dictStrhash key.text, some key⟩) ↔ Bounded d.table) := by
  have hfree : (entryAt d.table s).key = none := by simpa using List.find?_some hs
  have hmem : s ∈ path d.table.length (dictStrhash key.text) := List.mem_of_find?_eq_some hs
  have hlt : s < d.table.length := mem_path_lt h.pos hmem
  have hslot : ∀ i q, (entryAt d.table i).key = some q → (q.text = key.text ↔ i = s) := by
    intro i q hq
    constructor
    · intro ht
      exact absurd ht (hmiss q ⟨i, hq⟩)
    · rintro rfl
      rw [hfree] at hq
      simp at hq
  let e : Entry := ⟨dictStrhash key.text, some key⟩
  refine ⟨⟨?_, ?_, ?_, ?_⟩, hm.put hlt hslot, ?_⟩
  · obtain ⟨k, hk, hk', hlen⟩ := h.pow
    exact ⟨k, hk, hk', by rw [← hlen]; exact List.length_set⟩
  · apply h.loose.set hlt
    · simp [Entry.isUnused]
    · intro q hq
      obtain rfl : key = q := by simpa using hq
      rfl
    · intro q hq _
      obtain rfl : key = q := by simpa using hq
      apply reachable_of_find? ?_ hs
      intro r hr
      simp only [Entry.isUnused, Bool.and_eq_true] at hr
      exact hr.2
    · intro q hq i q' hi hq' ht
      obtain rfl : key = q := by simpa using hq
      exact hmiss q' ⟨i, hq'⟩ ht.symm
  -- a slot that was unused is used now and one that held a removed key was counted already
  · have hset := usedCount_set hlt e
    have hused' : e.isUnused = false := by simp [Entry.isUnused, e]
    show load = usedCount (d.table.set s e)
    rw [hload, h.load]
    simp only [hused', Bool.false_eq_true, if_false] at hset
    by_cases hu : (entryAt d.table s).isUnused = true
    · rw [if_pos hu] at hset ⊢
      omega
    · rw [if_neg hu] at hset ⊢
      omega
  · show d.count + 1 = liveCount (d.table.set s e)
    rw [h.count, liveCount_place hlt rfl hfree]
  · rw [bounded_place hlt rfl hfree, and_iff_left hmem]

theorem inv_put {d : Dict} {m : CString → Option KeyPtr} (h : Inv d) (hm : Contents d.table m)
    {key : KeyPtr} (hmiss : ∀ p, Stands d.table p → p.text ≠ key.text) {s : Nat}
    (hs : (path d.tableLen (dictStrhash key.text)).find?
      (fun r => (entryAt d.table r).key.isNone) = some s) (load : Nat)
    (hload : load = d.load + if (entryAt d.table s).isUnused then 1 else 0) :
    Inv ((⟨d.table, load, d.count + 1⟩ : Dict).put s (dictStrhash key.text) key) ∧
      Contents (d.table.set s ⟨dictStrhash key.text, some key⟩)
        (Function.update m key.text (some key)) := by
  obtain ⟨hloose, hbounded⟩ := inv_iff.mp h
  obtain ⟨hinv, hcont, hiff⟩ := hloose.put hm hmiss hs hload
  exact ⟨inv_iff.mpr ⟨hinv, hiff.mpr hbounded⟩, hcont⟩

/-- Growing a table.  The keys that are there come to stand within the bound of their lookup, with room for
later ones, exactly when their hashes settle. -/
theorem LooseInv.resize {d : Dict} {m : CString → Option KeyPtr} (h : LooseInv d) (hm : Contents d.table m)
    {k : Nat} (hk : 3 ≤ k) (hk' : k ≤ 59) (hroom : d.count ≤ 2 ^ k) (later : List Nat) :
    ∃ d' taken, dictResize d (2 ^ k) = some d' ∧ LooseInv d' ∧ Contents d'.table m ∧ d'.count = d.count ∧
      Placed (2 ^ k) d'.table taken ∧
      (Bounded d'.table ∧ (settle (2 ^ k) later taken).isSome ↔
        (settle (2 ^ k) (liveHashes d.table ++ later) []).isSome) := by
  have hempty : ∀ q, ¬ Stands (List.replicate (2 ^ k) Entry.zero) q := by
    rintro q ⟨i, hi⟩
    rw [entryAt_replicate] at hi
    simp [Entry.zero] at hi
  have hat : ∀ i (hi : i < d.table.length), entryAt d.table i = d.table[i] := by
    intro i hi
    rw [entryAt, List.getD_eq_getElem?_getD, List.getElem?_eq_getElem hi]
    rfl
  have hmemkey : ∀ e ∈ d.table, ∃ i, entryAt d.table i = e := by
    intro e he
    obtain ⟨i, hi, rfl⟩ := List.getElem_of_mem he
    exact ⟨i, hat i hi⟩
  have hpair : d.table.Pairwise fun a b =>
      ∀ p q, a.key = some p → b.key = some q → p.text ≠ q.text := by
    rw [List.pairwise_iff_getElem]
    intro i j hi hj hij p q hp hq ht
    have := h.loose.alone i j p q (by rw [hat i hi]; exact hp) (by rw [hat j hj]; exact hq) ht
    omega
  have hzero : liveCount (List.replicate (2 ^ k) Entry.zero) = 0 := (inv_replicate hk hk').count.symm
  obtain ⟨hstart, hstart'⟩ := rebuilt_iff.mp (rebuilt_replicate (2 ^ k))
  obtain ⟨table, taken, hfold, hplaced, hstands, hcount, hiff⟩ :=
    hstart.foldlM (by omega : k ≤ 64) later d.table _ []
      (by
        intro e he p hp
        obtain ⟨i, rfl⟩ := hmemkey e he
        exact h.loose.hash i p hp)
      (fun e _ p _ q hq => absurd hq (hempty q)) hpair
      (by rw [hzero, ← h.count, Nat.zero_add]; exact hroom)
  have hstands' : ∀ p, Stands table p ↔ Stands d.table p := by
    intro p
    rw [hstands p]
    constructor
    · rintro (hp | ⟨e, he, hp⟩)
      · exact absurd hp (hempty p)
      · obtain ⟨i, rfl⟩ := hmemkey e he
        exact ⟨i, hp⟩
    · rintro ⟨i, hi⟩
      exact Or.inr ⟨_, entryAt_mem (lt_length_of_key hi), hi⟩
  -- a table without marks is used exactly where it holds a key
  have hused : usedCount table = liveCount table := by
    apply List.countP_congr
    intro e he
    obtain ⟨i, hi, rfl⟩ := List.getElem_of_mem he
    have hclean := hplaced.clean i
    rw [entryAt, List.getD_eq_getElem?_getD, List.getElem?_eq_getElem hi, Option.getD_some]
      at hclean
    cases hkey : (table[i]).key <;> simp [Entry.isUnused, hclean, hkey]
  refine ⟨⟨table, d.count, d.count⟩, taken, by rw [dictResize, hfold]; rfl, ⟨?_, hplaced.loose, ?_, ?_⟩, ?_, rfl,
    hplaced, hiff.trans (and_iff_right hstart')⟩
  · exact ⟨k, hk, hk', hplaced.length⟩
  · rw [hused, hcount, hzero, h.count, Nat.zero_add]
  · rw [hcount, hzero, h.count, Nat.zero_add]
  · intro t p
    rw [hm t p, hstands' p]

theorem Contents.missing {table table' : List Entry} {m : CString → Option KeyPtr} (hm : Contents table m)
    (hm' : Contents table' m) {t : CString} (hmiss : ∀ p, Stands table p → p.text ≠ t) :
    ∀ p, Stands table' p → p.text ≠ t :=
  fun p hp => hmiss p ((hm p.text p).mp ((hm' p.text p).mpr ⟨rfl, hp⟩)).2

/-- A grown table has no marks, so a slot without a key has never been used. -/
theorem Placed.isUnused {n : Nat} {table : List Entry} {taken : List Nat} (h : Placed n table taken) {s : Nat}
    (hs : (entryAt table s).key = none) : (entryAt table s).isUnused = true := by
  rw [Entry.isUnused, h.clean s, hs]
  rfl

/-- Growing a table all of whose keys settle, with room left for the new one. -/
theorem dictResize_spec {d : Dict} {m : CString → Option KeyPtr} (h : Inv d)
    (hm : Contents d.table m) {t : CString} (hmiss : ∀ p, Stands d.table p → p.text ≠ t)
    {k : Nat} (hk : 3 ≤ k) (hk' : k ≤ 59) (hroom : d.count ≤ 2 ^ k)
    (hsettle : (settle (2 ^ k) (liveHashes d.table ++ [dictStrhash t]) []).isSome) :
    ∃ d' s, dictResize d (2 ^ k) = some d' ∧ Inv d' ∧ Contents d'.table m ∧
      (∀ p, Stands d'.table p → p.text ≠ t) ∧
      dictEntryRef d' (dictStrhash t) t = some s ∧ (entryAt d'.table s).isUnused = true := by
  obtain ⟨d', taken, hresize, hloose, hm', -, hplaced, hiff⟩ :=
    (inv_iff.mp h).1.resize hm hk hk' hroom [dictStrhash t]
  obtain ⟨hbounded, hlast⟩ := hiff.mpr hsettle
  have hinv : Inv d' := inv_iff.mpr ⟨hloose, hbounded⟩
  have hmiss' := hm.missing hm' hmiss
  have hslot : ∃ s ∈ path (2 ^ k) (dictStrhash t), (entryAt d'.table s).isUnused = true := by
    rw [settle] at hlast
    cases hfind : (path (2 ^ k) (dictStrhash t)).find? (fun s => s ∉ taken) with
    | none => rw [hfind] at hlast; simp at hlast
    | some s =>
        refine ⟨s, List.mem_of_find?_eq_some hfind, hplaced.isUnused ?_⟩
        rw [← hplaced.find?_eq] at hfind
        simpa using List.find?_some hfind
  have hlen : d'.tableLen = 2 ^ k := hplaced.length
  obtain ⟨s, hs⟩ := Option.isSome_iff_exists.mp
    ((dictEntryRef_isSome_iff hinv.pos hinv.sound.keyed hmiss').mpr (by rw [hlen]; exact hslot))
  refine ⟨d', s, hresize, hinv, hm', hmiss', hs, hplaced.isUnused ?_⟩
  simpa using List.find?_some (dictEntryRef_of_missing hinv.pos hinv.sound.keyed hmiss' hs)

/-- **An insertion that the bound of the lookup covers succeeds** and puts its key into the
map. -/
theorem dictSet_spec {d : Dict} {m : CString → Option KeyPtr} (h : Inv d)
    (hm : Contents d.table m) {key : KeyPtr} (hok : SetOk d key.text) :
    ∃ d', dictSet d key = some (0, d') ∧ Inv d' ∧
      Contents d'.table (Function.update m key.text (some key)) := by
  by_cases hheld : holdsText d.table key.text = true
  · obtain ⟨p, ⟨i, hi⟩, htext⟩ := holdsText_iff.mp hheld
    exact dictSet_of_key h hm hi htext
  obtain ⟨hmeets, hgrow⟩ := hok.resolve_left hheld
  have hmiss : ∀ p, Stands d.table p → p.text ≠ key.text :=
    fun p hp ht => hheld (holdsText_iff.mpr ⟨p, hp, ht⟩)
  obtain ⟨s, hs⟩ : ∃ s, dictEntryRef d (dictStrhash key.text) key.text = some s := by
    apply Option.isSome_iff_exists.mp
    rw [dictEntryRef_isSome_iff h.pos h.sound.keyed hmiss]
    simpa [meetsUnused, List.any_eq_true] using hmeets
  have hfind := dictEntryRef_of_missing h.pos h.sound.keyed hmiss hs
  have hfree : (entryAt d.table s).key = none := by simpa using List.find?_some hfind
  have hnone : (d.entry s).key.isSome = false := by
    show (entryAt d.table s).key.isSome = false
    rw [hfree]
    rfl
  have hset : dictSet d key = dictEntrySet d s (dictStrhash key.text) key := by
    rw [dictSet, hs]
    show (if (d.entry s).key.isSome = true then _ else _) = _
    rw [if_neg (by simp [hnone])]
  rw [hset, dictEntrySet]
  simp only [hnone, Bool.false_eq_true, if_false]
  by_cases hdummy : (d.entry s).isDummy = true
  · -- a mark is taken over: no change of load
    have hused : (entryAt d.table s).isUnused = false := by
      have : (entryAt d.table s).isDummy = true := hdummy
      simp [Entry.isUnused, this]
    rw [if_pos hdummy]
    obtain ⟨hinv, hcont⟩ := inv_put h hm hmiss hfind d.load (by simp [hused])
    exact ⟨_, rfl, hinv, hcont⟩
  have hunused : (entryAt d.table s).isUnused = true := by
    have : (entryAt d.table s).isDummy = false := Bool.eq_false_iff.mpr hdummy
    simp [Entry.isUnused, this, hfree]
  have hlenlt := (inv_iff.mp h).1.tableLen_lt
  have hloadle := (inv_iff.mp h).1.load_le
  have hwrap : wrap (3 * (d.load + 1)) = 3 * (d.load + 1) := Nat.mod_eq_of_lt (by omega)
  have hwrap' : wrap (2 * d.tableLen) = 2 * d.tableLen := Nat.mod_eq_of_lt (by omega)
  rw [if_neg hdummy, hwrap, hwrap']
  by_cases hfull : 2 * d.tableLen ≤ 3 * (d.load + 1)
  · have hmust : mustGrow d (dictStrhash key.text) = true := by
      rw [mustGrow, hfind]
      simp [hunused, hfull]
    obtain ⟨hfits, hsettle⟩ := hgrow hmust
    have hcountle : d.count ≤ d.load := (inv_iff.mp h).1.count_le
    obtain ⟨k, hk, hk59, hlen⟩ := h.pow
    obtain ⟨k', hle, -, hgrown, hroom⟩ := growTableLen_spec
      (show 3 * (d.count + 1) < 2 ^ 64 by omega) 64 k (by omega) (by omega)
    have hgrown' : grownLen d = 2 ^ k' := by rw [grownLen, hlen]; exact hgrown
    rw [hgrown'] at hfits hsettle
    have hk' : k' ≤ 59 := le_of_callocFits hfits
    have hroom' : ¬ d.count + 1 ≥ 2 ^ k' := by omega
    obtain ⟨d', s', hresize, hinv, hcont, hmiss', hs', hunused'⟩ :=
      dictResize_spec h hm hmiss (by omega : 3 ≤ k') hk' (by omega) hsettle
    have hfind' := dictEntryRef_of_missing hinv.pos hinv.sound.keyed hmiss' hs'
    obtain ⟨hinv', hcont'⟩ := inv_put hinv hcont hmiss' hfind' (d'.load + 1)
      (by simp [hunused'])
    refine ⟨_, ?_, hinv', hcont'⟩
    rw [if_pos hfull]
    rw [grownLen] at hgrown'
    simp only [hgrown', if_neg hroom', hfits, not_true_eq_false, if_false, hresize, Option.map_some,
      hs']
  · rw [if_neg hfull]
    obtain ⟨hinv, hcont⟩ := inv_put h hm hmiss hfind (d.load + 1) (by simp [hunused])
    exact ⟨_, rfl, hinv, hcont⟩

/-- Clearing an empty table of its marks changes nothing that is seen. -/
theorem dictShrink_spec {d : Dict} {m : CString → Option KeyPtr} (h : Inv d)
    (hm : Contents d.table m) : Inv (dictShrink d) ∧ Contents (dictShrink d).table m := by
  rw [dictShrink]
  split_ifs with hcond
  · obtain ⟨k, hk, hk', hlen⟩ := h.pow
    have hnone : ∀ t, m t = none := by
      intro t
      cases hmt : m t with
      | none => rfl
      | some p =>
          obtain ⟨-, i, hi⟩ := (hm t p).mp hmt
          have hpos : 0 < liveCount d.table := by
            rw [liveCount, List.countP_pos_iff]
            exact ⟨_, entryAt_mem (lt_length_of_key hi), by rw [hi]; rfl⟩
          have := h.count
          omega
    have hinv := inv_replicate hk hk'
    refine ⟨⟨⟨k, hk, hk', ?_⟩, sound_replicate _, ?_, ?_⟩, ?_⟩
    · show (List.replicate d.tableLen Entry.zero).length = 2 ^ k
      rw [List.length_replicate, hlen]
    · rw [hlen]
      exact hinv.load
    · show d.count = liveCount (List.replicate d.tableLen Entry.zero)
      rw [hcond.1, hlen]
      exact hinv.count
    · have hm' : m = fun _ => none := funext hnone
      rw [hm']
      exact contents_replicate _
  · exact ⟨h, hm⟩

/-- **A removal** gives the key of the map and takes it out of it. -/
theorem dictRemv_spec {d : Dict} {m : CString → Option KeyPtr} (h : Inv d)
    (hm : Contents d.table m) (t : CString) :
    (dictRemv d t).1 = m t ∧ Inv (dictRemv d t).2 ∧
      Contents (dictRemv d t).2.table (Function.update m t none) := by
  cases hmt : m t with
  | some p =>
      obtain ⟨rfl, i, hi⟩ := (hm t p).mp hmt
      have hlt := lt_length_of_key hi
      have hkey : (d.entry i).key = some p := hi
      let e : Entry := ⟨hashDummy, none⟩
      have hremv : dictRemv d p.text =
          (some p, dictShrink { d with table := d.table.set i e, count := d.count - 1 }) := by
        rw [dictRemv, dictEntryRef_of_key h.pos h.sound hi]
        show dictEntryRemv d i = _
        rw [dictEntryRemv, hkey]
      have hused : e.isUnused = false := by decide
      have hinv : Inv { d with table := d.table.set i e, count := d.count - 1 } := by
        obtain ⟨k, hk, hk', hlen⟩ := h.pow
        refine ⟨⟨k, hk, hk', by rw [← hlen]; exact List.length_set⟩, ?_, ?_, ?_⟩
        · apply h.sound.set hlt hused <;> simp [e]
        -- the slot stays in use under the dummy hash, and one key less is live
        · have hset := usedCount_set hlt e
          have hused' : (entryAt d.table i).isUnused = false := by simp [Entry.isUnused, hi]
          simp only [hused, hused', Bool.false_eq_true, if_false] at hset
          show d.load = usedCount (d.table.set i e)
          rw [h.load]
          omega
        · have hset := liveCount_set hlt e
          rw [hi] at hset
          show d.count - 1 = liveCount (d.table.set i e)
          rw [h.count]
          simp only [e, Option.isSome_some, Option.isSome_none, Bool.false_eq_true, if_false,
            if_true] at hset ⊢
          omega
      rw [hremv]
      exact ⟨rfl, dictShrink_spec hinv (hm.remove h.sound hi)⟩
  | none =>
      have hmiss : ∀ p, Stands d.table p → p.text ≠ t := by
        intro p hp hpt
        rw [(hm t p).mpr ⟨hpt, hp⟩] at hmt
        simp at hmt
      have hremv : dictRemv d t = (none, d) := by
        cases href : dictEntryRef d (dictStrhash t) t with
        | none => rw [dictRemv, href]
        | some s =>
            have hfree := List.find?_some (dictEntryRef_of_missing h.pos h.sound.keyed hmiss href)
            have hkey : (d.entry s).key = none := Option.isNone_iff_eq_none.mp hfree
            rw [dictRemv, href]
            show dictEntryRemv d s = _
            rw [dictEntryRemv, hkey]
      have hupdate : Function.update m t none = m := by
        rw [← hmt, Function.update_eq_self]
      rw [hremv, hupdate]
      exact ⟨rfl, h, hm⟩

/-! ## Runs -/

/-- The calls of a user of the dictionary. -/
inductive Op where
  | set (key : KeyPtr)
  | remv (key : CString)
  | ref (key : CString)
  deriving DecidableEq, Repr

/-- What a call returns: the code of `dict_set`, or a pointer. -/
inductive Answer where
  | code (rc : Int)
  | ptr (key : Option KeyPtr)
  deriving DecidableEq, Repr

/-- One call; `none` when it does not return. -/
def step (d : Dict) : Op → Option (Answer × Dict)
  | .set key => (dictSet d key).map fun r => (.code r.1, r.2)
  | .remv key => some (.ptr (dictRemv d key).1, (dictRemv d key).2)
  | .ref key => some (.ptr (dictRef d key), d)

/-- The same call on a finite map from texts to keys: an insertion always succeeds. -/
def mapStep (m : CString → Option KeyPtr) : Op → Answer × (CString → Option KeyPtr)
  | .set key => (.code 0, Function.update m key.text (some key))
  | .remv key => (.ptr (m key), Function.update m key none)
  | .ref key => (.ptr (m key), m)

/-- The answers of a sequence of calls. -/
def run : Dict → List Op → Option (List Answer)
  | _, [] => some []
  | d, op :: ops => (step d op).bind fun r => (run r.2 ops).map (r.1 :: ·)

/-- The answers of a finite map. -/
def mapRun : (CString → Option KeyPtr) → List Op → List Answer
  | _, [] => []
  | m, op :: ops => (mapStep m op).1 :: mapRun (mapStep m op).2 ops

/-- The condition on a call, in the state in which it is made. -/
def StepOk (d : Dict) : Op → Prop
  | .set key => SetOk d key.text
  | .remv _ => True
  | .ref _ => True

instance (d : Dict) : (op : Op) → Decidable (StepOk d op)
  | .set key => inferInstanceAs (Decidable (SetOk d key.text))
  | .remv _ => inferInstanceAs (Decidable True)
  | .ref _ => inferInstanceAs (Decidable True)

/-- Every call of the run meets its condition. -/
def RunOk : Dict → List Op → Prop
  | _, [] => True
  | d, op :: ops => StepOk d op ∧ ∀ r ∈ step d op, RunOk r.2 ops

instance RunOk.decidable : ∀ (d : Dict) (ops : List Op), Decidable (RunOk d ops)
  | _, [] => isTrue trivial
  | d, op :: ops =>
      letI := fun d' => RunOk.decidable d' ops
      inferInstanceAs (Decidable (StepOk d op ∧ ∀ r ∈ step d op, RunOk r.2 ops))

/-- One call of a dictionary in order answers as the map does, and keeps the order. -/
theorem step_refines {d : Dict} {m : CString → Option KeyPtr} (h : Inv d)
    (hm : Contents d.table m) {op : Op} (hok : StepOk d op) :
    ∃ d', step d op = some ((mapStep m op).1, d') ∧ Inv d' ∧
      Contents d'.table (mapStep m op).2 := by
  cases op with
  | set key =>
      obtain ⟨d', hset, hinv, hcont⟩ := dictSet_spec h hm hok
      exact ⟨d', by rw [step, hset]; rfl, hinv, hcont⟩
  | remv key =>
      obtain ⟨hans, hinv, hcont⟩ := dictRemv_spec h hm key
      exact ⟨_, by rw [step, hans]; rfl, hinv, hcont⟩
  | ref key =>
      exact ⟨d, by rw [step, dictRef_eq h.pos h.sound hm]; rfl, h, hm⟩

theorem run_refines_from {d : Dict} {m : CString → Option KeyPtr} (h : Inv d)
    (hm : Contents d.table m) (ops : List Op) (hok : RunOk d ops) :
    run d ops = some (mapRun m ops) := by
  induction ops generalizing d m with
  | nil => rfl
  | cons op ops ih =>
      obtain ⟨hop, hops⟩ := hok
      obtain ⟨d', hstep, hinv, hcont⟩ := step_refines h hm hop
      have hrest := ih hinv hcont (hops _ hstep)
      rw [run, hstep, Option.bind_some, hrest]
      rfl

/-- **The dictionary refines a finite map.**  From `dict_init` on, in every sequence of calls
whose insertions are covered by the bound of the lookup, every `dict_set` succeeds and every
`dict_ref` and `dict_remv` gives the key last set for its text and not removed since. -/
theorem run_refines {count : Nat} {d : Dict} (hinit : dictInit count = some d) (ops : List Op)
    (hok : RunOk d ops) : run d ops = some (mapRun (fun _ => none) ops) := by
  obtain ⟨hinv, hcont⟩ := inv_init hinit
  exact run_refines_from hinv hcont ops hok

/-- The bytes of an ASCII text. -/
def cstr (s : String) : CString := s.toList.map fun c => UInt8.ofNat c.toNat

/-- An insertion of a named type, at some address. -/
def setName (addr : Nat) (name : String) : Op := .set ⟨addr, cstr name⟩

/-- A run with an overwritten key, a removal, a mark taken over and a grown table. -/
def coveredOps : List Op :=
  [setName 1 "proc", setName 2 "ps", setName 3 "block", setName 4 "net", setName 5 "ps",
    .remv (cstr "net"), .ref (cstr "net"), setName 6 "net", setName 7 "mem", setName 8 "ib",
    setName 9 "numa", .ref (cstr "ps"), .ref (cstr "mem"), .ref (cstr "nfs")]

theorem run_refines_coveredOps :
    ∃ d, dictInit 0 = some d ∧ run d coveredOps = some (mapRun (fun _ => none) coveredOps) ∧
      mapRun (fun _ => none) coveredOps =
        [.code 0, .code 0, .code 0, .code 0, .code 0, .ptr (some ⟨4, cstr "net"⟩), .ptr none,
          .code 0, .code 0, .code 0, .code 0, .ptr (some ⟨5, cstr "ps"⟩),
          .ptr (some ⟨7, cstr "mem"⟩), .ptr none] :=
  ⟨⟨List.replicate 8 Entry.zero, 0, 0⟩, by decide +kernel,
    run_refines (by decide +kernel : dictInit 0 = _) coveredOps (by decide +kernel),
    by decide +kernel⟩

/-- Five names of collectors. -/
def collectorNames : List Op :=
  [setName 1 "proc", setName 2 "ps", setName 3 "block", setName 4 "net", setName 5 "nfs"]

/-- Without the condition an insertion is refused: the lookup of `nfs` in a table of length 8
visits only the slots 4, 1, 6 and 2, which four other names fill, while half of the table is
unused. -/
theorem not_run_refines_collectorNames :
    ∃ d, dictInit 0 = some d ∧
      run d collectorNames = some [.code 0, .code 0, .code 0, .code 0, .code (-1)] ∧
      ¬ run d collectorNames = some (mapRun (fun _ => none) collectorNames) :=
  ⟨⟨List.replicate 8 Entry.zero, 0, 0⟩, by decide +kernel, by decide +kernel, by decide +kernel⟩

end MonitorDict
