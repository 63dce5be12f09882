/-
# The monitor's dictionary (`monitor/src/dict.c`)

`dict.c` is a hash table with open addressing: a perturbed probe sequence, deletion marks
(an entry whose hash has the top bit set), re-use of a mark on insertion, and a resize that
places every live key again.  The model follows the source with a `size_t` and a `hash_t` as
numbers below `2 ^ 64`, a table as the list of its entries and a `struct dict_entry *` as an
index into it.

A key is a `char *`: the address is what `dict_ref` gives back, the text is what `strcmp`
compares.  `calloc` fails when the size it is asked for does not fit in a `size_t` and
succeeds otherwise, and the probe loop of `dict_resize`, which has no bound in the source,
is searched as far as `tableLen + 13` steps: this reaches every slot (`resizeProbe_isSome`), so
that the bound is never the reason to stop.

Main results: `mem_probes_all` (the probe sequence reaches every slot), `dictEntryRef_eq` (the
lookup is a walk along the first `tableLen` slots of it) and `dictRef_eq` (on a sound table
`dict_ref` reads the finite map that the table stands for).
-/
import Mathlib.RingTheory.ZMod.UnitsCyclic
import HpcPerfStats.ProbeTable

namespace MonitorDict

open ProbeTable

/-! ## Keys and hashes -/

/-- The bytes of a C string, without the terminator. -/
abbrev CString := List UInt8

/-- A `char *`: where it points, and the text that stands there. -/
structure KeyPtr where
  addr : Nat
  text : CString
  deriving DecidableEq, Repr

/-- Arithmetic of `size_t` and `hash_t`. -/
def wrap (n : Nat) : Nat := n % 2 ^ 64

/-- `DICT_HASH_DUMMY`: the top bit of a hash. -/
def hashDummy : Nat := 2 ^ 63

/-- `dict_strhash`. -/
def dictStrhash (s : CString) : Nat :=
  let x := (s.headD 0).toNat <<< 7
  let x := s.foldl (fun x b => wrap (1000003 * x) ^^^ b.toNat) x
  (x ^^^ s.length) % hashDummy

/-- `struct dict_entry`. -/
structure Entry where
  hash : Nat
  key : Option KeyPtr
  deriving DecidableEq, Repr

/-- An entry as `calloc` leaves it. -/
def Entry.zero : Entry := ⟨0, none⟩

/-- `ent->d_hash & DICT_HASH_DUMMY`. -/
def Entry.isDummy (e : Entry) : Bool := e.hash.testBit 63

/-- `struct dict`. -/
structure Dict where
  table : List Entry
  load : Nat
  count : Nat
  deriving DecidableEq, Repr

/-- `d_table_len`. -/
def Dict.tableLen (d : Dict) : Nat := d.table.length

/-- `table[i]`. -/
def Dict.entry (d : Dict) (i : Nat) : Entry := d.table.getD i Entry.zero

/-- Whether `calloc(n, sizeof(struct dict_entry))` can be given at all: an entry has 16 bytes. -/
def callocFits (n : Nat) : Bool := n * 16 < 2 ^ 64

/-- `DICT_TABLE_LEN_MIN` and `DICT_TABLE_LEN_MAX`. -/
def tableLenMin : Nat := 8

def tableLenMax : Nat := 2 ^ 63

/-- `while (3 * count >= 2 * table_len && table_len < DICT_TABLE_LEN_MAX) table_len *= 2`: from
8 on, the bound is reached after at most 60 rounds. -/
def growTableLen (count : Nat) : Nat → Nat → Nat
  | 0, len => len
  | rounds + 1, len =>
      if wrap (3 * count) ≥ wrap (2 * len) ∧ len < tableLenMax then
        growTableLen count rounds (wrap (len * 2))
      else len

/-- `dict_init`; `none` when it returns `-1`. -/
def dictInit (count : Nat) : Option Dict :=
  let len := growTableLen count 64 tableLenMin
  if callocFits len then some ⟨List.replicate len Entry.zero, 0, 0⟩ else none

/-! ## The probe sequence -/

/-- `i = (i << 2) + i + perturb + 1`. -/
def nextProbe (i perturb : Nat) : Nat := wrap (i <<< 2 + i + perturb + 1)

/-- The slots of the first `n` probes from `i` on, in a table with the given mask. -/
def probes (mask : Nat) : Nat → Nat → Nat → List Nat
  | 0, _, _ => []
  | n + 1, i, perturb => (i &&& mask) :: probes mask n (nextProbe i perturb) (perturb >>> 5)

/-- The slots a lookup in a table of length `len` may visit for a hash. -/
def path (len hash : Nat) : List Nat := probes (len - 1) len (hash &&& (len - 1)) hash

/-- The loop of `dict_entry_ref`, with the number of steps left. -/
def refLoop (d : Dict) (hash : Nat) (key : CString) :
    Nat → Nat → Nat → Option Nat → Option Nat
  | 0, _, _, _ => none
  | steps + 1, i, perturb, dummy =>
      let i := nextProbe i perturb
      let j := i &&& (d.tableLen - 1)
      let ent := d.entry j
      if ent.isDummy then
        refLoop d hash key steps i (perturb >>> 5) (dummy.or (some j))
      else
        match ent.key with
        | none => some (dummy.getD j)
        | some k =>
            if ent.hash = hash ∧ k.text = key then some j
            else refLoop d hash key steps i (perturb >>> 5) dummy

/-- `dict_entry_ref`: the index of the entry, or `none` for `NULL`. -/
def dictEntryRef (d : Dict) (hash : Nat) (key : CString) : Option Nat :=
  if d.tableLen = 0 then none
  else
    let i := hash &&& (d.tableLen - 1)
    let ent := d.entry i
    if ent.isDummy then refLoop d hash key (d.tableLen - 1) i hash (some i)
    else
      match ent.key with
      | none => some i
      | some k =>
          if ent.hash = hash ∧ k.text = key then some i
          else refLoop d hash key (d.tableLen - 1) i hash none

/-! ## Resize, insertion and removal -/

/-- The slot at which `dict_resize` stops: `while (table[i & mask].d_key != NULL)`. -/
def resizeProbe (table : List Entry) (hash : Nat) : Option Nat :=
  (probes (table.length - 1) (table.length + 13) (hash &&& (table.length - 1)) hash).find?
    fun j => (table.getD j Entry.zero).key.isNone

/-- One round of the loop of `dict_resize` over the old table; `none` for a probe that finds
no slot. -/
def resizeEntry (table : List Entry) (old : Entry) : Option (List Entry) :=
  if old.key.isNone ∨ old.isDummy then some table
  else (resizeProbe table old.hash).map fun j => table.set j old

/-- `dict_resize`, once its `calloc` has succeeded. -/
def dictResize (d : Dict) (newLen : Nat) : Option Dict :=
  (d.table.foldlM resizeEntry (List.replicate newLen Entry.zero)).map fun table =>
    ⟨table, d.count, d.count⟩

/-- `ent->d_hash = hash; ent->d_key = key`. -/
def Dict.put (d : Dict) (i hash : Nat) (key : KeyPtr) : Dict :=
  { d with table := d.table.set i ⟨hash, some key⟩ }

/-- `dict_entry_set`: the return code and the dictionary it leaves; `none` for a call that does
not return. -/
def dictEntrySet (d : Dict) (ent hash : Nat) (key : KeyPtr) : Option (Int × Dict) :=
  let e := d.entry ent
  if e.key.isSome then some (0, d.put ent hash key)
  else if e.isDummy then some (0, { d with count := d.count + 1 }.put ent hash key)
  else
    let newLoad := d.load + 1
    if wrap (3 * newLoad) ≥ wrap (2 * d.tableLen) then
      let newCount := d.count + 1
      let newLen := growTableLen newCount 64 d.tableLen
      if newCount ≥ newLen then some (-1, d)
      else if ¬ callocFits newLen then some (-1, d)
      else
        (dictResize d newLen).map fun d =>
          match dictEntryRef d hash key.text with
          | none => (-1, d)
          | some ent =>
              (0, { d with load := d.load + 1, count := d.count + 1 }.put ent hash key)
    else some (0, { d with load := d.load + 1, count := d.count + 1 }.put ent hash key)

/-- `dict_set`. -/
def dictSet (d : Dict) (key : KeyPtr) : Option (Int × Dict) :=
  let hash := dictStrhash key.text
  match dictEntryRef d hash key.text with
  | none => some (-1, d)
  | some ent =>
      if (d.entry ent).key.isSome then
        some (0, { d with table := d.table.set ent { d.entry ent with key := some key } })
      else dictEntrySet d ent hash key

/-- `dict_shrink`: an empty table that is a third full of marks is cleared. -/
def dictShrink (d : Dict) : Dict :=
  if d.count = 0 ∧ d.load > d.tableLen / 3 then
    { d with table := List.replicate d.tableLen Entry.zero, load := 0 }
  else d

/-- `dict_entry_remv` with `may_resize`. -/
def dictEntryRemv (d : Dict) (ent : Nat) : Option KeyPtr × Dict :=
  match (d.entry ent).key with
  | none => (none, d)
  | some key =>
      (some key,
        dictShrink { d with table := d.table.set ent ⟨hashDummy, none⟩, count := d.count - 1 })

/-- `dict_remv`. -/
def dictRemv (d : Dict) (key : CString) : Option KeyPtr × Dict :=
  match dictEntryRef d (dictStrhash key) key with
  | none => (none, d)
  | some ent => dictEntryRemv d ent

/-- `dict_ref`. -/
def dictRef (d : Dict) (key : CString) : Option KeyPtr :=
  match dictEntryRef d (dictStrhash key) key with
  | none => none
  | some ent => (d.entry ent).key

/-! ## The probe sequence reaches every slot -/

/-- One step of the probe loops on the pair `(i, perturb)`. -/
def advance (x : Nat × Nat) : Nat × Nat := (nextProbe x.1 x.2, x.2 >>> 5)

theorem mem_probes {mask n s : Nat} {x : Nat × Nat} :
    s ∈ probes mask n x.1 x.2 ↔ ∃ t < n, (advance^[t] x).1 &&& mask = s := by
  induction n generalizing x with
  | zero => simp [probes]
  | succ n ih =>
      have hrest : s ∈ probes mask n (nextProbe x.1 x.2) (x.2 >>> 5) ↔
          ∃ t < n, (advance^[t + 1] x).1 &&& mask = s := by
        simp only [Function.iterate_succ_apply]
        exact ih (x := advance x)
      rw [probes, List.mem_cons, hrest]
      constructor
      · rintro (h | ⟨t, ht, h⟩)
        · exact ⟨0, by omega, h.symm⟩
        · exact ⟨t + 1, by omega, h⟩
      · rintro ⟨t, ht, h⟩
        cases t with
        | zero => exact Or.inl h.symm
        | succ t => exact Or.inr ⟨t, by omega, h⟩

/-- Five bits of the perturbation are used up at a time. -/
theorem advance_iterate_snd (t : Nat) (x : Nat × Nat) :
    (advance^[t] x).2 = x.2 >>> (5 * t) := by
  induction t with
  | zero => simp
  | succ t ih =>
      rw [Function.iterate_succ_apply']
      show (advance^[t] x).2 >>> 5 = x.2 >>> (5 * (t + 1))
      rw [ih, ← Nat.shiftRight_add]
      congr 1

/-- Once the perturbation is used up, the probe is the map `i ↦ 5 * i + 1`, whose iterates are
read off the powers of five modulo `4 * 2 ^ k`. -/
theorem advance_iterate_fst {k : Nat} (hk : k ≤ 64) (t i : Nat) :
    (4 * ((advance^[t] (i, 0)).1 : ZMod (2 ^ (k + 2))) + 1) = 5 ^ t * (4 * (i : ZMod _) + 1) := by
  have hwrap : ∀ n : Nat, (4 * (wrap n : ZMod (2 ^ (k + 2)))) = 4 * (n : ZMod _) := by
    intro n
    have hn : n = wrap n + 2 ^ 64 * (n / 2 ^ 64) := (Nat.mod_add_div n (2 ^ 64)).symm
    have hzero : ((4 * 2 ^ 64 : Nat) : ZMod (2 ^ (k + 2))) = 0 := by
      rw [ZMod.natCast_eq_zero_iff]
      have : (4 * 2 ^ 64 : Nat) = 2 ^ (k + 2) * 2 ^ (64 - k) := by
        rw [← pow_add, show k + 2 + (64 - k) = 2 + 64 by omega, pow_add]
        norm_num
      exact this ▸ Dvd.intro _ rfl
    conv_rhs => rw [hn]
    push_cast at hzero ⊢
    linear_combination (-(n / 2 ^ 64 : Nat) : ZMod (2 ^ (k + 2))) * hzero
  induction t with
  | zero => simp
  | succ t ih =>
      have hsnd : (advance^[t] (i, 0)).2 = 0 := by rw [advance_iterate_snd]; simp
      rw [Function.iterate_succ_apply']
      rw [advance, hsnd, nextProbe, hwrap, Nat.shiftLeft_eq]
      push_cast
      linear_combination 5 * ih

/-- The first `2 ^ k` probes after that are all in different slots. -/
theorem probe_injective {k : Nat} (hk : k ≤ 64) {i t t' : Nat} (ht : t < 2 ^ k) (ht' : t' < 2 ^ k)
    (h : (advance^[t] (i, 0)).1 % 2 ^ k = (advance^[t'] (i, 0)).1 % 2 ^ k) : t = t' := by
  have hfour : ∀ a b : Nat, a % 2 ^ k = b % 2 ^ k →
      (4 * (a : ZMod (2 ^ (k + 2)))) = 4 * (b : ZMod _) := by
    intro a b hab
    have : (4 * a) % 2 ^ (k + 2) = (4 * b) % 2 ^ (k + 2) := by
      rw [show 2 ^ (k + 2) = 4 * 2 ^ k by rw [pow_add]; ring, Nat.mul_mod_mul_left,
        Nat.mul_mod_mul_left, hab]
    exact_mod_cast (ZMod.natCast_eq_natCast_iff' _ _ _).mpr this
  have hpow : (5 : ZMod (2 ^ (k + 2))) ^ t * (4 * (i : ZMod _) + 1) =
      5 ^ t' * (4 * (i : ZMod _) + 1) := by
    rw [← advance_iterate_fst hk, ← advance_iterate_fst hk, hfour _ _ h]
  have hunit : IsUnit ((4 * i + 1 : Nat) : ZMod (2 ^ (k + 2))) := by
    rw [ZMod.isUnit_iff_coprime]
    apply Nat.Coprime.pow_right
    rw [Nat.coprime_two_right]
    exact ⟨2 * i, by ring⟩
  have hfive : (5 : ZMod (2 ^ (k + 2))) ^ t = 5 ^ t' := by
    apply hunit.mul_right_cancel
    push_cast
    exact hpow
  have hinj := pow_injOn_Iio_orderOf (x := (5 : ZMod (2 ^ (k + 2))))
  rw [ZMod.orderOf_five] at hinj
  exact hinj ht ht' hfive

/-- **Every slot is probed.**  In a table whose length is a power of two, 13 probes use up the
perturbation and as many more as the table has slots visit each of them. -/
theorem mem_probes_all {k : Nat} (hk : k ≤ 64) {hash s : Nat} (hhash : hash < 2 ^ 64)
    (hs : s < 2 ^ k) :
    s ∈ probes (2 ^ k - 1) (2 ^ k + 13) (hash &&& (2 ^ k - 1)) hash := by
  obtain ⟨i, hi⟩ : ∃ i, advance^[13] (hash &&& (2 ^ k - 1), hash) = (i, 0) := by
    refine ⟨_, Prod.ext rfl ?_⟩
    rw [advance_iterate_snd, Nat.shiftRight_eq_div_pow]
    exact Nat.div_eq_of_lt (lt_trans hhash (by norm_num))
  let slot : Fin (2 ^ k) → Fin (2 ^ k) := fun t =>
    ⟨(advance^[t.val] (i, 0)).1 % 2 ^ k, Nat.mod_lt _ (Nat.two_pow_pos k)⟩
  have hinj : Function.Injective slot := by
    intro t t' htt'
    have h : (advance^[t.val] (i, 0)).1 % 2 ^ k = (advance^[t'.val] (i, 0)).1 % 2 ^ k := by
      simpa [slot] using htt'
    exact Fin.ext (probe_injective hk t.isLt t'.isLt h)
  obtain ⟨t, ht⟩ := Finite.surjective_of_injective hinj ⟨s, hs⟩
  have hslot : (advance^[t.val] (i, 0)).1 % 2 ^ k = s := by simpa [slot] using ht
  apply (mem_probes (x := (hash &&& (2 ^ k - 1), hash))).mpr
  refine ⟨t.val + 13, by omega, ?_⟩
  rw [Function.iterate_add_apply, hi, Nat.and_two_pow_sub_one_eq_mod, hslot]

/-! ## What a lookup sees -/

/-- An entry that no key has ever stood in. -/
def Entry.isUnused (e : Entry) : Bool := !e.isDummy && e.key.isNone

/-- `table[i]`, for a table by itself. -/
def entryAt (table : List Entry) (i : Nat) : Entry := table.getD i Entry.zero

theorem entryAt_set {table : List Entry} {s : Nat} (hs : s < table.length) (e : Entry) (i : Nat) :
    entryAt (table.set s e) i = if i = s then e else entryAt table i := by
  unfold entryAt
  rw [List.getD_eq_getElem?_getD, List.getD_eq_getElem?_getD]
  by_cases hi : i = s
  · subst hi
    rw [List.getElem?_set_self hs, if_pos rfl]
    rfl
  · rw [List.getElem?_set_ne (Ne.symm hi), if_neg hi]

theorem entryAt_replicate (n i : Nat) : entryAt (List.replicate n Entry.zero) i = Entry.zero := by
  unfold entryAt
  rw [List.getD_eq_getElem?_getD, List.getElem?_replicate]
  split_ifs <;> rfl

theorem lt_length_of_key {table : List Entry} {i : Nat} {p : KeyPtr}
    (h : (entryAt table i).key = some p) : i < table.length := by
  by_contra hi
  rw [entryAt, List.getD_eq_getElem?_getD, List.getElem?_eq_none (by omega)] at h
  exact absurd h (by simp [Entry.zero])

theorem entryAt_mem {table : List Entry} {i : Nat} (hi : i < table.length) :
    entryAt table i ∈ table := by
  rw [entryAt, List.getD_eq_getElem?_getD, List.getElem?_eq_getElem hi]
  exact List.getElem_mem hi

/-- What the walk for a key sees in a slot. -/
def see (d : Dict) (hash : Nat) (key : CString) (j : Nat) : Probe :=
  let ent := d.entry j
  if ent.isDummy then .deleted
  else
    match ent.key with
    | none => .unused
    | some k => if ent.hash = hash ∧ k.text = key then .hit else .other

theorem see_unused {d : Dict} {hash : Nat} {key : CString} {j : Nat} :
    see d hash key j = .unused ↔ (entryAt d.table j).isUnused := by
  have hentry : d.entry j = entryAt d.table j := rfl
  rw [see, hentry, Entry.isUnused]
  cases hd : (entryAt d.table j).isDummy with
  | true => simp
  | false =>
      cases hk : (entryAt d.table j).key with
      | none => simp
      | some k => simp only [Bool.false_eq_true, if_false]; split_ifs <;> simp

theorem refLoop_eq (d : Dict) (hash : Nat) (key : CString) (steps i perturb : Nat)
    (dummy : Option Nat) :
    refLoop d hash key steps i perturb dummy =
      scan (see d hash key)
        (probes (d.tableLen - 1) steps (nextProbe i perturb) (perturb >>> 5)) dummy := by
  induction steps generalizing i perturb dummy with
  | zero => rfl
  | succ steps ih =>
      rw [refLoop, probes, scan, see]
      cases (d.entry (nextProbe i perturb &&& (d.tableLen - 1))).isDummy with
      | true => simp [ih]
      | false =>
          cases (d.entry (nextProbe i perturb &&& (d.tableLen - 1))).key with
          | none => simp
          | some k =>
              simp only [Bool.false_eq_true, if_false]
              split_ifs with h <;> simp [ih]

/-- **The lookup is a walk along the path of the hash.** -/
theorem dictEntryRef_eq {d : Dict} (hlen : 0 < d.tableLen) (hash : Nat) (key : CString) :
    dictEntryRef d hash key = scan (see d hash key) (path d.tableLen hash) none := by
  obtain ⟨n, hn⟩ : ∃ n, d.tableLen = n + 1 := ⟨d.tableLen - 1, by omega⟩
  have hmask : (hash &&& (d.tableLen - 1)) &&& (d.tableLen - 1) = hash &&& (d.tableLen - 1) := by
    rw [Nat.and_assoc, Nat.and_self]
  have hpath : path d.tableLen hash = (hash &&& (d.tableLen - 1)) ::
      probes (d.tableLen - 1) (d.tableLen - 1) (nextProbe (hash &&& (d.tableLen - 1)) hash)
        (hash >>> 5) := by
    rw [path]
    conv_lhs => rw [hn, probes, ← hn, hmask]
    rw [show n = d.tableLen - 1 by omega]
  rw [dictEntryRef, if_neg (by omega), hpath, scan, see]
  cases hd : (d.entry (hash &&& (d.tableLen - 1))).isDummy with
  | true => simp [hd, refLoop_eq]
  | false =>
      cases hk : (d.entry (hash &&& (d.tableLen - 1))).key with
      | none => simp [hd, hk]
      | some k =>
          simp only [hd, hk, Bool.false_eq_true, if_false]
          split_ifs with h <;> simp [refLoop_eq]

theorem mem_probes_lt {mask n i perturb s : Nat} (h : s ∈ probes mask n i perturb) :
    s ≤ mask := by
  obtain ⟨t, -, rfl⟩ := (mem_probes (x := (i, perturb))).mp h
  exact Nat.and_le_right

theorem mem_path_lt {len hash s : Nat} (hlen : 0 < len) (h : s ∈ path len hash) : s < len := by
  have := mem_probes_lt h
  omega

theorem dictStrhash_lt (s : CString) : dictStrhash s < 2 ^ 63 :=
  Nat.mod_lt _ (by norm_num [hashDummy])

/-! ## Sound tables -/

/-- A key stands in the table. -/
def Stands (table : List Entry) (p : KeyPtr) : Prop := ∃ i, (entryAt table i).key = some p

/-- Every key of the table carries its own hash, stands where the lookup of its text gets to,
and stands there alone. -/
structure Sound (table : List Entry) : Prop where
  hash : ∀ i p, (entryAt table i).key = some p → (entryAt table i).hash = dictStrhash p.text
  reach : ∀ i p, (entryAt table i).key = some p →
    Reachable (fun r => (entryAt table r).isUnused) i (path table.length (dictStrhash p.text))
  alone : ∀ i j p q, (entryAt table i).key = some p → (entryAt table j).key = some q →
    p.text = q.text → i = j

/-- Every key of the table carries its own hash and stands there alone. -/
structure Keyed (table : List Entry) : Prop where
  hash : ∀ i p, (entryAt table i).key = some p → (entryAt table i).hash = dictStrhash p.text
  alone : ∀ i j p q, (entryAt table i).key = some p → (entryAt table j).key = some q →
    p.text = q.text → i = j

/-- No key stands beyond the bound of its lookup. -/
def Bounded (table : List Entry) : Prop :=
  ∀ i p, (entryAt table i).key = some p → i ∈ path table.length (dictStrhash p.text)

/-- Sound up to keys that stand beyond the bound of their lookup. -/
structure Loose (table : List Entry) : Prop extends Keyed table where
  reach : ∀ i p, (entryAt table i).key = some p → i ∈ path table.length (dictStrhash p.text) →
    Reachable (fun r => (entryAt table r).isUnused) i (path table.length (dictStrhash p.text))

theorem sound_iff {table : List Entry} : Sound table ↔ Loose table ∧ Bounded table :=
  ⟨fun h => ⟨⟨⟨h.hash, h.alone⟩, fun i p hp _ => h.reach i p hp⟩, fun i p hp => (h.reach i p hp).mem⟩,
    fun h => ⟨h.1.hash, fun i p hp => h.1.reach i p hp (h.2 i p hp), h.1.alone⟩⟩

theorem Sound.keyed {table : List Entry} (h : Sound table) : Keyed table := ⟨h.hash, h.alone⟩

/-- The finite map that a table stands for. -/
def Contents (table : List Entry) (m : CString → Option KeyPtr) : Prop :=
  ∀ t p, m t = some p ↔ p.text = t ∧ Stands table p

theorem Keyed.not_isDummy {table : List Entry} (h : Keyed table) {i : Nat} {p : KeyPtr}
    (hp : (entryAt table i).key = some p) : (entryAt table i).isDummy = false := by
  rw [Entry.isDummy, h.hash i p hp]
  exact Nat.testBit_lt_two_pow (dictStrhash_lt _)

theorem sound_replicate (n : Nat) : Sound (List.replicate n Entry.zero) := by
  have hnone : ∀ i p, (entryAt (List.replicate n Entry.zero) i).key ≠ some p := by
    intro i p
    rw [entryAt_replicate]
    simp [Entry.zero]
  exact ⟨fun i p h => absurd h (hnone i p), fun i p h => absurd h (hnone i p),
    fun i _ p _ h => absurd h (hnone i p)⟩

theorem contents_replicate (n : Nat) : Contents (List.replicate n Entry.zero) fun _ => none := by
  intro t p
  constructor
  · simp
  · rintro ⟨-, i, hi⟩
    rw [entryAt_replicate] at hi
    simp [Entry.zero] at hi

section Lookup

variable {d : Dict} (hlen : 0 < d.tableLen) (hs : Keyed d.table)
include hlen hs

omit hlen in
theorem see_hit {i : Nat} {p : KeyPtr} (hp : (entryAt d.table i).key = some p) (r : Nat) :
    see d (dictStrhash p.text) p.text r = .hit ↔ r = i := by
  have hentry : d.entry r = entryAt d.table r := rfl
  rw [see, hentry]
  constructor
  · intro h
    cases hk : (entryAt d.table r).key with
    | none =>
        rw [hk] at h
        simp only at h
        split_ifs at h
    | some q =>
        rw [hk, hs.not_isDummy hk] at h
        simp only [Bool.false_eq_true, if_false] at h
        split_ifs at h with hq
        exact hs.alone r i q p hk hp hq.2
  · rintro rfl
    rw [hp, hs.not_isDummy hp]
    simp [hs.hash r p hp]

/-- **A key that the lookup gets to is found.** -/
theorem dictEntryRef_of_reachable {i : Nat} {p : KeyPtr} (hp : (entryAt d.table i).key = some p)
    (hreach : Reachable (fun r => (entryAt d.table r).isUnused) i
      (path d.table.length (dictStrhash p.text))) :
    dictEntryRef d (dictStrhash p.text) p.text = some i := by
  rw [dictEntryRef_eq hlen]
  apply scan_of_reachable (see_hit hs hp)
  simp only [see_unused]
  exact hreach

omit hlen in
theorem see_not_hit {t : CString} (hmiss : ∀ p, Stands d.table p → p.text ≠ t) (hash r : Nat) :
    see d hash t r ≠ .hit := by
  have hentry : d.entry r = entryAt d.table r := rfl
  rw [see, hentry]
  cases hk : (entryAt d.table r).key with
  | none => simp only; split_ifs <;> simp
  | some q =>
      simp only [hs.not_isDummy hk, Bool.false_eq_true, if_false]
      rw [if_neg (fun h => hmiss q ⟨r, hk⟩ h.2)]
      simp

/-- **For a missing key the lookup offers the first slot of the path without a key**, when it
offers one. -/
theorem dictEntryRef_of_missing {t : CString} (hmiss : ∀ p, Stands d.table p → p.text ≠ t)
    {s : Nat} (h : dictEntryRef d (dictStrhash t) t = some s) :
    (path d.tableLen (dictStrhash t)).find? (fun r => (entryAt d.table r).key.isNone) = some s := by
  have hmiss' : ∀ r ∈ path d.tableLen (dictStrhash t), see d (dictStrhash t) t r ≠ .hit :=
    fun r _ => see_not_hit hs hmiss _ r
  rw [dictEntryRef_eq hlen] at h
  rw [← h, scan_of_missing hmiss' (by rw [h]; rfl)]
  apply List.find?_congr
  intro r _
  have hentry : d.entry r = entryAt d.table r := rfl
  rw [see, hentry]
  cases hk : (entryAt d.table r).key with
  | none => cases (entryAt d.table r).isDummy <;> simp
  | some q =>
      simp only [hs.not_isDummy hk, Bool.false_eq_true, if_false]
      split_ifs <;> simp

/-- It offers one exactly when it meets an unused slot. -/
theorem dictEntryRef_isSome_iff {t : CString} (hmiss : ∀ p, Stands d.table p → p.text ≠ t) :
    (dictEntryRef d (dictStrhash t) t).isSome ↔
      ∃ r ∈ path d.tableLen (dictStrhash t), (entryAt d.table r).isUnused := by
  rw [dictEntryRef_eq hlen, scan_isSome_iff (fun r _ => see_not_hit hs hmiss _ r)]
  simp only [see_unused]

omit hs in
/-- **A key that stands in a sound table is found.** -/
theorem dictEntryRef_of_key (hs : Sound d.table) {i : Nat} {p : KeyPtr}
    (hp : (entryAt d.table i).key = some p) : dictEntryRef d (dictStrhash p.text) p.text = some i :=
  dictEntryRef_of_reachable hlen hs.keyed hp (hs.reach i p hp)

/-- The key that `dict_ref` gives has the text and stands where its lookup visits. -/
theorem exists_of_dictRef {t : CString} {p : KeyPtr} (h : dictRef d t = some p) :
    p.text = t ∧ ∃ i ∈ path d.tableLen (dictStrhash t), (entryAt d.table i).key = some p := by
  rw [dictRef] at h
  cases href : dictEntryRef d (dictStrhash t) t with
  | none =>
      rw [href] at h
      cases h
  | some s =>
      rw [href] at h
      have hkey : (entryAt d.table s).key = some p := h
      have hscan := href
      rw [dictEntryRef_eq hlen] at hscan
      rcases scan_eq_some hscan with hmark | ⟨hmem, hother⟩
      · cases hmark
      refine ⟨?_, s, hmem, hkey⟩
      have hentry : d.entry s = entryAt d.table s := rfl
      simp only [see, hentry, hs.not_isDummy hkey, hkey, Bool.false_eq_true, if_false] at hother
      by_contra ht
      exact hother (if_neg fun h => ht h.2)

omit hs in
/-- **`dict_ref` finds the keys within the bound of their lookup, and no others.** -/
theorem dictRef_eq_some_iff (hs : Loose d.table) {t : CString} {p : KeyPtr} :
    dictRef d t = some p ↔
      p.text = t ∧ ∃ i ∈ path d.tableLen (dictStrhash t), (entryAt d.table i).key = some p := by
  constructor
  · exact exists_of_dictRef hlen hs.toKeyed
  · rintro ⟨rfl, i, hi, hkey⟩
    rw [dictRef, dictEntryRef_of_reachable hlen hs.toKeyed hkey (hs.reach i p hkey hi)]
    exact hkey

omit hs in
/-- **`dict_ref` reads the map.** -/
theorem dictRef_eq (hs : Sound d.table) {m : CString → Option KeyPtr} (hm : Contents d.table m)
    (t : CString) : dictRef d t = m t := by
  cases hmt : m t with
  | some p =>
      obtain ⟨rfl, i, hi⟩ := (hm t p).mp hmt
      rw [dictRef, dictEntryRef_of_key hlen hs hi]
      exact hi
  | none =>
      have hmiss : ∀ p, Stands d.table p → p.text ≠ t := by
        intro p hp hpt
        rw [(hm t p).mpr ⟨hpt, hp⟩] at hmt
        simp at hmt
      cases href : dictEntryRef d (dictStrhash t) t with
      | none => rw [dictRef, href]
      | some s =>
          rw [dictRef, href]
          have hfree := List.find?_some (dictEntryRef_of_missing hlen hs.keyed hmiss href)
          exact Option.isNone_iff_eq_none.mp hfree

end Lookup

/-! ## Writing one entry -/

section Write

variable {table : List Entry}

/-- A write that leaves the slot used keeps every other key where it is found. -/
theorem Loose.set (hs : Loose table) {s : Nat} {e : Entry} (hlt : s < table.length)
    (hused : e.isUnused = false) (hhash : ∀ p, e.key = some p → e.hash = dictStrhash p.text)
    (hreach : ∀ p, e.key = some p → s ∈ path table.length (dictStrhash p.text) →
      Reachable (fun r => (entryAt table r).isUnused) s (path table.length (dictStrhash p.text)))
    (halone : ∀ p, e.key = some p → ∀ i q, i ≠ s → (entryAt table i).key = some q →
      p.text ≠ q.text) :
    Loose (table.set s e) := by
  have hmono : ∀ r, (entryAt (table.set s e) r).isUnused → (entryAt table r).isUnused := by
    intro r hr
    rw [entryAt_set hlt] at hr
    split_ifs at hr with h
    · rw [hused] at hr
      simp at hr
    · exact hr
  refine ⟨⟨?_, ?_⟩, ?_⟩
  · intro i p hp
    rw [entryAt_set hlt] at hp ⊢
    split_ifs at hp ⊢ with h
    · exact hhash p hp
    · exact hs.hash i p hp
  · intro i j p q hp hq hpq
    rw [entryAt_set hlt] at hp hq
    split_ifs at hp hq with hi hj hj
    · rw [hi, hj]
    · exact absurd hpq (halone p hp j q hj hq)
    · exact absurd hpq.symm (halone q hq i p hi hp)
    · exact hs.alone i j p q hp hq hpq
  · intro i p hp hi
    rw [List.length_set] at hi ⊢
    apply Reachable.mono hmono
    rw [entryAt_set hlt] at hp
    split_ifs at hp with h
    · subst h
      exact hreach p hp hi
    · exact hs.reach i p hp hi

/-- A write keeps the other keys within their bounds. -/
theorem bounded_set {s : Nat} {e : Entry} (hlt : s < table.length)
    (hold : ∀ i p, i ≠ s → (entryAt table i).key = some p → i ∈ path table.length (dictStrhash p.text))
    (hnew : ∀ p, e.key = some p → s ∈ path table.length (dictStrhash p.text)) :
    Bounded (table.set s e) := by
  intro i p hp
  rw [List.length_set]
  rw [entryAt_set hlt] at hp
  split_ifs at hp with h
  · rw [h]
    exact hnew p hp
  · exact hold i p h hp

/-- A write into a sound table, at a slot that the lookup of the new key gets to. -/
theorem Sound.set (hs : Sound table) {s : Nat} {e : Entry} (hlt : s < table.length)
    (hused : e.isUnused = false) (hhash : ∀ p, e.key = some p → e.hash = dictStrhash p.text)
    (hreach : ∀ p, e.key = some p →
      Reachable (fun r => (entryAt table r).isUnused) s (path table.length (dictStrhash p.text)))
    (halone : ∀ p, e.key = some p → ∀ i q, i ≠ s → (entryAt table i).key = some q →
      p.text ≠ q.text) :
    Sound (table.set s e) := by
  obtain ⟨hloose, hbounded⟩ := sound_iff.mp hs
  refine sound_iff.mpr ⟨hloose.set hlt hused hhash (fun p hp _ => hreach p hp) halone, ?_⟩
  exact bounded_set hlt (fun i p _ hp => hbounded i p hp) (fun p hp => (hreach p hp).mem)

theorem stands_set {s : Nat} {e : Entry} (hlt : s < table.length) (p : KeyPtr) :
    Stands (table.set s e) p ↔ e.key = some p ∨ ∃ i ≠ s, (entryAt table i).key = some p := by
  constructor
  · rintro ⟨i, hi⟩
    rw [entryAt_set hlt] at hi
    split_ifs at hi with h
    · exact Or.inl hi
    · exact Or.inr ⟨i, h, hi⟩
  · rintro (h | ⟨i, hne, hi⟩)
    · exact ⟨s, by rw [entryAt_set hlt, if_pos rfl]; exact h⟩
    · exact ⟨i, by rw [entryAt_set hlt, if_neg hne]; exact hi⟩

/-- Writing a key into a slot that held no other text puts it into the map. -/
theorem Contents.put {m : CString → Option KeyPtr} (hm : Contents table m) {s hash : Nat}
    {p : KeyPtr} (hlt : s < table.length)
    (hslot : ∀ i q, (entryAt table i).key = some q → (q.text = p.text ↔ i = s)) :
    Contents (table.set s ⟨hash, some p⟩) (Function.update m p.text (some p)) := by
  intro t q
  rw [stands_set hlt]
  by_cases ht : t = p.text
  · subst ht
    rw [Function.update_self]
    constructor
    · intro h
      obtain rfl : p = q := by simpa using h
      exact ⟨rfl, Or.inl rfl⟩
    · rintro ⟨htext, h | ⟨i, hne, hi⟩⟩
      · exact h
      · exact absurd ((hslot i q hi).mp htext) hne
  · rw [Function.update_of_ne ht, hm t q]
    constructor
    · rintro ⟨rfl, i, hi⟩
      refine ⟨rfl, Or.inr ⟨i, ?_, hi⟩⟩
      intro his
      exact ht ((hslot i q hi).mpr his)
    · rintro ⟨rfl, h | ⟨i, -, hi⟩⟩
      · obtain rfl : p = q := by simpa using h
        exact absurd rfl ht
      · exact ⟨rfl, i, hi⟩

/-- Marking the slot of a key deleted takes it out of the map. -/
theorem Contents.remove {m : CString → Option KeyPtr} (hm : Contents table m) (hs : Sound table) {s hash : Nat}
    {p : KeyPtr} (hp : (entryAt table s).key = some p) :
    Contents (table.set s ⟨hash, none⟩) (Function.update m p.text none) := by
  intro t q
  rw [stands_set (lt_length_of_key hp)]
  by_cases ht : t = p.text
  · subst ht
    rw [Function.update_self]
    constructor
    · simp
    · rintro ⟨htext, h | ⟨i, hne, hi⟩⟩
      · simp at h
      · exact absurd (hs.alone i s q p hi hp htext) hne
  · rw [Function.update_of_ne ht, hm t q]
    constructor
    · rintro ⟨rfl, i, hi⟩
      refine ⟨rfl, Or.inr ⟨i, ?_, hi⟩⟩
      rintro rfl
      rw [hp] at hi
      exact ht (by simp at hi; rw [hi])
    · rintro ⟨rfl, h | ⟨i, -, hi⟩⟩
      · simp at h
      · exact ⟨rfl, i, hi⟩

end Write

end MonitorDict
