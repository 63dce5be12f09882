/-
# Building a schema

`schema_init` cuts a definition at blanks, parses each piece to an entry, numbers the entries while it sets their
keys in the dictionary, and then walks the dictionary to write each entry at its number into an array.

* `schemaInit` follows the source; an entry is allocated at the next place of `heap`, and the address of its key
  is that place;
* `Schema.Indexed` says that the array is full, that the entry at `i` has the number `i`, and that the lookup of
  its key gives `i`;
* `schemaInit_indexed_iff` says for which definitions it holds: for those without a repeated key whose numbers an
  `int` holds and whose keys settle when the dictionary grows for the last time.
-/
import HpcPerfStats.DictGrowth
import HpcPerfStats.SchemaEntryParse

namespace SchemaInit

open MonitorDict SchemaEntryParse

/-! ## Entries and schemas -/

/-- A byte string as a text, one character a byte. -/
def byteText (s : CString) : String :=
  String.ofList (s.map fun b => Char.ofNat b.toNat)

/-- `struct schema_entry`. -/
structure SchemaEntry where
  parsed : SchemaEntryParse.Entry
  index : ℕ
  deriving DecidableEq

/-- `se_key`. -/
def SchemaEntry.key (se : SchemaEntry) : CString := cstr se.parsed.key

/-- `struct schema`, with the entries that were allocated for it. -/
structure Schema where
  len : ℕ
  ent : List (Option SchemaEntry)
  dict : Dict
  heap : List SchemaEntry
  deriving DecidableEq

/-- What `schema_init_abort` leaves. -/
def Schema.zero : Schema := ⟨0, [], ⟨[], 0, 0⟩, []⟩

/-- `key_to_schema_entry`. -/
def keyToSchemaEntry (heap : List SchemaEntry) (key : KeyPtr) : Option SchemaEntry := heap[key.addr]?

/-- `(int)n` of an `unsigned int`. -/
def toInt (n : ℕ) : ℤ := if n < 2 ^ 31 then n else n - 2 ^ 32

/-- `schema_ref`. -/
def schemaRef (sc : Schema) (key : CString) : ℤ :=
  match (dictRef sc.dict key).bind (keyToSchemaEntry sc.heap) with
  | none => -1
  | some se => toInt (se.index % 2 ^ 32)

/-! ## `schema_init` -/

/-- The separators of `wsep`. -/
def isWsep (b : UInt8) : Bool := b == 32 || (9 ≤ b && b ≤ 13)

/-- The tokens that `wsep` gives one after another. -/
def wsepTokens (s : CString) : List CString :=
  (s.splitOnP isWsep).filter fun tok => !tok.isEmpty

/-- The loop over the tokens; `none` inside for `goto err_abort`, outside for a call that does not return. -/
def schemaLoop : Dict → List SchemaEntry → List CString → Option (Option (Dict × List SchemaEntry))
  | dict, heap, [] => some (some (dict, heap))
  | dict, heap, tok :: toks =>
      match parseSchemaEntry (byteText tok) with
      | none => some none
      | some parsed =>
          let se : SchemaEntry := ⟨parsed, heap.length % 2 ^ 32⟩
          match dictSet dict ⟨heap.length, se.key⟩ with
          | none => none
          | some (rc, dict) => if rc < 0 then some none else schemaLoop dict (heap ++ [se]) toks

/-- `sc->sc_ent[se->se_index] = se`, for an entry of the table. -/
def fillOne (heap : List SchemaEntry) (ent : List (Option SchemaEntry)) (e : MonitorDict.Entry) :
    List (Option SchemaEntry) :=
  match e.key.bind (keyToSchemaEntry heap) with
  | none => ent
  | some se => ent.set se.index (some se)

/-- `schema_fill_entry_array`, once its `calloc` has succeeded. -/
def schemaFillEntryArray (heap : List SchemaEntry) (dict : Dict) : List (Option SchemaEntry) :=
  dict.table.foldl (fillOne heap) (List.replicate heap.length none)

/-- `schema_init`: the return code and the schema it leaves; `none` for a call that does not return. -/
def schemaInit (definition : CString) : Option (Int × Schema) :=
  match dictInit 0 with
  | none => some (-1, Schema.zero)
  | some dict =>
      (schemaLoop dict [] (wsepTokens definition)).map fun r =>
        match r with
        | none => (-1, Schema.zero)
        | some (dict, heap) =>
            if heap.length * 8 ≥ 2 ^ 64 then (-1, Schema.zero)
            else (0, ⟨heap.length, schemaFillEntryArray heap dict, dict, heap⟩)

/-! ## What a schema should be -/

/-- The array has an entry at each place, which has the number of that place, and whose key is looked up to it. -/
structure Schema.Indexed (sc : Schema) : Prop where
  length : sc.ent.length = sc.len
  entry : ∀ i < sc.len, ∃ se, sc.ent[i]? = some (some se) ∧ se.index = i ∧ schemaRef sc se.key = i

/-- The keys of tokens. -/
def keysOf (toks : List CString) : List CString :=
  toks.filterMap fun tok => (parseSchemaEntry (byteText tok)).map fun parsed => cstr parsed.key

/-- The keys that a definition defines, in order. -/
def definedKeys (definition : CString) : List CString := keysOf (wsepTokens definition)

/-- Keys at the addresses from `n` on. -/
def ptrsFrom (n : ℕ) (keys : List CString) : List KeyPtr :=
  keys.mapIdx fun i text => ⟨n + i, text⟩

/-- When the dictionary grows for the last time, the keys that it holds settle within the bound of the lookup. -/
def LastGrowthSettles (keys : List CString) : Prop :=
  ∀ d ∈ dictInit 0, ∀ g ∈ beforeLastGrowth d (ptrsFrom 0 keys), GrowthSettles g

/-! ## The loop -/

theorem ptrsFrom_cons (n : ℕ) (key : CString) (keys : List CString) :
    ptrsFrom n (key :: keys) = ⟨n, key⟩ :: ptrsFrom (n + 1) keys := by
  unfold ptrsFrom
  rw [List.mapIdx_cons, Nat.add_zero]
  congr 2
  funext i text
  rw [show n + (i + 1) = n + 1 + i by omega]

/-- One round that goes on. -/
theorem schemaLoop_cons {tok : CString} {toks : List CString} {dict : Dict} {heap : List SchemaEntry}
    {r : Dict × List SchemaEntry} (h : schemaLoop dict heap (tok :: toks) = some (some r)) :
    ∃ parsed dict₁, parseSchemaEntry (byteText tok) = some parsed ∧
      dictSet dict ⟨heap.length, cstr parsed.key⟩ = some (0, dict₁) ∧
      schemaLoop dict₁ (heap ++ [⟨parsed, heap.length % 2 ^ 32⟩]) toks = some (some r) := by
  rw [schemaLoop] at h
  cases hparse : parseSchemaEntry (byteText tok) with
  | none =>
      rw [hparse] at h
      cases h
  | some parsed =>
      rw [hparse] at h
      have hkey : SchemaEntry.key ⟨parsed, heap.length % 2 ^ 32⟩ = cstr parsed.key := rfl
      simp only [hkey] at h
      cases hset : dictSet dict ⟨heap.length, cstr parsed.key⟩ with
      | none =>
          rw [hset] at h
          cases h
      | some result =>
          obtain ⟨rc, dict₁⟩ := result
          rw [hset] at h
          simp only at h
          rcases dictSet_code hset with rfl | rfl
          · exact ⟨parsed, dict₁, rfl, hset, h⟩
          · rw [if_pos (by decide)] at h
            cases h

/-- **The loop** allocates one entry for each token, numbered in order, and sets their keys. -/
theorem schemaLoop_spec {toks : List CString} : ∀ {dict dict' : Dict} {heap heap' : List SchemaEntry},
    schemaLoop dict heap toks = some (some (dict', heap')) →
    ∃ new, heap' = heap ++ new ∧ new.map SchemaEntry.key = keysOf toks ∧
      (∀ i se, new[i]? = some se → se.index = (heap.length + i) % 2 ^ 32) ∧
      setAll dict (ptrsFrom heap.length (keysOf toks)) = some dict' := by
  induction toks with
  | nil =>
      intro dict dict' heap heap' h
      obtain ⟨rfl, rfl⟩ := Prod.mk.inj (Option.some.inj (Option.some.inj h))
      exact ⟨[], (List.append_nil _).symm, rfl, fun i se hi => by simp at hi, rfl⟩
  | cons tok toks ih =>
      intro dict dict' heap heap' h
      obtain ⟨parsed, dict₁, hparse, hset, hloop⟩ := schemaLoop_cons h
      obtain ⟨new, hheap, hmap, hindex, hall⟩ := ih hloop
      rw [List.length_append, List.length_singleton] at hindex hall
      have hkeys : keysOf (tok :: toks) = cstr parsed.key :: keysOf toks := by
        rw [keysOf, List.filterMap_cons, hparse]
        rfl
      refine ⟨⟨parsed, heap.length % 2 ^ 32⟩ :: new, by rw [hheap, List.append_assoc]; rfl, ?_, ?_, ?_⟩
      · rw [hkeys, ← hmap]
        rfl
      · intro i se hi
        cases i with
        | zero =>
            rw [← Option.some.inj hi]
            rfl
        | succ i => rw [hindex i se hi, show heap.length + 1 + i = heap.length + (i + 1) by omega]
      · rw [hkeys, ptrsFrom_cons, setAll, hset]
        exact hall

/-! ## The array -/

/-- Each place of the array holds nothing or an entry with the number of that place. -/
theorem foldl_fillOne_sound {heap : List SchemaEntry} (es : List MonitorDict.Entry) :
    ∀ {ent : List (Option SchemaEntry)},
      (∀ i se, ent[i]? = some (some se) → se ∈ heap ∧ se.index = i) →
      ∀ i se, (es.foldl (fillOne heap) ent)[i]? = some (some se) → se ∈ heap ∧ se.index = i := by
  induction es with
  | nil => exact fun h => h
  | cons e es ih =>
      intro ent h
      rw [List.foldl_cons]
      apply ih
      intro i se hi
      rw [fillOne] at hi
      cases hsome : e.key.bind (keyToSchemaEntry heap) with
      | none =>
          rw [hsome] at hi
          exact h i se hi
      | some se' =>
          rw [hsome] at hi
          obtain ⟨p, -, hp⟩ := Option.bind_eq_some_iff.mp hsome
          rw [List.getElem?_set] at hi
          split_ifs at hi with heq hlt
          · obtain rfl : se' = se := by simpa using hi
            exact ⟨List.mem_of_getElem? hp, heq⟩
          · exact h i se hi

theorem length_foldl_fillOne {heap : List SchemaEntry} (es : List MonitorDict.Entry) :
    ∀ ent : List (Option SchemaEntry), (es.foldl (fillOne heap) ent).length = ent.length := by
  induction es with
  | nil => exact fun ent => rfl
  | cons e es ih =>
      intro ent
      rw [List.foldl_cons, ih, fillOne]
      split
      · rfl
      · exact List.length_set

/-- An entry whose number no other entry has is at its place once it has been written. -/
theorem foldl_fillOne_complete {heap : List SchemaEntry} {se : SchemaEntry}
    (halone : ∀ se' ∈ heap, se'.index = se.index → se' = se) (es : List MonitorDict.Entry) :
    ∀ {ent : List (Option SchemaEntry)}, se.index < ent.length →
      (ent[se.index]? = some (some se) ∨ ∃ e ∈ es, e.key.bind (keyToSchemaEntry heap) = some se) →
      (es.foldl (fillOne heap) ent)[se.index]? = some (some se) := by
  induction es with
  | nil =>
      intro ent _ h
      rcases h with h | ⟨e, he, -⟩
      · exact h
      · cases he
  | cons e es ih =>
      intro ent hlt h
      rw [List.foldl_cons]
      have hlen : (fillOne heap ent e).length = ent.length := length_foldl_fillOne [e] ent
      refine ih (hlen ▸ hlt) ?_
      cases hsome : e.key.bind (keyToSchemaEntry heap) with
      | none =>
          have hskip : fillOne heap ent e = ent := by rw [fillOne, hsome]
          rw [hskip]
          refine h.imp_right ?_
          rintro ⟨e', he', hse⟩
          rcases List.mem_cons.mp he' with rfl | he'
          · rw [hsome] at hse
            cases hse
          · exact ⟨e', he', hse⟩
      | some se' =>
          have hset : fillOne heap ent e = ent.set se'.index (some se') := by rw [fillOne, hsome]
          obtain ⟨p, -, hp⟩ := Option.bind_eq_some_iff.mp hsome
          rw [hset]
          by_cases hindex : se'.index = se.index
          · obtain rfl := halone se' (List.mem_of_getElem? hp) hindex
            exact Or.inl (List.getElem?_set_self hlt)
          · rw [List.getElem?_set_ne hindex]
            refine h.imp_right ?_
            rintro ⟨e', he', hse⟩
            rcases List.mem_cons.mp he' with rfl | he'
            · rw [hsome] at hse
              exact absurd (congrArg SchemaEntry.index (Option.some.inj hse)) hindex
            · exact ⟨e', he', hse⟩

/-! ## When a schema is as it should be -/

/-- A schema that `schema_init` has built. -/
structure Built (keys : List CString) (sc : Schema) : Prop where
  len : sc.len = keys.length
  heap : sc.heap.map SchemaEntry.key = keys
  index : ∀ i se, sc.heap[i]? = some se → se.index = i % 2 ^ 32
  ent : sc.ent = schemaFillEntryArray sc.heap sc.dict
  dict : ∃ d, dictInit 0 = some d ∧ setAll d (ptrsFrom 0 keys) = some sc.dict

/-- **What a return code of 0 means.** -/
theorem built_of_schemaInit {definition : CString} {sc : Schema} (h : schemaInit definition = some (0, sc)) :
    Built (definedKeys definition) sc := by
  unfold schemaInit at h
  cases hinit : dictInit 0 with
  | none =>
      rw [hinit] at h
      cases h
  | some d =>
      rw [hinit] at h
      obtain ⟨r, hloop, hr⟩ := Option.map_eq_some_iff.mp h
      cases r with
      | none => cases hr
      | some r =>
          obtain ⟨dict, heap⟩ := r
          dsimp only at hr
          split_ifs at hr with hcalloc
          · cases hr
          obtain rfl := (Prod.mk.inj hr).2
          obtain ⟨new, hheap, hmap, hindex, hall⟩ := schemaLoop_spec hloop
          rw [List.nil_append] at hheap
          subst hheap
          refine ⟨?_, hmap, ?_, rfl, d, hinit, hall⟩
          · rw [definedKeys, ← hmap, List.length_map]
          · intro i se hi
            rw [hindex i se hi, List.length_nil, Nat.zero_add]

namespace Built

variable {keys : List CString} {sc : Schema} (h : Built keys sc)
include h

theorem heap_length : sc.heap.length = keys.length := by
  rw [← h.heap, List.length_map]

theorem key_of_heap {i : ℕ} {se : SchemaEntry} (hi : sc.heap[i]? = some se) : keys[i]? = some se.key := by
  rw [← h.heap, List.getElem?_map, hi]
  rfl

/-- With at most `2 ^ 32` entries the numbers are the places in the order of the definition. -/
theorem index_eq (hlen : keys.length ≤ 2 ^ 32) {i : ℕ} {se : SchemaEntry} (hi : sc.heap[i]? = some se) :
    se.index = i := by
  obtain ⟨hlt, -⟩ := List.getElem?_eq_some_iff.mp hi
  rw [h.index i se hi, Nat.mod_eq_of_lt (lt_of_lt_of_le hlt (h.heap_length ▸ hlen))]

/-- Each entry of the array is the one of its place in the definition. -/
theorem heap_of_ent (hlen : keys.length ≤ 2 ^ 32) {i : ℕ} {se : SchemaEntry}
    (hi : sc.ent[i]? = some (some se)) : sc.heap[i]? = some se := by
  rw [h.ent] at hi
  obtain ⟨hmem, hindex⟩ := foldl_fillOne_sound sc.dict.table (by
    intro j se' hj
    rw [List.getElem?_replicate] at hj
    split_ifs at hj
    cases Option.some.inj hj) i se hi
  obtain ⟨j, hj⟩ := List.getElem?_of_mem hmem
  have := h.index_eq hlen hj
  rwa [show j = i by omega] at hj

/-- An entry whose key stands in the dictionary is in the array. -/
theorem ent_of_stands (hlen : keys.length ≤ 2 ^ 32) {i : ℕ} {se : SchemaEntry} (hi : sc.heap[i]? = some se)
    {text : CString} (hstands : Stands sc.dict.table ⟨i, text⟩) : sc.ent[i]? = some (some se) := by
  have hindex := h.index_eq hlen hi
  have halone : ∀ se' ∈ sc.heap, se'.index = se.index → se' = se := by
    intro se' hse' heq
    obtain ⟨j, hj⟩ := List.getElem?_of_mem hse'
    have hj' := h.index_eq hlen hj
    rw [show j = i by omega, hi] at hj
    exact (Option.some.inj hj).symm
  obtain ⟨slot, hslot⟩ := hstands
  have hbind : (entryAt sc.dict.table slot).key.bind (keyToSchemaEntry sc.heap) = some se := by
    rw [hslot]
    exact hi
  have hplace : se.index < (List.replicate sc.heap.length (none : Option SchemaEntry)).length := by
    rw [hindex, List.length_replicate]
    exact (List.getElem?_eq_some_iff.mp hi).1
  have hfill := foldl_fillOne_complete halone sc.dict.table hplace
    (Or.inr ⟨_, entryAt_mem (lt_length_of_key hslot), hbind⟩)
  rw [hindex] at hfill
  rw [h.ent]
  exact hfill

end Built

/-- What is looked up is a number that an `int` holds. -/
theorem schemaRef_lt (sc : Schema) (key : CString) : schemaRef sc key < 2 ^ 31 := by
  unfold schemaRef
  split
  · norm_num
  · next se _ =>
      have := Nat.mod_lt se.index (Nat.two_pow_pos 32)
      unfold toInt
      split_ifs <;> omega

/-- An array in order has its numbers in the range of an `int`. -/
theorem Schema.Indexed.len_le {sc : Schema} (h : sc.Indexed) : sc.len ≤ 2 ^ 31 := by
  by_contra hlen
  obtain ⟨se, -, -, href⟩ := h.entry (2 ^ 31) (by omega)
  have := schemaRef_lt sc se.key
  omega

theorem mem_ptrsFrom {keys : List CString} {p : KeyPtr} :
    p ∈ ptrsFrom 0 keys ↔ keys[p.addr]? = some p.text := by
  unfold ptrsFrom
  rw [List.mem_mapIdx]
  constructor
  · rintro ⟨i, hi, rfl⟩
    show keys[0 + i]? = some keys[i]
    rw [Nat.zero_add, List.getElem?_eq_getElem hi]
  · intro h
    obtain ⟨hlt, htext⟩ := List.getElem?_eq_some_iff.mp h
    refine ⟨p.addr, hlt, ?_⟩
    rw [htext, Nat.zero_add]

theorem text_ptrsFrom (keys : List CString) : (ptrsFrom 0 keys).map KeyPtr.text = keys := by
  apply List.ext_getElem?
  intro i
  unfold ptrsFrom
  rw [List.getElem?_map, List.getElem?_mapIdx, Option.map_map]
  cases keys[i]? with
  | none => rfl
  | some text => rfl

/-- **The dictionary of a schema without a repeated key** holds each of them, within the bound of its lookup exactly
when the last growth settled. -/
theorem Built.dict_of_nodup {keys : List CString} {sc : Schema} (h : Built keys sc) (hnodup : keys.Nodup) :
    LooseInv sc.dict ∧ (∀ p, Stands sc.dict.table p ↔ keys[p.addr]? = some p.text) ∧
      (Bounded sc.dict.table ↔ LastGrowthSettles keys) := by
  obtain ⟨d, hinit, hall⟩ := h.dict
  obtain ⟨hinv, hm⟩ := inv_init hinit
  obtain ⟨hloose, hbounded⟩ := inv_iff.mp hinv
  have hempty : ∀ p, ¬ Stands d.table p := by
    intro p hp
    rw [hm.stands_iff] at hp
    cases hp
  obtain ⟨hloose', hstands, hiff⟩ := setAll_fresh hloose hm (fun _ _ p hp => absurd hp (hempty p))
    (by rw [text_ptrsFrom]; exact hnodup) hall
  refine ⟨hloose', ?_, hiff.trans ?_⟩
  · intro p
    rw [hstands p, mem_ptrsFrom, or_iff_right (hempty p)]
  · unfold LastGrowthSettles
    simp only [hinit, Option.mem_def, Option.some.injEq, forall_eq']
    cases beforeLastGrowth d (ptrsFrom 0 keys) with
    | none => exact iff_of_true hbounded (by rintro _ ⟨⟩)
    | some g => simp

/-- An array in order comes from keys that are all different. -/
theorem Built.nodup_of_indexed {keys : List CString} {sc : Schema} (h : Built keys sc) (hindexed : sc.Indexed) :
    keys.Nodup := by
  have hlen : keys.length ≤ 2 ^ 32 := by
    have := hindexed.len_le
    rw [h.len] at this
    omega
  have href : ∀ (i : ℕ) (text : CString), keys[i]? = some text → schemaRef sc text = i := by
    intro i text hi
    obtain ⟨hlt, -⟩ := List.getElem?_eq_some_iff.mp hi
    obtain ⟨se, hent, -, href⟩ := hindexed.entry i (h.len ▸ hlt)
    have hkey := h.key_of_heap (h.heap_of_ent hlen hent)
    rw [hi] at hkey
    rw [Option.some.inj hkey]
    exact href
  rw [List.nodup_iff_getElem?_ne_getElem?]
  intro i j hij hj heq
  obtain ⟨text, htext⟩ : ∃ text, keys[j]? = some text := ⟨_, List.getElem?_eq_getElem hj⟩
  have hi := href i text (heq.trans htext)
  have hj' := href j text htext
  omega

/-- **When the schema is as it should be.**  Of a definition for which `schema_init` returns 0, the array is full
and in order and every key is looked up to its number exactly when no key is repeated, there are at most `2 ^ 31`
entries, and at the last growth of the dictionary the keys it holds settle within the bound of the lookup. -/
theorem schemaInit_indexed_iff {definition : CString} {sc : Schema} (h : schemaInit definition = some (0, sc)) :
    sc.Indexed ↔ (definedKeys definition).Nodup ∧ (definedKeys definition).length ≤ 2 ^ 31 ∧
      LastGrowthSettles (definedKeys definition) := by
  have hbuilt := built_of_schemaInit h
  generalize definedKeys definition = keys at hbuilt ⊢
  constructor
  · intro hindexed
    have hnodup := hbuilt.nodup_of_indexed hindexed
    have hle : keys.length ≤ 2 ^ 31 := hbuilt.len ▸ hindexed.len_le
    obtain ⟨hloose, hstands, hiff⟩ := hbuilt.dict_of_nodup hnodup
    refine ⟨hnodup, hle, hiff.mp ?_⟩
    -- what is looked up at all stands within its bound
    intro slot p hp
    have hkey := (hstands p).mp ⟨slot, hp⟩
    obtain ⟨hlt, -⟩ := List.getElem?_eq_some_iff.mp hkey
    obtain ⟨se, hent, -, href⟩ := hindexed.entry p.addr (hbuilt.len ▸ hlt)
    have hse := hbuilt.key_of_heap (hbuilt.heap_of_ent (by omega) hent)
    rw [hkey] at hse
    rw [← Option.some.inj hse] at href
    cases hdict : dictRef sc.dict p.text with
    | none =>
        rw [schemaRef, hdict] at href
        have : (-1 : ℤ) = p.addr := href
        omega
    | some q =>
        obtain ⟨htext, slot', hpath, hslot'⟩ := exists_of_dictRef hloose.pos hloose.loose.toKeyed hdict
        rwa [hloose.loose.alone slot slot' p q hp hslot' htext.symm]
  · rintro ⟨hnodup, hle, hsettles⟩
    obtain ⟨hloose, hstands, hiff⟩ := hbuilt.dict_of_nodup hnodup
    have hbounded := hiff.mpr hsettles
    refine ⟨?_, ?_⟩
    · rw [hbuilt.ent, schemaFillEntryArray, length_foldl_fillOne, List.length_replicate, hbuilt.heap_length,
        hbuilt.len]
    · intro i hi
      rw [hbuilt.len] at hi
      obtain ⟨se, hse⟩ : ∃ se, sc.heap[i]? = some se :=
        ⟨_, List.getElem?_eq_getElem (hbuilt.heap_length.symm ▸ hi)⟩
      have hindex := hbuilt.index_eq (by omega) hse
      have hkey := hbuilt.key_of_heap hse
      obtain ⟨slot, hslot⟩ := (hstands ⟨i, se.key⟩).mpr hkey
      refine ⟨se, hbuilt.ent_of_stands (by omega) hse ⟨slot, hslot⟩, hindex, ?_⟩
      have hpath : slot ∈ path sc.dict.tableLen (dictStrhash se.key) := hbounded slot ⟨i, se.key⟩ hslot
      have hdict : dictRef sc.dict se.key = some ⟨i, se.key⟩ :=
        (dictRef_eq_some_iff hloose.pos hloose.loose).mpr ⟨rfl, slot, hpath, hslot⟩
      have hheap : keyToSchemaEntry sc.heap ⟨i, se.key⟩ = some se := hse
      have hrange : i % 2 ^ 32 = i := Nat.mod_eq_of_lt (by omega)
      have hint : toInt i = i := if_pos (by omega)
      simp only [schemaRef, hdict, Option.bind_some, hheap, hindex, hrange, hint]

/-- A definition of three entries. -/
def threeEntries : CString := cstr "user,E,U=cs\tnice,E  idle,W=32\n"

theorem schemaInit_indexed_iff_threeEntries :
    ∃ sc, schemaInit threeEntries = some (0, sc) ∧ sc.len = 3 ∧ sc.Indexed := by
  have hrun : (schemaInit threeEntries).map (fun r => (r.1, r.2.len)) = some (0, 3) := by decide +kernel
  obtain ⟨⟨rc, sc⟩, hinit, hr⟩ := Option.map_eq_some_iff.mp hrun
  obtain ⟨rfl, hlen⟩ := Prod.mk.inj hr
  refine ⟨sc, hinit, hlen, (schemaInit_indexed_iff hinit).mpr ⟨by decide +kernel, by decide +kernel, ?_⟩⟩
  intro d hd g hg
  obtain rfl : d = ⟨List.replicate 8 MonitorDict.Entry.zero, 0, 0⟩ := by
    have hempty : dictInit 0 = some ⟨List.replicate 8 MonitorDict.Entry.zero, 0, 0⟩ := by decide +kernel
    exact Option.some.inj (hd.symm.trans hempty)
  have hnone : beforeLastGrowth ⟨List.replicate 8 MonitorDict.Entry.zero, 0, 0⟩
      (ptrsFrom 0 (definedKeys threeEntries)) = none := by
    decide +kernel
  rw [hnone] at hg
  cases hg

/-- A key that is defined twice leaves the array without an entry at the first of its numbers.  And the six keys of
the second definition are all different, but when the sixth lets the table grow, `cznbsc` comes to stand beyond the
16 probes of its lookup, which visit four slots that other keys have taken. -/
theorem not_indexed :
    (∃ sc, schemaInit (cstr "rx_bytes,E rx_bytes,E,U=KB") = some (0, sc) ∧ sc.len = 2 ∧
      sc.ent[0]? = some none ∧ ¬ sc.Indexed) ∧
    ∃ sc, schemaInit (cstr "wr_ios threads rd_ios cznbsc tx_errors user") = some (0, sc) ∧ sc.len = 6 ∧
      schemaRef sc (cstr "cznbsc") = -1 ∧ ¬ sc.Indexed := by
  constructor
  · have hrun : (schemaInit (cstr "rx_bytes,E rx_bytes,E,U=KB")).map (fun r => (r.1, r.2.len, r.2.ent[0]?)) =
        some (0, 2, some none) := by
      decide +kernel
    obtain ⟨⟨rc, sc⟩, hinit, hr⟩ := Option.map_eq_some_iff.mp hrun
    obtain ⟨rfl, hr⟩ := Prod.mk.inj hr
    obtain ⟨hlen, hent⟩ := Prod.mk.inj hr
    refine ⟨sc, hinit, hlen, hent, ?_⟩
    intro h
    obtain ⟨se, hse, -⟩ := h.entry 0 (by rw [hlen]; decide)
    rw [hent] at hse
    cases hse
  · have hrun : (schemaInit (cstr "wr_ios threads rd_ios cznbsc tx_errors user")).map (fun r =>
        (r.1, r.2.len, schemaRef r.2 (cstr "cznbsc"), r.2.ent[3]?.join.map SchemaEntry.key)) =
        some (0, 6, -1, some (cstr "cznbsc")) := by
      decide +kernel
    obtain ⟨⟨rc, sc⟩, hinit, hr⟩ := Option.map_eq_some_iff.mp hrun
    obtain ⟨rfl, hr⟩ := Prod.mk.inj hr
    obtain ⟨hlen, hr⟩ := Prod.mk.inj hr
    obtain ⟨href, hkey⟩ := Prod.mk.inj hr
    refine ⟨sc, hinit, hlen, href, ?_⟩
    intro h
    obtain ⟨se, hse, -, hindex⟩ := h.entry 3 (by rw [hlen]; decide)
    rw [hse] at hkey
    have hname : se.key = cstr "cznbsc" := Option.some.inj hkey
    rw [hname, href] at hindex
    cases hindex

end SchemaInit
