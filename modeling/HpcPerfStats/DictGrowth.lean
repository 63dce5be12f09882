/-
# Insertions of new texts

A sequence of `dict_set` calls with texts that are all different, each of which returns 0.  Every key gets a slot,
but a growth of the table may put some beyond the bound of their lookup, where `dict_ref` does not find them.

* `beforeLastGrowth` is the dictionary just before the table grows for the last time;
* `dictSet_fresh`: what one insertion does;
* `setAll_fresh`: after all of them every key is found exactly when the keys settled at the last growth.
-/
import HpcPerfStats.DictRuns

namespace MonitorDict

open ProbeTable

/-! ## One insertion -/

/-- The keys of the dictionary settle when the table grows. -/
def GrowthSettles (d : Dict) : Prop :=
  (settle (grownLen d) (liveHashes d.table) []).isSome = true

instance (d : Dict) : Decidable (GrowthSettles d) :=
  inferInstanceAs (Decidable (_ = true))

/-- The length that the table grows to is a power of two that an allocation can give. -/
theorem LooseInv.grownLen_eq {d : Dict} (h : LooseInv d) (hfits : callocFits (grownLen d) = true) :
    ∃ k, 3 ≤ k ∧ k ≤ 59 ∧ grownLen d = 2 ^ k := by
  obtain ⟨k, hk, hk59, hlen⟩ := h.pow
  have hlenlt := h.tableLen_lt
  have hloadle := h.load_le
  have hcountle := h.count_le
  obtain ⟨k', hle, -, hgrown, -⟩ := growTableLen_spec
    (show 3 * (d.count + 1) < 2 ^ 64 by omega) 64 k (by omega) (by omega)
  have hgrown' : grownLen d = 2 ^ k' := by rw [grownLen, hlen]; exact hgrown
  rw [hgrown'] at hfits
  exact ⟨k', by omega, le_of_callocFits hfits, hgrown'⟩

/-- The insertion when the table grows: `dict_resize`, the second lookup, and the write. -/
theorem dictSet_grown {d d' : Dict} {m : CString → Option KeyPtr} (h : LooseInv d) (hm : Contents d.table m)
    {key : KeyPtr} (hmiss : ∀ p, Stands d.table p → p.text ≠ key.text) (hroom : d.count < grownLen d)
    (hfits : callocFits (grownLen d) = true)
    (hset : (dictResize d (grownLen d)).map (fun d =>
      match dictEntryRef d (dictStrhash key.text) key.text with
      | none => ((-1 : Int), d)
      | some ent => (0, { d with load := d.load + 1, count := d.count + 1 }.put ent (dictStrhash key.text) key)) =
        some (0, d')) :
    LooseInv d' ∧ Contents d'.table (Function.update m key.text (some key)) ∧
      (Bounded d'.table ↔ GrowthSettles d) := by
  obtain ⟨k, hk, hk59, hgrown⟩ := h.grownLen_eq hfits
  rw [GrowthSettles]
  rw [hgrown] at hroom hset ⊢
  obtain ⟨d₁, taken, hresize, hinv₁, hm₁, -, hplaced, hiff₁⟩ := h.resize hm hk hk59 hroom.le []
  have hmiss₁ := hm.missing hm₁ hmiss
  rw [hresize, Option.map_some, Option.some.injEq] at hset
  cases href : dictEntryRef d₁ (dictStrhash key.text) key.text with
  | none =>
      rw [href] at hset
      cases hset
  | some s =>
      rw [href] at hset
      have hfind := dictEntryRef_of_missing hinv₁.pos hinv₁.loose.toKeyed hmiss₁ href
      have hunused := hplaced.isUnused (by simpa using List.find?_some hfind)
      have hload : d₁.load + 1 = d₁.load + if (entryAt d₁.table s).isUnused then 1 else 0 := by simp [hunused]
      obtain ⟨hinv, hcont, hiff⟩ := hinv₁.put hm₁ hmiss₁ hfind hload
      obtain rfl := (Prod.mk.inj hset).2
      refine ⟨hinv, hcont, hiff.trans ?_⟩
      rw [← List.append_nil (liveHashes d.table), ← hiff₁]
      exact (and_iff_left rfl).symm

/-- **One insertion of a new text that returns 0.**  The keys are within their bounds as before, or, where the
table has grown, exactly when they settled. -/
theorem dictSet_fresh {d d' : Dict} {m : CString → Option KeyPtr} (h : LooseInv d) (hm : Contents d.table m)
    {key : KeyPtr} (hmiss : ∀ p, Stands d.table p → p.text ≠ key.text)
    (hset : dictSet d key = some (0, d')) :
    LooseInv d' ∧ Contents d'.table (Function.update m key.text (some key)) ∧
      (Bounded d'.table ↔
        if mustGrow d (dictStrhash key.text) = true then GrowthSettles d else Bounded d.table) := by
  have hfail : ∀ {e : Dict}, some ((-1 : Int), e) ≠ some (0, d') := by
    rintro e ⟨⟩
  rw [dictSet] at hset
  cases href : dictEntryRef d (dictStrhash key.text) key.text with
  | none =>
      rw [href] at hset
      exact absurd hset hfail
  | some s =>
      have hfind := dictEntryRef_of_missing h.pos h.loose.toKeyed hmiss href
      have hfree : (entryAt d.table s).key = none := by simpa using List.find?_some hfind
      have hnone : (d.entry s).key.isSome = false := by
        show (entryAt d.table s).key.isSome = false
        rw [hfree]
        rfl
      have hgrow : mustGrow d (dictStrhash key.text) =
          ((entryAt d.table s).isUnused && decide (2 * d.tableLen ≤ 3 * (d.load + 1))) := by
        rw [mustGrow, hfind]
        rfl
      have hunused : (entryAt d.table s).isUnused = !(d.entry s).isDummy := by
        rw [Entry.isUnused, hfree]
        exact Bool.and_true _
      rw [href] at hset
      simp only [hnone, Bool.false_eq_true, if_false, dictEntrySet] at hset
      rw [hgrow]
      by_cases hdummy : (d.entry s).isDummy = true
      · -- a mark is taken over
        rw [hdummy] at hunused
        rw [if_pos hdummy] at hset
        have hload : d.load = d.load + if (entryAt d.table s).isUnused then 1 else 0 := by simp [hunused]
        obtain ⟨hinv, hcont, hiff⟩ := h.put hm hmiss hfind hload
        obtain rfl := (Prod.mk.inj (Option.some.inj hset)).2
        rw [hunused, if_neg (by simp)]
        exact ⟨hinv, hcont, hiff⟩
      rw [Bool.eq_false_iff.mpr hdummy] at hunused
      have hlenlt := h.tableLen_lt
      have hloadle := h.load_le
      have hwrap : wrap (3 * (d.load + 1)) = 3 * (d.load + 1) := Nat.mod_eq_of_lt (by omega)
      have hwrap' : wrap (2 * d.tableLen) = 2 * d.tableLen := Nat.mod_eq_of_lt (by omega)
      rw [if_neg hdummy, hwrap, hwrap'] at hset
      rw [hunused]
      by_cases hfull : 2 * d.tableLen ≤ 3 * (d.load + 1)
      · rw [if_pos hfull, show growTableLen (d.count + 1) 64 d.tableLen = grownLen d from rfl] at hset
        rw [if_pos (by simpa using hfull)]
        by_cases hroom : d.count + 1 ≥ grownLen d
        · rw [if_pos hroom] at hset
          exact absurd hset hfail
        by_cases hfits : callocFits (grownLen d) = true
        · rw [if_neg hroom, if_neg (not_not.mpr hfits)] at hset
          exact dictSet_grown h hm hmiss (by omega) hfits hset
        · rw [if_neg hroom, if_pos hfits] at hset
          exact absurd hset hfail
      · rw [if_neg hfull] at hset
        rw [if_neg (by simpa using hfull)]
        have hload : d.load + 1 = d.load + if (entryAt d.table s).isUnused then 1 else 0 := by simp [hunused]
        obtain ⟨hinv, hcont, hiff⟩ := h.put hm hmiss hfind hload
        obtain rfl := (Prod.mk.inj (Option.some.inj hset)).2
        exact ⟨hinv, hcont, hiff⟩

/-- `dict_set` returns 0 or -1. -/
theorem dictSet_code {d d' : Dict} {key : KeyPtr} {rc : Int} (h : dictSet d key = some (rc, d')) :
    rc = 0 ∨ rc = -1 := by
  have hset : ∀ {e hash : Nat}, dictEntrySet d e hash key = some (rc, d') → rc = 0 ∨ rc = -1 := by
    intro e hash h
    unfold dictEntrySet at h
    dsimp only at h
    split_ifs at h
    · exact Or.inl (Prod.mk.inj (Option.some.inj h)).1.symm
    · exact Or.inl (Prod.mk.inj (Option.some.inj h)).1.symm
    · exact Or.inr (Prod.mk.inj (Option.some.inj h)).1.symm
    · obtain ⟨d₁, -, hd₁⟩ := Option.map_eq_some_iff.mp h
      split at hd₁
      · exact Or.inr (Prod.mk.inj hd₁).1.symm
      · exact Or.inl (Prod.mk.inj hd₁).1.symm
    · exact Or.inr (Prod.mk.inj (Option.some.inj h)).1.symm
    · exact Or.inl (Prod.mk.inj (Option.some.inj h)).1.symm
  unfold dictSet at h
  dsimp only at h
  split at h
  · exact Or.inr (Prod.mk.inj (Option.some.inj h)).1.symm
  · split_ifs at h
    · exact Or.inl (Prod.mk.inj (Option.some.inj h)).1.symm
    · exact hset h

/-! ## All insertions -/

/-- One `dict_set` after another, as long as they return 0. -/
def setAll : Dict → List KeyPtr → Option Dict
  | d, [] => some d
  | d, key :: keys =>
      match dictSet d key with
      | some (0, d') => setAll d' keys
      | _ => none

/-- The dictionary before the insertion at which the table grows for the last time. -/
def beforeLastGrowth : Dict → List KeyPtr → Option Dict
  | _, [] => none
  | d, key :: keys =>
      ((dictSet d key).bind fun r => beforeLastGrowth r.2 keys).or
        (if mustGrow d (dictStrhash key.text) then some d else none)

theorem Contents.stands_iff {table : List Entry} {m : CString → Option KeyPtr} (hm : Contents table m)
    (p : KeyPtr) : Stands table p ↔ m p.text = some p :=
  ⟨fun h => (hm p.text p).mpr ⟨rfl, h⟩, fun h => ((hm p.text p).mp h).2⟩

theorem Contents.stands_update {table table' : List Entry} {m : CString → Option KeyPtr} {key : KeyPtr}
    (hm : Contents table m) (hm' : Contents table' (Function.update m key.text (some key)))
    (hmiss : ∀ p, Stands table p → p.text ≠ key.text) (p : KeyPtr) :
    Stands table' p ↔ p = key ∨ Stands table p := by
  rw [hm'.stands_iff]
  by_cases ht : p.text = key.text
  · rw [ht, Function.update_self, Option.some.injEq]
    constructor
    · exact fun h => Or.inl h.symm
    · rintro (h | h)
      · exact h.symm
      · exact absurd ht (hmiss p h)
  · rw [Function.update_of_ne ht, ← hm.stands_iff]
    constructor
    · exact Or.inr
    · rintro (h | h)
      · exact absurd (congrArg KeyPtr.text h) ht
      · exact h

/-- **Insertions of new texts that all return 0.**  The dictionary holds the keys it held and the new ones, and
all are within the bound of their lookup exactly when they settled as the table grew for the last time. -/
theorem setAll_fresh {keys : List KeyPtr} : ∀ {d d' : Dict} {m : CString → Option KeyPtr}, LooseInv d →
    Contents d.table m → (∀ key ∈ keys, ∀ p, Stands d.table p → p.text ≠ key.text) →
    (keys.map KeyPtr.text).Nodup → setAll d keys = some d' →
    LooseInv d' ∧ (∀ p, Stands d'.table p ↔ Stands d.table p ∨ p ∈ keys) ∧
      (Bounded d'.table ↔
        match beforeLastGrowth d keys with
        | none => Bounded d.table
        | some g => GrowthSettles g) := by
  induction keys with
  | nil =>
      intro d d' m h _ _ _ hset
      obtain rfl := Option.some.inj hset
      exact ⟨h, fun p => by simp, Iff.rfl⟩
  | cons key keys ih =>
      intro d d' m h hm hmiss hnodup hset
      obtain ⟨hnotin, hnodup'⟩ := List.nodup_cons.mp hnodup
      have hmiss₀ := hmiss key List.mem_cons_self
      rw [setAll] at hset
      split at hset
      · next d₁ hfirst =>
          obtain ⟨hinv₁, hm₁, hbounded₁⟩ := dictSet_fresh h hm hmiss₀ hfirst
          have hstands₁ := hm.stands_update hm₁ hmiss₀
          obtain ⟨hinv, hstands, hbounded⟩ := ih hinv₁ hm₁
            (by
              intro key' hkey' p hp ht
              rcases (hstands₁ p).mp hp with rfl | hp
              · exact hnotin (ht ▸ List.mem_map_of_mem hkey')
              · exact hmiss key' (List.mem_cons_of_mem _ hkey') p hp ht)
            hnodup' hset
          refine ⟨hinv, ?_, hbounded.trans ?_⟩
          · intro p
            rw [hstands p, hstands₁ p, List.mem_cons]
            exact or_assoc.trans or_left_comm
          · -- a growth further on decides, else the one at this insertion
            rw [beforeLastGrowth, hfirst, Option.bind_some]
            cases hlater : beforeLastGrowth d₁ keys with
            | some g => rfl
            | none =>
                rw [Option.none_or]
                refine hbounded₁.trans ?_
                split_ifs
                · rfl
                · rfl
      · cases hset

end MonitorDict
