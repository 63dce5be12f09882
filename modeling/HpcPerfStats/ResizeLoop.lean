/-
# The probe loop of `dict_resize`

When `dict_resize` places a key, `while (table[i & mask].d_key != NULL)` has no bound of its own.  Here the loop is
taken as it stands in the source, and `resizeProbe`, which searches as far as `tableLen + 13` probes, is shown to
compute it.

Main results: `resizeLoop_terminates` (in a table with a free slot the loop ends, since 13 rounds use up the
perturbation and from then on `i` goes through all slots) and `ends_iff_resizeProbe` (it ends in the slot that
`resizeProbe` finds, for every table whose length is a power of two).
-/
import HpcPerfStats.MonitorDict
import HpcPerfStats.WhileLoop

namespace MonitorDict

open WhileLoop

/-- `i = hash & mask` and `perturb = hash`. -/
def resizeStart (table : List Entry) (hash : Nat) : Nat × Nat :=
  (hash &&& (table.length - 1), hash)

/-- `i & mask`. -/
def slotOf (table : List Entry) (x : Nat × Nat) : Nat := x.1 &&& (table.length - 1)

/-- `table[i & mask].d_key != NULL`. -/
def occupied (table : List Entry) (x : Nat × Nat) : Bool :=
  (entryAt table (slotOf table x)).key.isSome

/-- The loop, started for a hash, stops in the state `x`. -/
def ResizeLoop (table : List Entry) (hash : Nat) (x : Nat × Nat) : Prop :=
  Ends (occupied table) advance (resizeStart table hash) x

/-! ## The perturbation is used up -/

/-- Thirteen rounds shift out a hash of 64 bits. -/
theorem perturb_drained {x : Nat × Nat} (hx : x.2 < 2 ^ 64) {t : Nat} (ht : 13 ≤ t) :
    (advance^[t] x).2 = 0 := by
  rw [advance_iterate_snd, Nat.shiftRight_eq_div_pow]
  apply Nat.div_eq_of_lt
  calc x.2 < 2 ^ 64 := hx
    _ ≤ 2 ^ (5 * t) := Nat.pow_le_pow_right (by norm_num) (by omega)

/-- From then on the loop runs through `i ↦ 5 * i + 1`. -/
theorem advance_mod {k : Nat} (hk : k ≤ 64) {x : Nat × Nat} (hx : x.2 = 0) :
    (advance x).1 % 2 ^ k = (5 * x.1 + 1) % 2 ^ k := by
  have hwrap : ∀ n : Nat, wrap n % 2 ^ k = n % 2 ^ k :=
    fun n => Nat.mod_mod_of_dvd n (Nat.pow_dvd_pow 2 hk)
  rw [advance, hx]
  show wrap (x.1 <<< 2 + x.1 + 0 + 1) % 2 ^ k = _
  rw [hwrap, Nat.shiftLeft_eq]
  congr 1
  ring

/-- As many rounds as the table has slots go through all of them. -/
theorem exists_advance_slot {k : Nat} (hk : k ≤ 64) {x : Nat × Nat} (hx : x.2 = 0) {s : Nat} (hs : s < 2 ^ k) :
    ∃ u < 2 ^ k, (advance^[u] x).1 % 2 ^ k = s := by
  obtain ⟨i, perturb⟩ := x
  obtain rfl : perturb = 0 := hx
  let slot : Fin (2 ^ k) → Fin (2 ^ k) := fun u =>
    ⟨(advance^[u.val] (i, 0)).1 % 2 ^ k, Nat.mod_lt _ (Nat.two_pow_pos k)⟩
  have hinj : Function.Injective slot := by
    intro u u' huu'
    exact Fin.ext (probe_injective hk u.isLt u'.isLt (congrArg Fin.val huu'))
  obtain ⟨u, hu⟩ := Finite.surjective_of_injective hinj ⟨s, hs⟩
  exact ⟨u.val, u.isLt, congrArg Fin.val hu⟩

/-! ## The loop ends -/

theorem slotOf_eq {table : List Entry} {k : Nat} (hlen : table.length = 2 ^ k) (x : Nat × Nat) :
    slotOf table x = x.1 % 2 ^ k := by
  rw [slotOf, hlen, Nat.and_two_pow_sub_one_eq_mod]

/-- **The loop ends.**  The perturbation is zero from the thirteenth round on, from then on `i` follows
`i ↦ 5 * i + 1` modulo the length of the table and is at every slot within as many rounds as there are slots,
and the loop stops in one state, at a slot without a key. -/
theorem resizeLoop_terminates {table : List Entry} {k : Nat} (hk : k < 64) (hlen : table.length = 2 ^ k)
    (hfree : ∃ s < table.length, (entryAt table s).key = none) {hash : Nat} (hhash : hash < 2 ^ 64) :
    (∀ t, 13 ≤ t →
      (advance^[t] (resizeStart table hash)).2 = 0 ∧
      slotOf table (advance^[t + 1] (resizeStart table hash)) =
        (5 * slotOf table (advance^[t] (resizeStart table hash)) + 1) % table.length ∧
      ∀ s < table.length, ∃ u < table.length,
        slotOf table (advance^[t + u] (resizeStart table hash)) = s) ∧
    ∃ x, (∀ y, ResizeLoop table hash y ↔ y = x) ∧ (entryAt table (slotOf table x)).key = none := by
  have hcycle : ∀ t, 13 ≤ t → ∀ s < table.length, ∃ u < table.length,
      slotOf table (advance^[t + u] (resizeStart table hash)) = s := by
    intro t ht s hs
    rw [hlen] at hs
    have hzero := perturb_drained (x := resizeStart table hash) hhash ht
    obtain ⟨u, hu, hslot⟩ := exists_advance_slot hk.le hzero hs
    refine ⟨u, hlen ▸ hu, ?_⟩
    rw [slotOf_eq hlen, Nat.add_comm, Function.iterate_add_apply]
    exact hslot
  constructor
  · intro t ht
    have hzero := perturb_drained (x := resizeStart table hash) hhash ht
    refine ⟨hzero, ?_, hcycle t ht⟩
    rw [Function.iterate_succ_apply', slotOf_eq hlen, slotOf_eq hlen, hlen, advance_mod hk.le hzero]
    exact ((Nat.mod_modEq _ _).mul_left 5).add_right 1 |>.symm
  · -- the free slot is among those that are visited
    obtain ⟨s, hs, hkey⟩ := hfree
    obtain ⟨u, -, hslot⟩ := hcycle 13 le_rfl s hs
    obtain ⟨x, hx⟩ := exists_ends_iff.mpr ⟨13 + u, by
      show occupied table (advance^[13 + u] (resizeStart table hash)) = false
      rw [occupied, hslot, hkey]
      rfl⟩
    refine ⟨x, fun y => ⟨fun hy => hy.unique hx, fun hy => hy ▸ hx⟩, ?_⟩
    have hguard := hx.guard_eq
    rw [occupied, Option.isSome_eq_false_iff] at hguard
    exact Option.isNone_iff_eq_none.mp hguard

/-- A table of length 8 whose only free slot is 5. -/
def oneFree : List Entry :=
  (List.replicate 8 ⟨0, some ⟨1, []⟩⟩).set 5 Entry.zero

theorem resizeLoop_terminates_oneFree :
    ∃ x, (∀ y, ResizeLoop oneFree (2 ^ 64 - 1) y ↔ y = x) ∧ (entryAt oneFree (slotOf oneFree x)).key = none :=
  (resizeLoop_terminates (k := 3) (by decide) (by decide) ⟨5, by decide, by decide⟩ (by decide)).2

/-! ## The search is the loop -/

theorem probes_eq_map (mask n : Nat) (x : Nat × Nat) :
    probes mask n x.1 x.2 = (List.range n).map fun t => (advance^[t] x).1 &&& mask := by
  induction n generalizing x with
  | zero => rfl
  | succ n ih =>
      rw [List.range_succ_eq_map, List.map_cons, List.map_map, probes]
      exact congrArg _ (ih (advance x))

/-- **The bounded search is the loop**: it finds the slot in which the loop stops. -/
theorem ends_iff_resizeProbe {table : List Entry} {k : Nat} (hk : k ≤ 64) (hlen : table.length = 2 ^ k)
    {hash : Nat} (hhash : hash < 2 ^ 64) (j : Nat) :
    (∃ x, ResizeLoop table hash x ∧ slotOf table x = j) ↔ resizeProbe table hash = some j := by
  have hprobe : resizeProbe table hash =
      ((List.range (table.length + 13)).find? fun t =>
        !occupied table (advance^[t] (resizeStart table hash))).map fun t =>
          slotOf table (advance^[t] (resizeStart table hash)) := by
    rw [resizeProbe, probes_eq_map _ _ (hash &&& (table.length - 1), hash), List.find?_map]
    congr 1
    apply List.find?_congr
    intro t _
    exact (Option.not_isSome _).symm
  rw [hprobe, Option.map_eq_some_iff]
  constructor
  · rintro ⟨x, hx, hj⟩
    obtain ⟨n, rfl, hstop, hbefore⟩ := ends_iff.mp hx
    refine ⟨n, List.find?_range_eq_some.mpr ⟨by rw [hstop]; rfl, ?_, ?_⟩, hj⟩
    · -- every slot has been visited by then, also the one at which the loop stops
      rw [List.mem_range]
      by_contra hlate
      have hlt : slotOf table (advance^[n] (resizeStart table hash)) < 2 ^ k := by
        rw [slotOf_eq hlen]
        exact Nat.mod_lt _ (Nat.two_pow_pos k)
      have hvisited := mem_probes_all hk hhash hlt
      rw [← hlen] at hvisited
      obtain ⟨t, ht, hslot⟩ := (mem_probes (x := resizeStart table hash)).mp hvisited
      have hoccupied := hbefore t (by omega)
      rw [occupied, show slotOf table (advance^[t] (resizeStart table hash)) = _ from hslot] at hoccupied
      rw [occupied, hoccupied] at hstop
      cases hstop
    · intro t ht
      rw [hbefore t ht]
      rfl
  · rintro ⟨n, hn, hj⟩
    obtain ⟨hstop, -, hbefore⟩ := List.find?_range_eq_some.mp hn
    refine ⟨_, ends_iff.mpr ⟨n, rfl, ?_, ?_⟩, hj⟩
    · simpa using hstop
    · intro t ht
      simpa using hbefore t ht

end MonitorDict
