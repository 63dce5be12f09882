/-
# Archive contents and member maps (`archive_compress.py`)

The file members of a `.tar` (or of a sealed `.tar.zst`) in archive order, and the
name-to-size maps the maintenance code computes from them.  A name that was
appended several times occurs several times in the archive; a member map keeps the
LARGEST size (`_read_tar_file_member_sizes_unlocked`,
`_stream_compressed_archive_members`), while a named extraction with `tar -x`
leaves the LAST occurrence on disk.

A Python `dict` is an association list with distinct keys in insertion order.
`Covers l m` says that `l` has a member of `m`'s name with at least `m`'s size; the
lemmas below carry it through the maps.
-/
import HpcPerfStats.PyDict
import Mathlib.Algebra.GroupWithZero.Nat
import Mathlib.Data.List.Sort
import Mathlib.Data.String.Basic

namespace ArchiveMembers

/-- A file member: its name and its size in bytes. -/
abbrev Member := String × ℕ

/-- The file members of an archive, in archive order. -/
abbrev Content := List Member

/-- A `dict[str, int]`: distinct names in insertion order. -/
abbrev MemberMap := List Member

/-- `l` has a member of `m`'s name with at least `m`'s size. -/
def Covers (l : List Member) (m : Member) : Prop :=
  ∃ size, (m.1, size) ∈ l ∧ m.2 ≤ size

/-! ## The maps of the source -/

/-- `members[name] = max(members.get(name), size)`. -/
def insertLargest (d : MemberMap) (m : Member) : MemberMap :=
  match d with
  | [] => [m]
  | e :: rest =>
      if e.1 = m.1 then (e.1, max e.2 m.2) :: rest else e :: insertLargest rest m

/-- `{name: max(sizes) for name, sizes in by_name.items()}`. -/
def memberMap (c : Content) : MemberMap := c.foldl insertLargest []

/-- `sum_member_bytes`. -/
def sumMemberBytes (d : MemberMap) : ℕ := (d.map Prod.snd).sum

/-- `archive_gz_members_contained_in_zst`: every entry of the first map is in the
second with the same size. -/
def containedIn (a b : MemberMap) : Bool := a.all fun e => b.lookup e.1 == some e.2

/-- `archive_member_maps_equivalent`: equality of dictionaries. -/
def mapsEquivalent (a b : MemberMap) : Bool := containedIn a b && containedIn b a

/-- `union[name] = size` when the name is new or the size is not smaller. -/
def setIfNotSmaller (d : MemberMap) (m : Member) : MemberMap :=
  match d with
  | [] => [m]
  | e :: rest =>
      if e.1 = m.1 then (e.1, if e.2 ≤ m.2 then m.2 else e.2) :: rest
      else e :: setIfNotSmaller rest m

/-- `archive_member_maps_union`: the sealed map, then every entry of the tar map. -/
def membersUnion (tar zst : MemberMap) : MemberMap := tar.foldl setIfNotSmaller zst

/-- `for member_name in sorted(union_members)`. -/
def sortedByName (d : MemberMap) : MemberMap := d.insertionSort fun a b => a.1 ≤ b.1

/-- The size left on disk by `tar -x name`: the last occurrence wins. -/
def extractedSize (c : Content) (name : String) : Option ℕ := c.reverse.lookup name

/-- The actions of `classify_daily_tar_zst_reconcile`. -/
inductive ReconcileAction where
  | noop
  | repairTarOnly
  | sealFromTar
  | mergeAndSeal
  | skip
  deriving DecidableEq, Repr

/-- `classify_daily_tar_zst_reconcile`. -/
def classifyReconcile (tar zst : MemberMap) (zstExists zstReadable tarGnuReadable : Bool) :
    ReconcileAction :=
  if tarGnuReadable = false then .repairTarOnly
  else if zstExists = false then .sealFromTar
  else if zstReadable = false ∨ zst = [] then .skip
  else if mapsEquivalent tar zst then .noop
  else if containedIn zst tar then .sealFromTar
  else .mergeAndSeal

/-! ## Coverage -/

theorem Covers.mono {l l' : List Member} {m : Member} (h : Covers l m)
    (hsub : ∀ e ∈ l, e ∈ l') : Covers l' m := by
  obtain ⟨size, hmem, hle⟩ := h
  exact ⟨size, hsub _ hmem, hle⟩

theorem covers_of_mem {l : List Member} {m : Member} (h : m ∈ l) : Covers l m :=
  ⟨m.2, h, le_rfl⟩

theorem covers_append {l l' : List Member} {m : Member} :
    Covers (l ++ l') m ↔ Covers l m ∨ Covers l' m := by
  constructor
  · rintro ⟨size, hmem, hle⟩
    rcases List.mem_append.mp hmem with h | h
    · exact Or.inl ⟨size, h, hle⟩
    · exact Or.inr ⟨size, h, hle⟩
  · rintro (h | h)
    · exact h.mono fun e he => List.mem_append_left _ he
    · exact h.mono fun e he => List.mem_append_right _ he

theorem covers_cons {e : Member} {l : List Member} {m : Member} :
    Covers (e :: l) m ↔ (e.1 = m.1 ∧ m.2 ≤ e.2) ∨ Covers l m := by
  constructor
  · rintro ⟨size, hmem, hle⟩
    rcases List.mem_cons.mp hmem with h | h
    · exact Or.inl ⟨by rw [← h], by rw [← h]; exact hle⟩
    · exact Or.inr ⟨size, h, hle⟩
  · rintro (⟨hname, hle⟩ | h)
    · exact ⟨e.2, by rw [← hname]; exact List.mem_cons_self, hle⟩
    · exact h.mono fun x hx => List.mem_cons_of_mem _ hx

theorem covers_singleton {e m : Member} : Covers [e] m ↔ e.1 = m.1 ∧ m.2 ≤ e.2 := by
  rw [covers_cons]
  simp [Covers]

/-- Inserting a member covers it and loses nothing. -/
theorem covers_insertLargest (d : MemberMap) (e m : Member) :
    Covers (insertLargest d e) m ↔ Covers d m ∨ Covers [e] m := by
  induction d with
  | nil => simp [insertLargest, Covers]
  | cons x rest ih =>
      rw [insertLargest]
      split_ifs with hx
      · rw [covers_cons, covers_cons, covers_singleton]
        simp only [← hx, le_max_iff]
        tauto
      · rw [covers_cons, covers_cons, ih]
        tauto

theorem covers_foldl_insertLargest (c : Content) (d : MemberMap) (m : Member) :
    Covers (c.foldl insertLargest d) m ↔ Covers d m ∨ Covers c m := by
  induction c generalizing d with
  | nil => simp [Covers]
  | cons e c ih =>
      rw [List.foldl_cons, ih, covers_insertLargest,
        show e :: c = [e] ++ c from rfl, covers_append]
      tauto

/-- **The member map covers exactly what the archive covers.** -/
theorem covers_memberMap (c : Content) (m : Member) : Covers (memberMap c) m ↔ Covers c m := by
  rw [memberMap, covers_foldl_insertLargest]
  simp [Covers]

/-- Of two sizes the union keeps the larger one. -/
theorem setIfNotSmaller_eq (d : MemberMap) (e : Member) :
    setIfNotSmaller d e = insertLargest d e := by
  induction d with
  | nil => rfl
  | cons x rest ih => rw [setIfNotSmaller, insertLargest, ih, max_def]

/-- **The union covers both maps.** -/
theorem covers_membersUnion (tar zst : MemberMap) (m : Member) :
    Covers (membersUnion tar zst) m ↔ Covers zst m ∨ Covers tar m := by
  have hfold : setIfNotSmaller = insertLargest := by
    funext d e
    exact setIfNotSmaller_eq d e
  rw [membersUnion, hfold, covers_foldl_insertLargest]

theorem covers_sortedByName (d : MemberMap) (m : Member) :
    Covers (sortedByName d) m ↔ Covers d m := by
  have hperm : (sortedByName d).Perm d := List.perm_insertionSort _ d
  constructor <;> intro h <;> refine h.mono fun e he => ?_
  · exact hperm.mem_iff.mp he
  · exact hperm.mem_iff.mpr he

/-- A map contained in another is covered by it. -/
theorem Covers.of_containedIn {a b : MemberMap} {m : Member} (hab : containedIn a b = true)
    (h : Covers a m) : Covers b m := by
  refine h.mono fun e he => ?_
  have hl : b.lookup e.1 = some e.2 := by
    have := List.all_eq_true.mp hab e he
    simpa using this
  exact PyDict.mem_of_lookup hl

/-! ## The largest size of a name -/

/-- The largest size under which a name is in the archive. -/
def largest (c : Content) (name : String) : Option ℕ :=
  ((c.filter fun e => e.1 = name).map Prod.snd).max?

theorem largest_nil (name : String) : largest [] name = none := rfl

theorem largest_cons (e : Member) (c : Content) (name : String) :
    largest (e :: c) name =
      if e.1 = name then max (some e.2) (largest c name) else largest c name := by
  rw [largest, largest, List.filter_cons]
  by_cases hname : e.1 = name
  · rw [if_pos (decide_eq_true hname), if_pos hname, List.map_cons, List.max?_cons]
    cases ((c.filter fun e => e.1 = name).map Prod.snd).max? with
    | none => rfl
    | some n => rfl
  · rw [if_neg (by simpa using hname), if_neg hname]

/-- Inserting a member raises the size of its name to the member's. -/
theorem lookup_insertLargest (d : MemberMap) (e : Member) (name : String) :
    (insertLargest d e).lookup name =
      if e.1 = name then max (d.lookup name) (some e.2) else d.lookup name := by
  induction d with
  | nil =>
      rw [insertLargest, List.lookup_cons, List.lookup_nil]
      by_cases hname : e.1 = name
      · subst hname
        simp
      · have hb : (name == e.1) = false := by
          simpa using fun h : name = e.1 => hname h.symm
        rw [hb, if_neg hname]
  | cons x rest ih =>
      rw [insertLargest]
      by_cases hx : x.1 = e.1
      · rw [if_pos hx, List.lookup_cons, List.lookup_cons, hx]
        by_cases hname : e.1 = name
        · subst hname
          simp
        · have hb : (name == e.1) = false := by
            simpa using fun h : name = e.1 => hname h.symm
          rw [hb, if_neg hname]
      · rw [if_neg hx, List.lookup_cons, List.lookup_cons, ih]
        by_cases hname : e.1 = name
        · subst hname
          have hb : (e.1 == x.1) = false := by
            simpa using fun h : e.1 = x.1 => hx h.symm
          rw [hb, if_pos rfl]
        · rw [if_neg hname, if_neg hname]

/-- **Merging.**  A name has the larger of the size in the map and the largest one that comes in. -/
theorem lookup_foldl_insertLargest (c : Content) (d : MemberMap) (name : String) :
    (c.foldl insertLargest d).lookup name = max (d.lookup name) (largest c name) := by
  induction c generalizing d with
  | nil =>
      rw [List.foldl_nil, largest_nil]
      exact Option.max_none_right.symm
  | cons e c ih =>
      rw [List.foldl_cons, ih, lookup_insertLargest, largest_cons]
      by_cases hname : e.1 = name
      · rw [if_pos hname, if_pos hname]
        cases d.lookup name <;> cases largest c name <;> simp [max_assoc]
      · rw [if_neg hname, if_neg hname]

/-- **The member map is the name-to-largest-size map.** -/
theorem lookup_memberMap (c : Content) (name : String) :
    (memberMap c).lookup name = largest c name := by
  rw [memberMap, lookup_foldl_insertLargest, List.lookup_nil]
  exact Option.max_none_left

/-- The sizes of two archives, one behind the other. -/
theorem largest_append (c c' : Content) (name : String) :
    largest (c ++ c') name = max (largest c name) (largest c' name) := by
  rw [← lookup_memberMap, memberMap, List.foldl_append, lookup_foldl_insertLargest,
    lookup_foldl_insertLargest, List.lookup_nil, Option.max_none_left]

/-- Dictionaries that are equal give the same values. -/
theorem lookup_eq_of_mapsEquivalent {a b : MemberMap} (h : mapsEquivalent a b = true) (name : String) :
    a.lookup name = b.lookup name := by
  have hsub : ∀ {a b : MemberMap}, containedIn a b = true → ∀ n ∈ a.lookup name, b.lookup name = some n := by
    intro a b hab n hn
    have := List.all_eq_true.mp hab _ (PyDict.mem_of_lookup hn)
    simpa using this
  rw [mapsEquivalent, Bool.and_eq_true] at h
  cases ha : a.lookup name with
  | some n => exact (hsub h.1 n ha).symm
  | none =>
      cases hb : b.lookup name with
      | none => rfl
      | some n =>
          rw [hsub h.2 n hb] at ha
          cases ha

end ArchiveMembers
