/-
# Three lookups of one member

Whether a sealed daily archive has a member with an exact size is asked in three places: the L1 cache of member
maps (`daily_archive_has_member_with_size`), the members store when its map is warm (`member_match_when_warm`),
and a stream over the archive that stops at the member (`_sealed_archive_member_has_exact_size`).  The maps have
the largest size of a name; the stream stops at its first occurrence.

* `Holding` says that both maps are the archive's
* `l1_eq`, `store_eq` and `stream_eq`: what each lookup answers
* `sameAnswers_iff`: when the three agree
-/
import HpcPerfStats.MembersHistory

namespace PointLookup

open ArchiveMembers MembersStore MembersHistory

variable {I T : Type*}

/-! ## The cache -/

/-- What `daily_archive_has_member_with_size` finds out about a day. -/
structure DaySources where
  /-- the map of the open tar, where there is one -/
  openMembers : Option MemberMap
  /-- `daily_archive_populate_source_exists` -/
  sourceExists : Bool
  /-- the entry of the L1 cache -/
  l1 : Option MemberMap
  /-- `_daily_archive_member_match_via_store` -/
  storeMatch : Option Bool
  /-- `get_existing_archive_members_for_daily_archive` -/
  existingMembers : MemberMap

/-- `members.get(name) == expected_size`. -/
def sizeIs (members : MemberMap) (name : String) (expected : ℤ) : Bool :=
  decide (Option.map (fun size : ℕ => (size : ℤ)) (members.lookup name) = some expected)

/-- `daily_archive_has_member_with_size`. -/
def dailyArchiveHasMemberWithSize (day : DaySources) (name : String) (expected : ℤ) : Bool :=
  match day.openMembers with
  | some members => sizeIs members name expected
  | none =>
      if day.sourceExists then
        match day.l1 with
        | some members => sizeIs members name expected
        | none => day.storeMatch.getD (sizeIs day.existingMembers name expected)
      else false

/-! ## The store -/

/-- `is_fully_warm`. -/
def isFullyWarm (shard : Shard I T) (ident : I) : Bool :=
  shard.complete ident && !((shard.members ident).getD []).isEmpty

/-- `lookup_member`. -/
def lookupMember (shard : Shard I T) (ident : I) (name : String) : Option ℕ :=
  if shard.daySkip.isSome then none else (shard.members ident).bind fun members => members.lookup name

/-- `member_match_when_warm`. -/
def memberMatchWhenWarm (shard : Shard I T) (ident : I) (name : String) (expected : ℤ) : Option Bool :=
  if isFullyWarm shard ident = false then none
  else
    match lookupMember shard ident name with
    | some size =>
        if (size : ℤ) = expected then some true
        else if expected < size then some false
        else if shard.complete ident then some false
        else none
    | none => if shard.complete ident then some false else none

/-! ## The stream -/

/-- The loop of `_stream_compressed_archive_members`, its callback called for every row: the map, or what the
callback has raised. -/
def streamRows {α : Type} (onMember : Member → Option α) : MemberMap → Content → Except α MemberMap
  | members, [] => .ok members
  | members, row :: rows =>
      match onMember row with
      | some result => .error result
      | none => streamRows onMember (insertLargest members row) rows

/-- `_stream_compressed_archive_members`; `none` when `tar tvf` fails. -/
def streamCompressedArchiveMembers {α : Type} (listed : Bool) (rows : Content) (onMember : Member → Option α) :
    Option (Except α MemberMap) :=
  if listed then some (streamRows onMember [] rows) else none

/-- `_sealed_archive_member_has_exact_size`. -/
def sealedArchiveMemberHasExactSize (listed : Bool) (rows : Content) (name : String) (expected : ℤ) : Option Bool :=
  let onMember := fun row : Member => if row.1 = name then some (decide ((row.2 : ℤ) = expected)) else none
  (streamCompressedArchiveMembers listed rows onMember).map fun result =>
    match result with
    | .error found => found
    | .ok _ => false

/-! ## What they answer -/

/-- Both maps are the archive's; there is no open tar and no skip. -/
structure Holding (content : Content) (day : DaySources) (shard : Shard I T) (ident : I) : Prop where
  noTar : day.openMembers = none
  sourceExists : day.sourceExists = true
  cached : ∃ members, day.l1 = some members ∧ Exact members content
  stored : ∃ members, shard.members ident = some members ∧ Exact members content
  complete : shard.complete ident = true
  noSkip : shard.daySkip = none

/-- The largest occurrence of the name has the expected size. -/
def LargestIs (content : Content) (name : String) (expected : ℤ) : Prop :=
  Option.map (fun size : ℕ => (size : ℤ)) (largest content name) = some expected

instance (content : Content) (name : String) (expected : ℤ) : Decidable (LargestIs content name expected) :=
  inferInstanceAs (Decidable (_ = _))

theorem exact_nil_iff {members : MemberMap} {content : Content} (h : Exact members content) :
    members = [] ↔ content = [] := by
  constructor
  · rintro rfl
    cases content with
    | nil => rfl
    | cons e content =>
        have hlookup := h e.1
        rw [largest_cons, if_pos rfl, List.lookup_nil] at hlookup
        cases hl : largest content e.1 <;> rw [hl] at hlookup <;> cases hlookup
  · rintro rfl
    cases members with
    | nil => rfl
    | cons e members =>
        have hlookup := h e.1
        rw [largest_nil, List.lookup_cons_self] at hlookup
        cases hlookup

section Answers

variable {content : Content} {day : DaySources} {shard : Shard I T} {ident : I}

theorem sizeIs_eq {members : MemberMap} (h : Exact members content) (name : String) (expected : ℤ) :
    sizeIs members name expected = decide (LargestIs content name expected) := by
  refine decide_eq_decide.mpr ?_
  rw [h name]
  exact Iff.rfl

/-- **The cache** answers by the largest occurrence. -/
theorem l1_eq (h : Holding content day shard ident) (name : String) (expected : ℤ) :
    dailyArchiveHasMemberWithSize day name expected = decide (LargestIs content name expected) := by
  obtain ⟨members, hl1, hexact⟩ := h.cached
  unfold dailyArchiveHasMemberWithSize
  rw [h.noTar, h.sourceExists, hl1]
  exact sizeIs_eq hexact name expected

/-- A warm store answers by the size it finds. -/
theorem memberMatchWhenWarm_warm (hwarm : isFullyWarm shard ident = true) (hcomplete : shard.complete ident = true)
    (name : String) (expected : ℤ) :
    memberMatchWhenWarm shard ident name expected =
      some (decide (Option.map (fun size : ℕ => (size : ℤ)) (lookupMember shard ident name) = some expected)) := by
  unfold memberMatchWhenWarm
  rw [hwarm, if_neg (by decide)]
  cases lookupMember shard ident name with
  | none =>
      dsimp only
      rw [hcomplete]
      rfl
  | some size =>
      simp only [hcomplete, if_true, Option.map_some, Option.some.injEq]
      split_ifs with heq
      · rw [decide_eq_true heq]
      · rw [decide_eq_false heq]
      · rw [decide_eq_false heq]

/-- **The store** does so too, but an empty map counts as cold. -/
theorem store_eq (h : Holding content day shard ident) (name : String) (expected : ℤ) :
    memberMatchWhenWarm shard ident name expected =
      if content = [] then none else some (decide (LargestIs content name expected)) := by
  obtain ⟨members, hmembers, hexact⟩ := h.stored
  have hwarm : isFullyWarm shard ident = !members.isEmpty := by
    unfold isFullyWarm
    rw [h.complete, hmembers]
    rfl
  have hlookup : lookupMember shard ident name = largest content name := by
    unfold lookupMember
    rw [h.noSkip, hmembers]
    exact hexact name
  by_cases hempty : content = []
  · rw [if_pos hempty]
    unfold memberMatchWhenWarm
    rw [hwarm, (exact_nil_iff hexact).mpr hempty]
    rfl
  · have hnonempty : members ≠ [] := fun hnil => hempty ((exact_nil_iff hexact).mp hnil)
    rw [List.isEmpty_eq_false_iff.mpr hnonempty] at hwarm
    rw [if_neg hempty, memberMatchWhenWarm_warm hwarm h.complete]
    refine congrArg some (decide_eq_decide.mpr ?_)
    rw [hlookup]
    exact Iff.rfl

/-- **The stream** answers by the first occurrence. -/
theorem stream_eq (content : Content) (name : String) (expected : ℤ) :
    sealedArchiveMemberHasExactSize true content name expected =
      some (decide (Option.map (fun size : ℕ => (size : ℤ)) (content.lookup name) = some expected)) := by
  unfold sealedArchiveMemberHasExactSize streamCompressedArchiveMembers
  dsimp only
  rw [if_pos rfl, Option.map_some]
  congr 1
  -- the map that is collected on the way plays no part
  generalize ([] : MemberMap) = members
  induction content generalizing members with
  | nil => rfl
  | cons row rows ih =>
      rw [streamRows]
      by_cases hname : row.1 = name
      · subst hname
        rw [if_pos rfl, List.lookup_cons_self]
        simp only [Option.map_some, Option.some.injEq]
      · have hb : (name == row.1) = false := by simpa using fun h : name = row.1 => hname h.symm
        rw [if_neg hname, List.lookup_cons, hb]
        exact ih (insertLargest members row)

end Answers

/-! ## Where they agree -/

/-- All three answer, and by the largest occurrence. -/
structure SameAnswers (content : Content) (day : DaySources) (shard : Shard I T) (ident : I) (name : String)
    (expected : ℤ) : Prop where
  cache : dailyArchiveHasMemberWithSize day name expected = decide (LargestIs content name expected)
  store : memberMatchWhenWarm shard ident name expected = some (decide (LargestIs content name expected))
  stream : sealedArchiveMemberHasExactSize true content name expected =
    some (decide (LargestIs content name expected))

/-- The first occurrence of the name is as large as the largest one, or the expected size is neither's. -/
def FirstCounts (content : Content) (name : String) (expected : ℤ) : Prop :=
  ∀ size, content.lookup name = some size →
    largest content name = some size ∨ ((size : ℤ) ≠ expected ∧ ¬ LargestIs content name expected)

theorem lookup_eq_none_iff_largest {content : Content} {name : String} :
    content.lookup name = none ↔ largest content name = none := by
  induction content with
  | nil => exact iff_of_true rfl rfl
  | cons e content ih =>
      rw [largest_cons]
      by_cases hname : e.1 = name
      · subst hname
        rw [List.lookup_cons_self, if_pos rfl]
        cases largest content e.1 <;> simp
      · have hb : (name == e.1) = false := by simpa using fun h : name = e.1 => hname h.symm
        rw [List.lookup_cons, hb, if_neg hname]
        exact ih

/-- **The three lookups agree exactly on archives that are not empty and whose first occurrence counts.** -/
theorem sameAnswers_iff {content : Content} {day : DaySources} {shard : Shard I T} {ident : I}
    (h : Holding content day shard ident) (name : String) (expected : ℤ) :
    SameAnswers content day shard ident name expected ↔ content ≠ [] ∧ FirstCounts content name expected := by
  have hstream : sealedArchiveMemberHasExactSize true content name expected =
      some (decide (LargestIs content name expected)) ↔ FirstCounts content name expected := by
    rw [stream_eq, Option.some.injEq, decide_eq_decide]
    unfold FirstCounts
    cases hfirst : content.lookup name with
    | none =>
        refine iff_of_true ?_ fun size hsize => (by cases hsize)
        unfold LargestIs
        rw [lookup_eq_none_iff_largest.mp hfirst]
    | some size =>
        simp only [Option.map_some, Option.some.injEq, forall_eq']
        constructor
        · intro hiff
          by_cases hexpected : (size : ℤ) = expected
          · have hlargest : LargestIs content name expected := hiff.mp hexpected
            unfold LargestIs at hlargest
            obtain ⟨size', hsize', heq⟩ := Option.map_eq_some_iff.mp hlargest
            left
            rw [hsize']
            congr 1
            omega
          · exact Or.inr ⟨hexpected, fun hl => hexpected (hiff.mpr hl)⟩
        · rintro (hlargest | ⟨hne, hnot⟩)
          · unfold LargestIs
            rw [hlargest]
            simp only [Option.map_some, Option.some.injEq]
          · exact iff_of_false hne hnot
  constructor
  · intro hsame
    refine ⟨fun hempty => ?_, hstream.mp hsame.stream⟩
    have hstore := hsame.store
    rw [store_eq h, if_pos hempty] at hstore
    cases hstore
  · rintro ⟨hempty, hfirst⟩
    exact ⟨l1_eq h name expected, by rw [store_eq h, if_neg hempty], hstream.mpr hfirst⟩

/-- An archive whose maps both caches hold. -/
def heldDay (content : Content) : DaySources := ⟨none, true, some (memberMap content), none, []⟩

def heldShard (content : Content) : Shard ℕ ℕ :=
  { Shard.empty with members := fun _ => some (memberMap content), complete := fun _ => true }

theorem holding_held (content : Content) : Holding content (heldDay content) (heldShard content) 0 where
  noTar := rfl
  sourceExists := rfl
  cached := ⟨_, rfl, exact_memberMap content⟩
  stored := ⟨_, rfl, exact_memberMap content⟩
  complete := rfl
  noSkip := rfl

theorem sameAnswers_iff_once : SameAnswers [("h/1", 5)] (heldDay [("h/1", 5)]) (heldShard [("h/1", 5)]) 0 "h/1" 5 ↔
    [("h/1", 5)] ≠ ([] : Content) ∧ FirstCounts [("h/1", 5)] "h/1" 5 :=
  sameAnswers_iff (holding_held [("h/1", 5)]) "h/1" 5

/-- A file appended a second time when it had grown: the stream does not find its size. -/
theorem not_sameAnswers : ¬ ∀ (content : Content) (day : DaySources) (shard : Shard ℕ ℕ) (name : String)
    (expected : ℤ), Holding content day shard 0 → SameAnswers content day shard 0 name expected := by
  intro h
  have hstream := (h [("h/1", 5), ("h/1", 9)] _ _ "h/1" 9 (holding_held _)).stream
  revert hstream
  decide

end PointLookup
