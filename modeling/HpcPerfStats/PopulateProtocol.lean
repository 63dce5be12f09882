/-
# Single-flight populates (`populate_archive_members`)

Any number of threads work on the shard of one day.  A populate looks for a complete map, tries to become
the owner of the identity (`try_begin_populate`), scans the files, publishes the map (`store_complete`) and
gives the ownership back (`finish_populate`); when the scan fails it marks the day degraded and finishes
without a map.  Other threads merge, drop incomplete entries (`clear_stale_incomplete_archive_members`),
invalidate an identity, or invalidate everything.

Every call of the store fetches the shard from the table and then works on it under its lock, in two
steps.  A shard object is known by its generation, the number of times that the table had been cleared
when it was made.  Writing sidecars changes no shard and is left out, and so are the sticky skip of a
failed scan and the waiting for an append in flight.

`clock`, `invalidated` and `scannedAt` record when things happened; no step of the store reads them.

* `Sound` is the condition on a step: the entry of an owner is removed by the owner only, and a merge
  does not make a complete map out of nothing after an invalidation;
* `Inv` says that a populating thread is the owner and has begun after the last invalidation;
* `populate_safe` is the result for every run of sound steps.
-/
import HpcPerfStats.MembersStore
import HpcPerfStats.Transition
import Mathlib.Data.Fintype.Basic

set_option linter.unusedSectionVars false

namespace PopulateProtocol

open ArchiveMembers MembersStore Transition

/-! ## Threads -/

/-- A call of the store.  A call of a populate carries the time at which the populate has begun. -/
inductive Call (I : Type*) where
  | lookup (ident : I)
  | tryBegin (ident : I)
  | storeComplete (ident : I) (began : ℕ) (members : MemberMap) (sawDuplicates : Bool)
  | setDegraded (ident : I) (began : ℕ)
  | finish (ident : I) (began : ℕ) (complete : Bool)
  | merge (ident : I) (incoming : MemberMap) (sawDuplicates : Bool)
  | clearIncomplete (ident : I)
  | clearDegraded
  | invalidate (ident : I)
  deriving DecidableEq, Repr

/-- The calls that a thread can start with. -/
def Call.entry {I : Type*} : Call I → Bool
  | .lookup _ => true
  | .merge _ incoming _ => !incoming.isEmpty
  | .clearIncomplete _ => true
  | .invalidate _ => true
  | _ => false

/-- Where a thread stands. -/
inductive Pc (I : Type*) where
  | idle
  /-- The thread is about to make a call. -/
  | next (call : Call I)
  /-- The call has fetched its shard. -/
  | fetched (call : Call I) (gen : ℕ)
  /-- Another thread owns the identity, or the map is there now. -/
  | waiting (ident : I)
  | scanning (ident : I) (began : ℕ)
  /-- `invalidate_all` has taken the shard off the table. -/
  | clearing (gen : ℕ)
  deriving DecidableEq, Repr

/-- The shards of the day, the threads, and the times of what happened. -/
structure Day (I T : Type*) where
  gen : ℕ
  shards : ℕ → Shard I T
  pc : T → Pc I
  clock : ℕ
  invalidated : I → Option ℕ
  scannedAt : I → Option ℕ

/-- The steps of the threads. -/
inductive Action (I T : Type*) where
  | start (t : T) (call : Call I)
  | fetch (t : T)
  | locked (t : T)
  /-- The scan ends with the map and the duplicate flag, or fails. -/
  | scanned (t : T) (result : Option (MemberMap × Bool))
  | retry (t : T)
  | leave (t : T)
  | clearTable (t : T)
  | clearShard (t : T)
  deriving DecidableEq, Repr

variable {I T : Type*} [DecidableEq I] [DecidableEq T]

namespace Day

/-- The shard that the table gives. -/
def shard (s : Day I T) : Shard I T := s.shards s.gen

/-- A store that has read the sidecar of the day. -/
def opened (doc : Doc I) : Day I T where
  gen := 0
  shards := fun g => if g = 0 then Shard.load doc else Shard.empty
  pc := fun _ => .idle
  clock := 0
  invalidated := fun _ => none
  scannedAt := fun _ => none

/-- A thread goes on. -/
def goto (s : Day I T) (t : T) (pc : Pc I) : Day I T := { s with pc := Function.update s.pc t pc }

/-- Another value for one shard object. -/
def setShard (s : Day I T) (g : ℕ) (shard : Shard I T) : Day I T :=
  { s with shards := Function.update s.shards g shard }

/-- The map of an identity in the table comes from a populate that began at the given time, or from none. -/
def provenance (s : Day I T) (g : ℕ) (ident : I) (began : Option ℕ) : Day I T :=
  { s with scannedAt := if g = s.gen then Function.update s.scannedAt ident began else s.scannedAt }

/-- The identity is invalidated now. -/
def stamp (s : Day I T) (ident : I) : Day I T :=
  { s with clock := s.clock + 1, invalidated := Function.update s.invalidated ident (some s.clock) }

end Day

/-- What a call does under the lock of the shard it has fetched, and where its thread goes on. -/
def locked (s : Day I T) (t : T) (g : ℕ) : Call I → Day I T
  | .lookup ident =>
      if (s.shards g).complete ident then s.goto t .idle else s.goto t (.next (.tryBegin ident))
  | .tryBegin ident =>
      match (s.shards g).tryBeginPopulate ident t with
      | some shard => (s.setShard g shard).goto t (.scanning ident s.clock)
      | none => s.goto t (.waiting ident)
  | .storeComplete ident began members dup =>
      ((s.setShard g ((s.shards g).storeComplete ident members dup)).provenance g ident (some began)).goto t
        (.next (.finish ident began true))
  | .setDegraded ident began =>
      (s.setShard g (s.shards g).setDegraded).goto t (.next (.finish ident began false))
  | .finish ident _ complete =>
      (s.setShard g ((s.shards g).finishPopulate ident none complete)).goto t .idle
  | .merge ident incoming dup =>
      -- a merge on a complete map leaves the map with the populate that has scanned it
      let began := if (s.shards g).complete ident then s.scannedAt ident else none
      ((s.setShard g ((s.shards g).mergeMembers ident incoming dup)).provenance g ident began).goto t .idle
  | .clearIncomplete ident =>
      (s.setShard g ((s.shards g).clearIncomplete ident)).goto t (.next .clearDegraded)
  | .clearDegraded => (s.setShard g (s.shards g).clearDegraded).goto t .idle
  | .invalidate ident => ((s.setShard g ((s.shards g).invalidate ident)).stamp ident).goto t .idle

/-- One step. -/
def step (s : Day I T) : Action I T → Option (Day I T)
  | .start t call =>
      match s.pc t with
      | .idle => if call.entry then some (s.goto t (.next call)) else none
      | _ => none
  | .fetch t =>
      match s.pc t with
      | .next call => some (s.goto t (.fetched call s.gen))
      | _ => none
  | .locked t =>
      match s.pc t with
      | .fetched call g => some (locked s t g call)
      | _ => none
  | .scanned t result =>
      match s.pc t with
      | .scanning ident began =>
          match result with
          | some (members, dup) => some (s.goto t (.next (.storeComplete ident began members dup)))
          | none => some (s.goto t (.next (.setDegraded ident began)))
      | _ => none
  | .retry t =>
      match s.pc t with
      | .waiting ident => some (s.goto t (.next (.lookup ident)))
      | _ => none
  | .leave t =>
      match s.pc t with
      | .waiting _ => some (s.goto t .idle)
      | _ => none
  | .clearTable t =>
      match s.pc t with
      | .idle =>
          some ({ s with
            gen := s.gen + 1
            clock := s.clock + 1
            invalidated := fun _ => some s.clock }.goto t (.clearing s.gen))
      | _ => none
  | .clearShard t =>
      match s.pc t with
      | .clearing g => some ((s.setShard g Shard.empty).goto t .idle)
      | _ => none

/-! ## The condition -/

/-- The condition on what a call does under its lock. -/
def LockedSound (s : Day I T) (g : ℕ) : Call I → Prop
  -- an owner and an invalidation are entered in the shard of the table
  | .tryBegin _ => g = s.gen
  | .invalidate ident => g = s.gen ∧ (s.shard.populateOwner ident).isNone
  | .clearIncomplete ident =>
      g = s.gen → s.shard.complete ident = true ∨ (s.shard.populateOwner ident).isNone
  | .merge ident _ _ =>
      g = s.gen → s.shard.complete ident = true ∨ (s.invalidated ident).isNone
  | _ => True

/-- The condition on a thread that is about to take the lock. -/
def PcSound (s : Day I T) : Pc I → Prop
  | .fetched call g => LockedSound s g call
  | _ => True

/-- **The condition on a step.**  The entry of an owner is removed by the owner only; a populate begins and
an invalidation works on the shard of the table; and a merge makes a complete map only for an identity
that has one or was never invalidated. -/
def Sound (s : Day I T) : Action I T → Prop
  | .locked t => PcSound s (s.pc t)
  | .clearTable _ => ∀ ident, (s.shard.populateOwner ident).isNone
  | _ => True

instance (s : Day I T) (g : ℕ) : (call : Call I) → Decidable (LockedSound s g call)
  | .tryBegin _ => inferInstanceAs (Decidable (g = s.gen))
  | .invalidate _ => inferInstanceAs (Decidable (_ ∧ _))
  | .clearIncomplete _ => inferInstanceAs (Decidable (_ → _ ∨ _))
  | .merge _ _ _ => inferInstanceAs (Decidable (_ → _ ∨ _))
  | .lookup _ => isTrue trivial
  | .storeComplete _ _ _ _ => isTrue trivial
  | .setDegraded _ _ => isTrue trivial
  | .finish _ _ _ => isTrue trivial
  | .clearDegraded => isTrue trivial

instance (s : Day I T) : (pc : Pc I) → Decidable (PcSound s pc)
  | .fetched call g => inferInstanceAs (Decidable (LockedSound s g call))
  | .idle => isTrue trivial
  | .next _ => isTrue trivial
  | .waiting _ => isTrue trivial
  | .scanning _ _ => isTrue trivial
  | .clearing _ => isTrue trivial

instance [Fintype I] (s : Day I T) : (a : Action I T) → Decidable (Sound s a)
  | .locked t => inferInstanceAs (Decidable (PcSound s (s.pc t)))
  | .clearTable _ => inferInstanceAs (Decidable (∀ ident, (s.shard.populateOwner ident).isNone))
  | .start _ _ => isTrue trivial
  | .fetch _ => isTrue trivial
  | .scanned _ _ => isTrue trivial
  | .retry _ => isTrue trivial
  | .leave _ => isTrue trivial
  | .clearShard _ => isTrue trivial

/-! ## The invariant -/

/-- The populate that a call belongs to: its identity and the time it began. -/
def Call.populate : Call I → Option (I × ℕ)
  | .storeComplete ident began _ _ => some (ident, began)
  | .setDegraded ident began => some (ident, began)
  | .finish ident began _ => some (ident, began)
  | _ => none

/-- The populate that a thread is running. -/
def Pc.populate : Pc I → Option (I × ℕ)
  | .next call => call.populate
  | .fetched call _ => call.populate
  | .scanning ident began => some (ident, began)
  | _ => none

/-- The identity that a thread has published and not yet released. -/
def Call.published : Call I → Option I
  | .finish ident _ true => some ident
  | _ => none

/-- The identity that a thread has published and not yet released. -/
def Pc.published : Pc I → Option I
  | .next call => call.published
  | .fetched call _ => call.published
  | _ => none

/-- The generation that a thread has fetched: one that the table has had, and the one of the table for a
call of a populate. -/
def Pc.Fetched (gen : ℕ) : Pc I → Prop
  | .fetched call g => g ≤ gen ∧ (call.populate.isSome → g = gen)
  | .clearing g => g < gen
  | _ => True

/-- **The invariant.** -/
structure Inv (s : Day I T) : Prop where
  owner : ∀ t ident began, (s.pc t).populate = some (ident, began) →
    s.shard.populateOwner ident = some t
  began : ∀ t ident began, (s.pc t).populate = some (ident, began) →
    ∀ time ∈ s.invalidated ident, time < began
  published : ∀ t ident, (s.pc t).published = some ident → s.shard.complete ident = true
  scanned : ∀ ident, s.shard.complete ident = true →
    ∀ time ∈ s.invalidated ident, ∃ b ∈ s.scannedAt ident, time < b
  past : ∀ ident, ∀ time ∈ s.invalidated ident, time < s.clock
  fresh : ∀ g, s.gen < g → s.shards g = Shard.empty
  fetched : ∀ t, (s.pc t).Fetched s.gen

theorem inv_opened (doc : Doc I) : Inv (Day.opened doc : Day I T) := by
  refine ⟨?_, ?_, ?_, ?_, ?_, ?_, fun _ => trivial⟩
  · intro t ident began h
    cases h
  · intro t ident began h
    cases h
  · intro t ident h
    cases h
  · intro ident _ time h
    cases h
  · intro ident time h
    cases h
  · intro g hg
    exact if_neg (Nat.pos_iff_ne_zero.mp hg)

/-- A published identity is one that is being populated. -/
theorem Pc.populate_of_published {pc : Pc I} {ident : I} (h : pc.published = some ident) :
    ∃ began, pc.populate = some (ident, began) := by
  have hcall : ∀ call : Call I, call.published = some ident →
      ∃ began, call.populate = some (ident, began) := by
    intro call hc
    unfold Call.published at hc
    split at hc
    · rename_i i b
      cases hc
      exact ⟨b, rfl⟩
    · cases hc
  cases pc with
  | next call => exact hcall call h
  | fetched call g => exact hcall call h
  | idle => cases h
  | waiting _ => cases h
  | scanning _ _ => cases h
  | clearing _ => cases h

/-! ## Threads that go on -/

/-- What a thread has to have where it goes. -/
structure Ready (s : Day I T) (t : T) (pc : Pc I) : Prop where
  owner : ∀ ident began, pc.populate = some (ident, began) → s.shard.populateOwner ident = some t
  began : ∀ ident began, pc.populate = some (ident, began) → ∀ time ∈ s.invalidated ident, time < began
  published : ∀ ident, pc.published = some ident → s.shard.complete ident = true
  fetched : pc.Fetched s.gen

/-- Nothing is needed outside a populate. -/
theorem Ready.outside {s : Day I T} {t : T} {pc : Pc I} (hpop : pc.populate = none)
    (hfetched : pc.Fetched s.gen) : Ready s t pc := by
  refine ⟨?_, ?_, ?_, hfetched⟩
  · intro ident began h
    rw [hpop] at h
    cases h
  · intro ident began h
    rw [hpop] at h
    cases h
  · intro ident h
    obtain ⟨began, hb⟩ := Pc.populate_of_published h
    rw [hpop] at hb
    cases hb

/-- A thread that is in a populate goes on in it. -/
theorem Inv.ready {s : Day I T} (h : Inv s) {t : T} {pc : Pc I} (hpop : pc.populate = (s.pc t).populate)
    (hpub : ∀ ident, pc.published = some ident → s.shard.complete ident = true)
    (hfetched : pc.Fetched s.gen) : Ready s t pc := by
  refine ⟨?_, ?_, hpub, hfetched⟩
  · intro ident began hp
    exact h.owner t ident began (hpop ▸ hp)
  · intro ident began hp
    exact h.began t ident began (hpop ▸ hp)

theorem Inv.goto {s : Day I T} (h : Inv s) {t : T} {pc : Pc I} (hready : Ready s t pc) :
    Inv (s.goto t pc) := by
  have hcases : ∀ {P : T → Pc I → Prop}, P t pc → (∀ t', P t' (s.pc t')) →
      ∀ t', P t' (Function.update s.pc t pc t') := by
    intro P hself hrest t'
    by_cases ht : t' = t
    · subst ht
      rw [Function.update_self]
      exact hself
    · rw [Function.update_of_ne ht]
      exact hrest t'
  refine ⟨?_, ?_, ?_, h.scanned, h.past, h.fresh, ?_⟩
  · exact hcases (P := fun t' pc => ∀ ident began, pc.populate = some (ident, began) →
      s.shard.populateOwner ident = some t') hready.owner h.owner
  · exact hcases (P := fun _ pc => ∀ ident began, pc.populate = some (ident, began) →
      ∀ time ∈ s.invalidated ident, time < began) hready.began h.began
  · exact hcases (P := fun _ pc => ∀ ident, pc.published = some ident →
      s.shard.complete ident = true) hready.published h.published
  · exact hcases (P := fun _ pc => pc.Fetched s.gen) hready.fetched h.fetched

/-- A thread that lets go of everything. -/
theorem Inv.released {s : Day I T} (h : Inv s) (t : T) : Inv (s.goto t .idle) :=
  h.goto (Ready.outside rfl trivial)

/-! ## Changes of shards -/

theorem shard_setShard_self (s : Day I T) (shard : Shard I T) : (s.setShard s.gen shard).shard = shard := by
  simp [Day.setShard, Day.shard]

theorem shard_setShard_of_ne (s : Day I T) {g : ℕ} (shard : Shard I T) (hg : g ≠ s.gen) :
    (s.setShard g shard).shard = s.shard := by
  rw [Day.setShard, Day.shard, Day.shard]
  exact Function.update_of_ne (Ne.symm hg) ..

theorem provenance_self (s : Day I T) (shard : Shard I T) (ident : I) (began : Option ℕ) :
    (s.setShard s.gen shard).provenance s.gen ident began =
      { s.setShard s.gen shard with scannedAt := Function.update s.scannedAt ident began } := by
  simp [Day.setShard, Day.provenance]

theorem provenance_of_ne (s : Day I T) {g : ℕ} (hg : g ≠ s.gen) (shard : Shard I T) (ident : I)
    (began : Option ℕ) : (s.setShard g shard).provenance g ident began = s.setShard g shard := by
  simp [Day.setShard, Day.provenance, hg]

theorem fresh_setShard {s : Day I T} (h : ∀ g, s.gen < g → s.shards g = Shard.empty) {g : ℕ}
    (hg : g ≤ s.gen) (shard : Shard I T) :
    ∀ g', s.gen < g' → (s.setShard g shard).shards g' = Shard.empty := by
  intro g' hlt
  have hne : g' ≠ g := by omega
  rw [Day.setShard]
  dsimp only
  rw [Function.update_of_ne hne]
  exact h g' hlt

/-- A shard that is off the table may change. -/
theorem Inv.setShard_of_lt {s : Day I T} (h : Inv s) {g : ℕ} (hg : g < s.gen) (shard : Shard I T) :
    Inv (s.setShard g shard) := by
  have hshard := shard_setShard_of_ne s shard (Nat.ne_of_lt hg)
  refine ⟨?_, h.began, ?_, ?_, h.past, fresh_setShard h.fresh (Nat.le_of_lt hg) _, h.fetched⟩
  · intro t ident began hp
    rw [hshard]
    exact h.owner t ident began hp
  · intro t ident hp
    rw [hshard]
    exact h.published t ident hp
  · intro ident hc
    rw [hshard] at hc
    exact h.scanned ident hc

/-- **The shard of the table changes.**  The owners stay owners, what they have published stays complete,
and what becomes complete is covered by a scan. -/
theorem Inv.setShard {s : Day I T} (h : Inv s) (shard : Shard I T)
    (howner : ∀ t ident began, (s.pc t).populate = some (ident, began) →
      shard.populateOwner ident = some t)
    (hpublished : ∀ t ident, (s.pc t).published = some ident → shard.complete ident = true)
    (clock : ℕ) (hclock : s.clock ≤ clock) (invalidated : I → Option ℕ)
    (hinvalidated : ∀ ident, invalidated ident = s.invalidated ident ∨
      (∃ time ∈ invalidated ident, time < clock) ∧ shard.complete ident = false ∧
        s.shard.populateOwner ident = none)
    (scannedAt : I → Option ℕ)
    (hscanned : ∀ ident, shard.complete ident = true →
      ∀ time ∈ invalidated ident, ∃ b ∈ scannedAt ident, time < b) :
    Inv { s.setShard s.gen shard with
      clock := clock, invalidated := invalidated, scannedAt := scannedAt } := by
  refine ⟨?_, ?_, ?_, ?_, ?_, fresh_setShard h.fresh (Nat.le_refl _) _, h.fetched⟩
  · intro t ident began hp
    show (s.setShard s.gen shard).shard.populateOwner ident = some t
    rw [shard_setShard_self]
    exact howner t ident began hp
  · intro t ident began hp time htime
    rcases hinvalidated ident with heq | ⟨-, -, hnone⟩
    · exact h.began t ident began hp time (heq ▸ htime)
    · rw [h.owner t ident began hp] at hnone
      cases hnone
  · intro t ident hp
    show (s.setShard s.gen shard).shard.complete ident = true
    rw [shard_setShard_self]
    exact hpublished t ident hp
  · intro ident hc
    have hc' : (s.setShard s.gen shard).shard.complete ident = true := hc
    rw [shard_setShard_self] at hc'
    exact hscanned ident hc'
  · intro ident time htime
    rcases hinvalidated ident with heq | ⟨⟨time', htime', hlt⟩, -, -⟩
    · exact Nat.lt_of_lt_of_le (h.past ident time (heq ▸ htime)) hclock
    · have hsame : time = time' := Option.mem_unique htime htime'
      exact hsame ▸ hlt

/-! ## The calls of a populate -/

/-- An owner has an entry. -/
theorem Inv.owner_isSome {s : Day I T} (h : Inv s) {t : T} {ident : I}
    (hpub : (s.pc t).published = some ident) : (s.shard.populateOwner ident).isSome = true := by
  obtain ⟨began, hp⟩ := Pc.populate_of_published hpub
  rw [h.owner t ident began hp]
  rfl

theorem Inv.tryBegin {s : Day I T} (h : Inv s) {t : T} {ident : I}
    (hpc : s.pc t = .fetched (.tryBegin ident) s.gen) : Inv (locked s t s.gen (.tryBegin ident)) := by
  rw [locked]
  cases hbegin : (s.shards s.gen).tryBeginPopulate ident t with
  | none => exact h.goto (Ready.outside rfl trivial)
  | some shard =>
      unfold Shard.tryBeginPopulate at hbegin
      split_ifs at hbegin with howned hcomplete
      cases hbegin
      -- nobody else populates the identity
      have hfree : ∀ t' i began, (s.pc t').populate = some (i, began) → i ≠ ident := by
        rintro t' i began hp rfl
        have hown : (s.shards s.gen).populateOwner i = some t' := h.owner t' i began hp
        exact howned (by rw [hown]; rfl)
      have hinv := h.setShard
        { s.shards s.gen with
          populateOwner := Function.update (s.shards s.gen).populateOwner ident (some t) }
        (by
          intro t' i began hp
          dsimp only
          rw [Function.update_of_ne (hfree t' i began hp)]
          exact h.owner t' i began hp)
        h.published _ (Nat.le_refl _) _ (fun i => Or.inl rfl) _ h.scanned
      refine hinv.goto ⟨?_, ?_, ?_, trivial⟩
      · rintro i began ⟨⟩
        show (s.setShard s.gen _).shard.populateOwner ident = some t
        rw [shard_setShard_self]
        exact Function.update_self ..
      · rintro i began ⟨⟩
        exact h.past ident
      · intro i hp
        cases hp

theorem Inv.storeComplete {s : Day I T} (h : Inv s) {t : T} {ident : I} {began : ℕ} {members : MemberMap}
    {dup : Bool} (hpc : s.pc t = .fetched (.storeComplete ident began members dup) s.gen) :
    Inv (locked s t s.gen (.storeComplete ident began members dup)) := by
  have hpop : (s.pc t).populate = some (ident, began) := by
    rw [hpc]
    rfl
  have hinv := h.setShard ((s.shards s.gen).storeComplete ident members dup) h.owner
    (fun t' i hp => Shard.complete_storeComplete (h.published t' i hp) (h.owner_isSome hp) _ _)
    _ (Nat.le_refl _) _ (fun i => Or.inl rfl) (Function.update s.scannedAt ident (some began))
    (by
      intro i hc time htime
      by_cases hi : i = ident
      · subst hi
        refine ⟨began, Function.update_self .., ?_⟩
        -- whatever was invalidated was so before the scan began
        exact h.began t i began hpop time htime
      · rw [Function.update_of_ne hi]
        exact h.scanned i (Shard.complete_of_storeComplete hi hc) time htime)
  rw [locked, provenance_self]
  refine hinv.goto ⟨?_, ?_, ?_, trivial⟩
  · rintro i b ⟨⟩
    show (s.setShard s.gen _).shard.populateOwner ident = some t
    rw [shard_setShard_self]
    exact h.owner t ident began hpop
  · rintro i b ⟨⟩
    exact h.began t ident began hpop
  · rintro i ⟨⟩
    show (s.setShard s.gen _).shard.complete ident = true
    rw [shard_setShard_self]
    exact Shard.complete_storeComplete_self ..

theorem Inv.setDegraded {s : Day I T} (h : Inv s) {t : T} {ident : I} {began : ℕ}
    (hpc : s.pc t = .fetched (.setDegraded ident began) s.gen) :
    Inv (locked s t s.gen (.setDegraded ident began)) := by
  have hinv := h.setShard (s.shards s.gen).setDegraded h.owner h.published
    _ (Nat.le_refl _) _ (fun i => Or.inl rfl) _ h.scanned
  apply hinv.goto
  apply hinv.ready
  · show _ = (s.pc t).populate
    rw [hpc]
    rfl
  · intro i hp
    cases hp
  · trivial

/-- The owner gives the identity back. -/
theorem Inv.finish {s : Day I T} (h : Inv s) {t : T} {ident : I} {began : ℕ} {complete : Bool}
    (hpc : s.pc t = .fetched (.finish ident began complete) s.gen) :
    Inv (locked s t s.gen (.finish ident began complete)) := by
  have howner : s.shard.populateOwner ident = some t := by
    apply h.owner t ident began
    rw [hpc]
    rfl
  have hpublished : complete = true → s.shard.complete ident = true := by
    rintro rfl
    apply h.published t
    rw [hpc]
    rfl
  have h₀ := h.released t
  -- the other populates are of other identities
  have hother : ∀ t' i b, ((s.goto t .idle).pc t').populate = some (i, b) → i ≠ ident := by
    rintro t' i b hp rfl
    have hown : s.shard.populateOwner i = some t' := h₀.owner t' i b hp
    rw [howner, Option.some.injEq] at hown
    subst hown
    rw [Day.goto] at hp
    dsimp only at hp
    rw [Function.update_self] at hp
    cases hp
  -- a finish publishes only what a store has published
  have hcomplete : ∀ i, ((s.shards s.gen).finishPopulate ident none complete).complete i = true →
      s.shard.complete i = true := by
    intro i hc
    cases complete with
    | false => exact hc
    | true =>
        have hset := Shard.complete_of_dropStaleIdentities hc
        by_cases hi : i = ident
        · rw [hi]
          exact hpublished rfl
        · dsimp only at hset
          rw [if_pos rfl, Function.update_of_ne hi] at hset
          exact hset
  refine h₀.setShard ((s.shards s.gen).finishPopulate ident none complete) ?_ ?_
    _ (Nat.le_refl _) _ (fun i => Or.inl rfl) _ ?_
  · intro t' i b hp
    have hown : s.shard.populateOwner i = some t' := h₀.owner t' i b hp
    have hne := hother t' i b hp
    have hupdate : Function.update (s.shards s.gen).populateOwner ident none i = some t' := by
      rw [Function.update_of_ne hne]
      exact hown
    cases complete with
    | false => exact hupdate
    | true => exact hupdate
  · intro t' i hp
    obtain ⟨b, hpop⟩ := Pc.populate_of_published hp
    have hc : s.shard.complete i = true := h₀.published t' i hp
    have hne := hother t' i b hpop
    have hown : s.shard.populateOwner i = some t' := h₀.owner t' i b hpop
    cases complete with
    | false => exact hc
    | true =>
        apply Shard.complete_dropStaleIdentities
        · dsimp only
          rw [if_pos rfl, Function.update_of_ne hne]
          exact hc
        · right
          dsimp only
          rw [Function.update_of_ne hne]
          show (s.shard.populateOwner i).isSome
          rw [hown]
          rfl
  · intro i hc
    exact h.scanned i (hcomplete i hc)

/-! ## The other calls -/

theorem Inv.merge {s : Day I T} (h : Inv s) {t : T} {g : ℕ} {ident : I} {incoming : MemberMap} {dup : Bool}
    (hg : g ≤ s.gen) (hsound : LockedSound s g (.merge ident incoming dup)) :
    Inv (locked s t g (.merge ident incoming dup)) := by
  rw [locked]
  by_cases hlive : g = s.gen
  · subst hlive
    rw [provenance_self]
    have hinv := h.setShard ((s.shards s.gen).mergeMembers ident incoming dup) h.owner
      (fun t' i hp => Shard.complete_storeComplete (s := { s.shards s.gen with degraded := false })
        (h.published t' i hp) (h.owner_isSome hp) _ _)
      _ (Nat.le_refl _) _ (fun i => Or.inl rfl)
      (Function.update s.scannedAt ident
        (if (s.shards s.gen).complete ident then s.scannedAt ident else none))
      (by
        intro i hc time htime
        by_cases hi : i = ident
        · subst hi
          rw [Function.update_self]
          -- the map was complete, or the identity was never invalidated
          rcases hsound rfl with hcomplete | hnever
          · have hmarked : (s.shards s.gen).complete i = true := hcomplete
            rw [if_pos hmarked]
            exact h.scanned i hcomplete time htime
          · rw [Option.isNone_iff_eq_none.mp hnever] at htime
            cases htime
        · rw [Function.update_of_ne hi]
          exact h.scanned i (Shard.complete_of_storeComplete
            (s := { s.shards s.gen with degraded := false }) hi hc) time htime)
    exact hinv.goto (Ready.outside rfl trivial)
  · rw [provenance_of_ne s hlive]
    -- the shard has left the table: nobody reads it
    exact (h.setShard_of_lt (by omega) _).goto (Ready.outside rfl trivial)

theorem Inv.clearIncomplete {s : Day I T} (h : Inv s) {t : T} {g : ℕ} {ident : I} (hg : g ≤ s.gen)
    (hsound : LockedSound s g (.clearIncomplete ident)) :
    Inv (locked s t g (.clearIncomplete ident)) := by
  rw [locked]
  by_cases hlive : g = s.gen
  · subst hlive
    have howner : ((s.shards s.gen).clearIncomplete ident).populateOwner = s.shard.populateOwner := by
      rw [Shard.clearIncomplete]
      split_ifs with hcomplete
      · rfl
      · have hnone : s.shard.populateOwner ident = none :=
          Option.isNone_iff_eq_none.mp ((hsound rfl).resolve_left hcomplete)
        exact Function.update_eq_self_iff.mpr hnone.symm
    have hcomplete : ((s.shards s.gen).clearIncomplete ident).complete = s.shard.complete := by
      rw [Shard.clearIncomplete]
      split_ifs
      · rfl
      · rfl
    have hinv := h.setShard ((s.shards s.gen).clearIncomplete ident)
      (by rw [howner]; exact h.owner) (by rw [hcomplete]; exact h.published) _ (Nat.le_refl _)
      _ (fun i => Or.inl rfl) _ (by rw [hcomplete]; exact h.scanned)
    exact hinv.goto (Ready.outside rfl trivial)
  · exact (h.setShard_of_lt (by omega) _).goto (Ready.outside rfl trivial)

theorem Inv.clearDegraded {s : Day I T} (h : Inv s) {t : T} {g : ℕ} (hg : g ≤ s.gen) :
    Inv (locked s t g .clearDegraded) := by
  rw [locked]
  by_cases hlive : g = s.gen
  · subst hlive
    have hinv := h.setShard (s.shards s.gen).clearDegraded h.owner h.published
      _ (Nat.le_refl _) _ (fun i => Or.inl rfl) _ h.scanned
    exact hinv.goto (Ready.outside rfl trivial)
  · exact (h.setShard_of_lt (by omega) _).goto (Ready.outside rfl trivial)

theorem Inv.invalidate {s : Day I T} (h : Inv s) {t : T} {ident : I}
    (hsound : LockedSound s s.gen (.invalidate ident)) :
    Inv (locked s t s.gen (.invalidate ident)) := by
  -- no populate may be under way
  have hnone : s.shard.populateOwner ident = none := Option.isNone_iff_eq_none.mp hsound.2
  have howner : ((s.shards s.gen).invalidate ident).populateOwner = s.shard.populateOwner :=
    Function.update_eq_self_iff.mpr hnone.symm
  have hinv := h.setShard ((s.shards s.gen).invalidate ident)
    (by rw [howner]; exact h.owner)
    (by
      intro t' i hp
      have hi : i ≠ ident := by
        rintro rfl
        have := h.owner_isSome hp
        rw [hnone] at this
        cases this
      rw [Shard.invalidate]
      dsimp only
      rw [Function.update_of_ne hi]
      exact h.published t' i hp)
    (s.clock + 1) (Nat.le_succ _)
    (Function.update s.invalidated ident (some s.clock))
    (by
      intro i
      by_cases hi : i = ident
      · subst hi
        -- the invalidation is the newest, and the identity is not complete
        refine Or.inr ⟨⟨s.clock, Function.update_self .., Nat.lt_succ_self _⟩, ?_, hnone⟩
        exact Function.update_self ..
      · exact Or.inl (Function.update_of_ne hi ..))
    s.scannedAt
    (by
      intro i hc time htime
      rw [Shard.invalidate] at hc
      dsimp only at hc
      by_cases hi : i = ident
      · subst hi
        rw [Function.update_self] at hc
        cases hc
      · rw [Function.update_of_ne hi] at hc htime
        exact h.scanned i hc time htime)
  exact hinv.goto (Ready.outside rfl trivial)

/-- **What a call does under its lock** keeps the invariant. -/
theorem Inv.locked {s : Day I T} (h : Inv s) {t : T} {call : Call I} {g : ℕ}
    (hpc : s.pc t = .fetched call g) (hsound : LockedSound s g call) : Inv (locked s t g call) := by
  have hfetched := h.fetched t
  rw [hpc] at hfetched
  obtain ⟨hg, hlive⟩ := hfetched
  cases call with
  | lookup ident =>
      rw [PopulateProtocol.locked]
      split_ifs
      · exact h.released t
      · exact h.goto (Ready.outside rfl trivial)
  | tryBegin ident =>
      have hgen : g = s.gen := hsound
      subst hgen
      exact h.tryBegin hpc
  | storeComplete ident began members dup =>
      obtain rfl := hlive rfl
      exact h.storeComplete hpc
  | setDegraded ident began =>
      obtain rfl := hlive rfl
      exact h.setDegraded hpc
  | finish ident began complete =>
      obtain rfl := hlive rfl
      exact h.finish hpc
  | merge ident incoming dup => exact h.merge hg hsound
  | clearIncomplete ident => exact h.clearIncomplete hg hsound
  | clearDegraded => exact h.clearDegraded hg
  | invalidate ident =>
      have hgen : g = s.gen := hsound.1
      subst hgen
      exact h.invalidate hsound

/-! ## Whole runs -/

/-- `_shards.clear()` when nobody is populating. -/
theorem Inv.clearTable {s : Day I T} (h : Inv s) (t : T)
    (hsound : ∀ ident, (s.shard.populateOwner ident).isNone) :
    Inv ({ s with
      gen := s.gen + 1
      clock := s.clock + 1
      invalidated := fun _ => some s.clock }.goto t (.clearing s.gen)) := by
  have hnobody : ∀ t' ident began, (s.pc t').populate ≠ some (ident, began) := by
    intro t' ident began hp
    have hnone := Option.isNone_iff_eq_none.mp (hsound ident)
    rw [h.owner t' ident began hp] at hnone
    cases hnone
  have hfetched : ∀ t', (s.pc t').Fetched (s.gen + 1) := by
    intro t'
    have hf := h.fetched t'
    cases hpc : s.pc t' with
    | fetched call g =>
        rw [hpc] at hf
        refine ⟨Nat.le_succ_of_le hf.1, ?_⟩
        intro hcall
        obtain ⟨⟨ident, began⟩, hp⟩ := Option.isSome_iff_exists.mp hcall
        refine absurd ?_ (hnobody t' ident began)
        rw [hpc]
        exact hp
    | clearing g =>
        rw [hpc] at hf
        exact Nat.lt_succ_of_lt hf
    | idle => trivial
    | next call => trivial
    | waiting ident => trivial
    | scanning ident began => trivial
  have hempty : s.shards (s.gen + 1) = Shard.empty := h.fresh _ (Nat.lt_succ_self _)
  have hinv : Inv { s with
      gen := s.gen + 1
      clock := s.clock + 1
      invalidated := fun _ => some s.clock } := by
    refine ⟨?_, ?_, ?_, ?_, ?_, ?_, hfetched⟩
    · intro t' ident began hp
      exact absurd hp (hnobody t' ident began)
    · intro t' ident began hp
      exact absurd hp (hnobody t' ident began)
    · intro t' ident hp
      obtain ⟨began, hp⟩ := Pc.populate_of_published hp
      exact absurd hp (hnobody t' ident began)
    · intro ident hc
      have hc' : (s.shards (s.gen + 1)).complete ident = true := hc
      rw [hempty] at hc'
      cases hc'
    · rintro ident time ⟨⟩
      exact Nat.lt_succ_self _
    · intro g hg
      have hlt : s.gen + 1 < g := hg
      exact h.fresh g (by omega)
  exact hinv.goto (Ready.outside rfl (Nat.lt_succ_self s.gen))

/-- **The step lemma.** -/
theorem inv_step (s : Day I T) (a : Action I T) (s' : Day I T) (h : Inv s) (hsound : Sound s a)
    (hstep : step s a = some s') : Inv s' := by
  cases a with
  | start t call =>
      cases hpc : s.pc t <;> simp only [step, hpc] at hstep <;> try cases hstep
      split_ifs at hstep with hentry
      refine Option.some.inj hstep ▸ h.goto (Ready.outside ?_ trivial)
      cases call <;> first | rfl | cases hentry
  | fetch t =>
      cases hpc : s.pc t <;> simp only [step, hpc] at hstep <;> try cases hstep
      rename_i call
      apply h.goto
      apply h.ready
      · rw [hpc]
        rfl
      · intro ident hp
        apply h.published t
        rw [hpc]
        exact hp
      · exact ⟨Nat.le_refl _, fun _ => rfl⟩
  | locked t =>
      cases hpc : s.pc t <;> simp only [step, hpc] at hstep <;> try cases hstep
      refine h.locked hpc ?_
      have hs : PcSound s (s.pc t) := hsound
      rwa [hpc] at hs
  | scanned t result =>
      cases hpc : s.pc t <;> simp only [step, hpc] at hstep <;> try cases hstep
      cases result with
      | none =>
          refine Option.some.inj hstep ▸ h.goto (h.ready ?_ ?_ trivial)
          · rw [hpc]
            rfl
          · intro ident hp
            cases hp
      | some result =>
          refine Option.some.inj hstep ▸ h.goto (h.ready ?_ ?_ trivial)
          · rw [hpc]
            rfl
          · intro ident hp
            cases hp
  | retry t =>
      cases hpc : s.pc t <;> simp only [step, hpc] at hstep <;> try cases hstep
      exact h.goto (Ready.outside rfl trivial)
  | leave t =>
      cases hpc : s.pc t <;> simp only [step, hpc] at hstep <;> try cases hstep
      exact h.released t
  | clearTable t =>
      cases hpc : s.pc t <;> simp only [step, hpc] at hstep <;> try cases hstep
      exact h.clearTable t hsound
  | clearShard t =>
      cases hpc : s.pc t <;> simp only [step, hpc] at hstep <;> try cases hstep
      have hfetched := h.fetched t
      rw [hpc] at hfetched
      exact (h.setShard_of_lt hfetched _).released t

/-- At most one thread is scanning an identity. -/
def OneScanner (s : Day I T) : Prop :=
  ∀ t t' ident b b', s.pc t = .scanning ident b → s.pc t' = .scanning ident b' → t = t'

/-- A complete map that is there after an invalidation was scanned by a populate that began after it. -/
def ScannedSince (s : Day I T) : Prop :=
  ∀ ident, s.shard.complete ident = true →
    ∀ time ∈ s.invalidated ident, ∃ b ∈ s.scannedAt ident, time < b

/-- **Single flight.**  In every state that a run of sound steps reaches, an identity has at most one
scanner, and no complete map is older than the last invalidation of its identity. -/
theorem populate_safe (doc : Doc I) (as : List (Action I T)) (s : Day I T)
    (hsound : Respects step Sound (Day.opened doc) as)
    (hrun : exec step (Day.opened doc) as = some s) : OneScanner s ∧ ScannedSince s := by
  have h := exec_invariant inv_step as (Day.opened doc) s (inv_opened doc) hsound hrun
  refine ⟨?_, h.scanned⟩
  intro t t' ident b b' ht ht'
  have howner := h.owner t ident b (by rw [ht]; rfl)
  rw [h.owner t' ident b' (by rw [ht']; rfl), Option.some.injEq] at howner
  exact howner.symm

/-- A thread runs a populate up to its scan. -/
def upToScan (t : Bool) : List (Action Bool Bool) :=
  [.start t (.lookup true), .fetch t, .locked t, .fetch t, .locked t]

/-- A scan ends and the map is published. -/
def published (t : Bool) : List (Action Bool Bool) :=
  [.scanned t (some ([("a", 5)], false)), .fetch t, .locked t]

/-- The identity is invalidated. -/
def invalidation (t : Bool) : List (Action Bool Bool) :=
  [.start t (.invalidate true), .fetch t, .locked t]

/-- A populate that another thread waits for, an invalidation, everything invalidated, and a populate. -/
theorem populate_safe_afterInvalidations :
    ∃ s : Day Bool Bool, exec step (Day.opened Doc.empty)
        (upToScan false ++ upToScan true ++ published false ++ [.fetch false, .locked false, .retry true,
          .fetch true, .locked true] ++ invalidation true ++ [.clearTable true, .clearShard true] ++
          upToScan false ++ published false) = some s ∧
      s.shard.complete true = true ∧ (s.invalidated true).isSome = true ∧ OneScanner s ∧
      ScannedSince s := by
  have hrun : ((exec step (Day.opened Doc.empty)
      (upToScan false ++ upToScan true ++ published false ++ ([.fetch false, .locked false, .retry true,
        .fetch true, .locked true] : List (Action Bool Bool)) ++ invalidation true ++
        ([.clearTable true, .clearShard true] : List (Action Bool Bool)) ++
        upToScan false ++ published false)).map fun s : Day Bool Bool =>
      (s.shard.complete true, (s.invalidated true).isSome)) = some (true, true) := by
    decide +kernel
  obtain ⟨s, hs, hread⟩ := Option.map_eq_some_iff.mp hrun
  rw [Prod.mk.injEq] at hread
  refine ⟨s, hs, hread.1, hread.2, ?_⟩
  apply populate_safe Doc.empty _ s _ hs
  decide +kernel

/-- The owner's entry is cleared during its scan: two threads scan.  The identity is invalidated during
the scan: the map that is published afterwards is complete. -/
theorem not_populate_safe :
    (∃ s : Day Bool Bool, exec step (Day.opened Doc.empty)
        (upToScan false ++ [.start true (.clearIncomplete true), .fetch true, .locked true, .fetch true,
          .locked true] ++ upToScan true) = some s ∧ ¬ OneScanner s) ∧
    ∃ s : Day Bool Bool, exec step (Day.opened Doc.empty)
        (upToScan false ++ invalidation true ++ published false) = some s ∧ ¬ ScannedSince s := by
  constructor
  · have hrun : ((exec step (Day.opened Doc.empty)
        (upToScan false ++ ([.start true (.clearIncomplete true), .fetch true, .locked true, .fetch true,
          .locked true] : List (Action Bool Bool)) ++ upToScan true)).map fun s : Day Bool Bool =>
          (s.pc false, s.pc true)) =
        some (.scanning true 0, .scanning true 0) := by
      decide +kernel
    obtain ⟨s, hs, hread⟩ := Option.map_eq_some_iff.mp hrun
    rw [Prod.mk.injEq] at hread
    refine ⟨s, hs, ?_⟩
    intro hone
    cases hone false true true 0 0 hread.1 hread.2
  · have hrun : ((exec step (Day.opened Doc.empty)
        (upToScan false ++ invalidation true ++ published false)).map fun s : Day Bool Bool =>
        (s.shard.complete true, s.invalidated true, s.scannedAt true)) =
        some (true, some 0, some 0) := by
      decide +kernel
    obtain ⟨s, hs, hread⟩ := Option.map_eq_some_iff.mp hrun
    rw [Prod.mk.injEq, Prod.mk.injEq] at hread
    refine ⟨s, hs, ?_⟩
    intro hsince
    obtain ⟨b, hb, hlt⟩ := hsince true hread.1 0 hread.2.1
    rw [hread.2.2] at hb
    cases hb
    exact Nat.lt_irrefl 0 hlt

end PopulateProtocol
