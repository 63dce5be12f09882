/-
# Which maps of the daily tar are returned

A map that is returned should be that of the daily tar at some moment of the call.  The caches of
`MemberLookup` ensure this as long as each of their maps belongs to the tar it is found by.

* `Inv` is the invariant: the maps of the caches belong to their stamps, and `Pc.Holds` says what is known
  of the map that a thread has in hand;
* `inv_step` is the step lemma, `returned_of_run` the result;
* `stale_map_returned` is a run in which a map is kept under the key of a later tar.
-/
import HpcPerfStats.MemberLookup

set_option linter.unusedSectionVars false

namespace MemberLookup

open ArchiveMembers MembersHistory Transition

variable {P T : Type*} [DecidableEq P] [DecidableEq T] {c : Setting P T}

/-! ## The invariant -/

/-- The map was that of the tar at some moment. -/
def Timely (c : Setting P T) (seen : List (Option Stamp)) (members : MemberMap) : Prop :=
  ∃ tar ∈ seen, Exact members (c.content tar)

/-- What is known of a map that is kept. -/
def Use.Holds (c : Setting P T) (seen : List (Option Stamp)) : Use → Prop
  | .keep members read => read ∈ seen ∧ Exact members (c.content read)
  | _ => True

/-- What is known once the key is there. -/
def Use.HoldsAt (c : Setting P T) (seen : List (Option Stamp)) (key : Files) : Use → Prop
  | .lookup => key.tar ∈ seen
  | .keep members _ => ∀ stamp ∈ key.tar, Exact members (c.contents stamp)
  | .store members => ∀ stamp ∈ key.tar, Exact members (c.contents stamp)
  | .merge _ => True

/-- What is known of the map that a thread has in hand. -/
def Pc.Holds (c : Setting P T) (tar : Option Stamp) (seen : List (Option Stamp)) : Pc → Prop
  | .sealedId use => use.Holds c seen
  | .tarId use _ => use.Holds c seen
  | .keyed use key => use.Holds c seen ∧ use.HoldsAt c seen key
  | .matching stamp => ∃ id ∈ seen, c.content id = c.content stamp
  | .reading (.authority stamp) => ∃ id ∈ seen, c.content id = c.contents stamp
  | .statting _ members => Exact members (c.content tar)
  | .putting stamp members => Exact members (c.content stamp) ∧ Timely c seen members
  | .returning members => Timely c seen members
  | _ => True

/-- **The invariant.** -/
structure Inv (c : Setting P T) (s : State P T) : Prop where
  l1 : ∀ p key, ∀ members ∈ s.l1 p key, ∀ stamp ∈ key.tar, Exact members (c.contents stamp)
  authority : ∀ p, ∀ entry ∈ s.authority p, Exact entry.2 (c.content entry.1)
  current : ∀ t, s.pc t ≠ .idle → s.files.tar ∈ s.seen t
  holds : ∀ t, (s.pc t).Holds c s.files.tar (s.seen t)

/-- The day before the first call: the caches are empty. -/
structure Fresh (s : State P T) : Prop where
  l1 : ∀ p key, s.l1 p key = none
  authority : ∀ p, s.authority p = none
  idle : ∀ t, s.pc t = .idle

theorem Fresh.inv {s : State P T} (h : Fresh s) : Inv c s := by
  constructor
  · intro p key members hm
    rw [h.l1 p key] at hm
    cases hm
  · intro p entry he
    rw [h.authority p] at he
    cases he
  · intro t ht
    exact absurd (h.idle t) ht
  · intro t
    rw [h.idle t]
    trivial

/-! ## Maps -/

theorem exact_nil {content : Content} (h : content = []) : Exact [] content := by
  intro name
  rw [h, List.lookup_nil, largest_nil]

/-- What is merged into a map adds its sizes. -/
theorem exact_merge {members appended content : Content} (h : Exact members content) :
    Exact (appended.foldl insertLargest members) (content ++ appended) := by
  intro name
  rw [lookup_foldl_insertLargest, h name, largest_append]

theorem exact_congr {members content content' : Content} (h : Exact members content)
    (heq : ∀ name, largest content name = largest content' name) : Exact members content' := by
  intro name
  rw [h name, heq name]

/-! ## The kinds of changes -/

/-- What holds of the other threads where they are and of one thread where it goes. -/
theorem forall_update {s : State P T} {t : T} {pc : Pc} {Q : T → Pc → Prop} (hself : Q t pc)
    (hrest : ∀ t', t' ≠ t → Q t' (s.pc t')) : ∀ t', Q t' (Function.update s.pc t pc t') := by
  intro t'
  by_cases ht : t' = t
  · subst ht
    rw [Function.update_self]
    exact hself
  · rw [Function.update_of_ne ht]
    exact hrest t' ht

theorem busy_of_pc {s : State P T} {t : T} {pc : Pc} (hpc : s.pc t = pc) (hpc' : pc ≠ .idle) :
    s.pc t ≠ .idle := by
  rw [hpc]
  exact hpc'

theorem Inv.holds_of_pc {s : State P T} (h : Inv c s) {t : T} {pc : Pc} (hpc : s.pc t = pc) :
    pc.Holds c s.files.tar (s.seen t) := by
  rw [← hpc]
  exact h.holds t

/-- **A thread goes on.** -/
theorem Inv.goto {s : State P T} (h : Inv c s) {t : T} {pc : Pc} (hbusy : s.pc t ≠ .idle)
    (hholds : pc.Holds c s.files.tar (s.seen t)) : Inv c (s.goto t pc) := by
  refine ⟨h.l1, h.authority, ?_, ?_⟩
  · exact forall_update (Q := fun t' pc => pc ≠ .idle → s.files.tar ∈ s.seen t')
      (fun _ => h.current t hbusy) fun t' _ => h.current t'
  · exact forall_update (Q := fun t' pc => pc.Holds c s.files.tar (s.seen t')) hholds
      fun t' _ => h.holds t'

/-- **A thread is called.** -/
theorem Inv.start {s : State P T} (h : Inv c s) {t : T} {pc : Pc}
    (hholds : pc.Holds c s.files.tar [s.files.tar]) : Inv c (s.start t pc) := by
  have hseen : ∀ t', t' ≠ t → Function.update s.seen t [s.files.tar] t' = s.seen t' := by
    intro t' ht
    exact Function.update_of_ne ht ..
  refine ⟨h.l1, h.authority, ?_, ?_⟩
  · apply forall_update (Q := fun t' pc => pc ≠ .idle →
      s.files.tar ∈ Function.update s.seen t [s.files.tar] t')
    · intro _
      rw [Function.update_self]
      exact List.mem_cons_self
    · intro t' ht
      rw [hseen t' ht]
      exact h.current t'
  · apply forall_update (Q := fun t' pc =>
      pc.Holds c s.files.tar (Function.update s.seen t [s.files.tar] t'))
    · rw [Function.update_self]
      exact hholds
    · intro t' ht
      rw [hseen t' ht]
      exact h.holds t'

/-- An entry of `l1` changes, to the map of the tar of its key. -/
theorem Inv.setL1 {s : State P T} (h : Inv c s) {p : P} {key : Files} {entry : Option MemberMap}
    (hentry : ∀ members ∈ entry, ∀ stamp ∈ key.tar, Exact members (c.contents stamp)) :
    Inv c (s.setL1 p key entry) := by
  refine ⟨?_, h.authority, h.current, h.holds⟩
  intro p' key' members hm
  rw [Option.mem_def, State.setL1] at hm
  dsimp only at hm
  by_cases hp : p' = p
  · subst hp
    rw [Function.update_self] at hm
    by_cases hkey : key' = key
    · subst hkey
      rw [Function.update_self] at hm
      exact hentry members hm
    · rw [Function.update_of_ne hkey] at hm
      exact h.l1 p' key' members hm
  · rw [Function.update_of_ne hp] at hm
    exact h.l1 p' key' members hm

/-- The entry of `authority` changes, to a map with its stamp. -/
theorem Inv.setAuthority {s : State P T} (h : Inv c s) {p : P}
    {entry : Option (Option Stamp × MemberMap)}
    (hentry : ∀ e ∈ entry, Exact e.2 (c.content e.1)) : Inv c (s.setAuthority p entry) := by
  refine ⟨h.l1, ?_, h.current, h.holds⟩
  intro p' e he
  rw [Option.mem_def, State.setAuthority] at he
  dsimp only at he
  by_cases hp : p' = p
  · subst hp
    rw [Function.update_self] at he
    exact hentry e he
  · rw [Function.update_of_ne hp] at he
    exact h.authority p' e he

/-- A map stays timely when more tars are seen. -/
theorem Timely.cons {seen : List (Option Stamp)} {members : MemberMap} (h : Timely c seen members)
    (tar : Option Stamp) : Timely c (tar :: seen) members := by
  obtain ⟨id, hid, hexact⟩ := h
  exact ⟨id, List.mem_cons_of_mem _ hid, hexact⟩

theorem Use.Holds.cons {use : Use} {seen : List (Option Stamp)} (h : use.Holds c seen)
    (tar : Option Stamp) : use.Holds c (tar :: seen) := by
  cases use with
  | keep members read => exact ⟨List.mem_cons_of_mem _ h.1, h.2⟩
  | lookup => trivial
  | store members => trivial
  | merge appended => trivial

theorem Use.HoldsAt.cons {use : Use} {seen : List (Option Stamp)} {key : Files}
    (h : use.HoldsAt c seen key) (tar : Option Stamp) : use.HoldsAt c (tar :: seen) key := by
  cases use with
  | lookup => exact List.mem_cons_of_mem _ h
  | keep members read => exact h
  | store members => exact h
  | merge appended => trivial

/-- The files change while no thread waits to ask for the stamp of what it has read. -/
theorem Pc.Holds.change {pc : Pc} {tar : Option Stamp} {seen : List (Option Stamp)}
    (h : pc.Holds c tar seen) (hstat : pc.awaitsStat = false) (tar' : Option Stamp) :
    pc.Holds c tar' (tar' :: seen) := by
  have hseen : ∀ {content : Content}, (∃ id ∈ seen, c.content id = content) →
      ∃ id ∈ tar' :: seen, c.content id = content := by
    rintro content ⟨id, hid, heq⟩
    exact ⟨id, List.mem_cons_of_mem _ hid, heq⟩
  cases pc with
  | sealedId use => exact Use.Holds.cons h tar'
  | tarId use sealedArchive => exact Use.Holds.cons h tar'
  | keyed use key => exact ⟨h.1.cons tar', h.2.cons tar'⟩
  | matching stamp => exact hseen h
  | reading reader =>
      cases reader with
      | existing canonical => trivial
      | authority stamp => exact hseen h
  | statting stamp members => cases hstat
  | putting stamp members => exact ⟨h.1, h.2.cons tar'⟩
  | returning members => exact Timely.cons h tar'
  | idle => trivial
  | finding => trivial
  | merging stamp appended => trivial
  | popping => trivial

theorem Inv.change {s : State P T} (h : Inv c s) (hstat : ∀ t, (s.pc t).awaitsStat = false)
    (files : Files) :
    Inv c { s with files := files, seen := fun t => files.tar :: s.seen t } := by
  refine ⟨h.l1, h.authority, ?_, ?_⟩
  · intro t _
    exact List.mem_cons_self
  · intro t
    exact (h.holds t).change (hstat t) files.tar

/-! ## The steps of a lookup -/

/-- A thread that is not idle has seen the tar that is there. -/
theorem Inv.timely {s : State P T} (h : Inv c s) {t : T} (hbusy : s.pc t ≠ .idle) {members : MemberMap}
    (hexact : Exact members (c.content s.files.tar)) : Timely c (s.seen t) members :=
  ⟨s.files.tar, h.current t hbusy, hexact⟩

theorem Inv.tarIdentity {s : State P T} (h : Inv c s) {t : T} {use : Use} {sealedArchive : Option Stamp}
    (hpc : s.pc t = .tarId use sealedArchive)
    (hsound : tarSound c s (.tarId use sealedArchive) = true) :
    Inv c (s.goto t (.keyed use ⟨sealedArchive, s.files.tar⟩)) := by
  have hbusy := busy_of_pc hpc nofun
  have huse : use.Holds c (s.seen t) := h.holds_of_pc hpc
  refine h.goto hbusy ⟨huse, ?_⟩
  cases use with
  | lookup => exact h.current t hbusy
  | merge appended => trivial
  | keep members read =>
      intro stamp hstamp
      have htar : s.files.tar = some stamp := hstamp
      -- there is a tar, so it is the one that was read
      have hread : s.files.tar = none ∨ read = s.files.tar := of_decide_eq_true hsound
      rcases hread with hnone | hsame
      · rw [htar] at hnone
        cases hnone
      · have hexact := huse.2
        rw [hsame, htar] at hexact
        exact hexact
  | store members =>
      intro stamp hstamp name
      have htar : s.files.tar = some stamp := hstamp
      rw [tarSound, htar, Option.all_some] at hsound
      rw [lookup_eq_of_mapsEquivalent hsound name, lookup_memberMap]

theorem Inv.useKey {s : State P T} (h : Inv c s) {t : T} {use : Use} {key : Files}
    (hpc : s.pc t = .keyed use key) (hsound : keySound c s t (.keyed use key) = true) :
    Inv c (useKey c s t key use) := by
  have hbusy := busy_of_pc hpc nofun
  have hholds : use.Holds c (s.seen t) ∧ use.HoldsAt c (s.seen t) key := h.holds_of_pc hpc
  cases use with
  | lookup =>
      rw [MemberLookup.useKey]
      cases hcached : s.l1 (c.process t) key with
      | none => exact h.goto hbusy trivial
      | some members =>
          -- the tar of the key was there during the call
          refine h.goto hbusy ⟨key.tar, hholds.2, ?_⟩
          cases htar : key.tar with
          | some stamp => exact h.l1 _ _ members hcached stamp htar
          | none =>
              -- the tar is gone: the cache must not have a member of it
              rw [keySound, htar, hcached] at hsound
              have hnil : members = [] := by simpa using hsound
              rw [hnil]
              exact exact_nil rfl
  | keep members read =>
      -- what is returned goes back to the read, whatever the key says
      refine Inv.goto (h.setL1 ?_) hbusy ⟨read, hholds.1⟩
      rintro members' ⟨⟩
      exact hholds.2
  | store members =>
      refine Inv.goto (h.setL1 ?_) hbusy trivial
      rintro members' ⟨⟩
      exact hholds.2
  | merge appended =>
      rw [MemberLookup.useKey]
      cases hcached : s.l1 (c.process t) key with
      | none => exact h.goto hbusy trivial
      | some members =>
          refine Inv.goto (h.setL1 ?_) hbusy trivial
          rintro members' ⟨⟩ stamp hstamp
          have hold := h.l1 _ _ members hcached stamp hstamp
          have htar : key.tar = some stamp := hstamp
          have hwithin : within appended (c.contents stamp) = true := by
            rw [keySound, hcached, htar] at hsound
            simpa using hsound
          -- the sizes that come in are not above those of the tar
          refine exact_congr (exact_merge hold) fun name => ?_
          rw [largest_append]
          exact max_largest_of_within hwithin name

theorem Inv.read {s : State P T} (h : Inv c s) {t : T} {reader : Reader} {outcome : Outcome}
    (hpc : s.pc t = .reading reader) (hsound : readSound c s (.reading reader) outcome = true) :
    Inv c (s.goto t (afterRead c s t reader outcome)) := by
  have hbusy := busy_of_pc hpc nofun
  have hexact := exact_memberMap (c.content s.files.tar)
  apply h.goto hbusy
  cases reader with
  | existing canonical =>
      have hfailed : c.content s.files.tar = [] → Timely c (s.seen t) [] := by
        intro hnil
        exact h.timely hbusy (exact_nil hnil)
      cases outcome with
      | read =>
          rw [afterRead]
          by_cases hkeep : (canonical && c.cacheEnabled (c.process t)) = true
          · rw [if_pos hkeep]
            exact ⟨h.current t hbusy, hexact⟩
          · rw [if_neg hkeep]
            exact h.timely hbusy hexact
      | tvfFailed => exact hfailed (of_decide_eq_true hsound)
      | failed => exact hfailed (of_decide_eq_true hsound)
  | authority stamp =>
      cases outcome with
      | read => exact hexact
      | tvfFailed => trivial
      | failed =>
          -- the empty map is kept under the stamp of the first `stat`
          have hnil : c.contents stamp = [] := of_decide_eq_true hsound
          obtain ⟨id, hid, hsame⟩ := h.holds_of_pc hpc
          refine ⟨exact_nil hnil, id, hid, ?_⟩
          rw [hsame]
          exact exact_nil hnil

theorem Inv.matchStamp {s : State P T} (h : Inv c s) {t : T} {stamp : Option Stamp}
    (hpc : s.pc t = .matching stamp) : Inv c (s.goto t (.miss stamp)) ∧
      ∀ members, s.authority (c.process t) = some (stamp, members) →
        Inv c (s.goto t (.returning members)) := by
  have hbusy := busy_of_pc hpc nofun
  obtain ⟨id, hid, hsame⟩ := h.holds_of_pc hpc
  constructor
  · apply h.goto hbusy
    cases stamp with
    | some stamp => exact ⟨id, hid, hsame⟩
    | none => exact ⟨exact_nil rfl, id, hid, exact_nil hsame⟩
  · intro members hcached
    refine h.goto hbusy ⟨id, hid, ?_⟩
    rw [hsame]
    exact h.authority _ _ hcached

theorem Inv.statAfter {s : State P T} (h : Inv c s) {t : T} {stamp : Stamp} {members : MemberMap}
    {ok : Bool} (hpc : s.pc t = .statting stamp members)
    (hsound : statSound c s ok (.statting stamp members) = true) :
    Inv c (s.goto t (.putting (some (if ok then s.files.tar.getD stamp else stamp)) members)) := by
  have hbusy := busy_of_pc hpc nofun
  have hexact : Exact members (c.content s.files.tar) := h.holds_of_pc hpc
  refine h.goto hbusy ⟨?_, h.timely hbusy hexact⟩
  rw [statSound, Bool.or_eq_true] at hsound
  cases htar : s.files.tar with
  | some now =>
      rw [htar] at hexact hsound
      cases ok with
      | true => exact hexact
      | false =>
          have hsame : c.content (some now) = c.contents stamp := by simpa using hsound
          -- without a second stamp the map is kept under the first one
          rw [hsame] at hexact
          exact hexact
  | none =>
      rw [htar] at hexact hsound
      have hsame : c.content none = c.contents stamp := by simpa using hsound
      rw [hsame] at hexact
      cases ok <;> exact hexact

theorem Inv.mergeAppended {s : State P T} (h : Inv c s) {t : T} {stamp : Stamp} {appended : MemberMap}
    (hpc : s.pc t = .merging stamp appended)
    (hsound : mergeSound c s t (.merging stamp appended) = true) :
    Inv c ((s.setAuthority (c.process t) ((s.authority (c.process t)).map fun cached =>
      (some stamp, appended.foldl insertLargest cached.2))).goto t .idle) := by
  have hbusy := busy_of_pc hpc nofun
  refine Inv.goto (h.setAuthority ?_) hbusy trivial
  intro entry hentry
  obtain ⟨cached, hcached, rfl⟩ := Option.map_eq_some_iff.mp hentry
  rw [mergeSound, hcached, Option.all_some] at hsound
  exact exact_congr (exact_merge (h.authority _ cached hcached)) (largest_eq_of_mapsEquivalent hsound)

/-! ## Whole runs -/

/-- **The step lemma.** -/
theorem inv_step (s : State P T) (a : Action P T) (s' : State P T) (h : Inv c s) (hsound : Sound c s a)
    (hstep : step c s a = some s') : Inv c s' := by
  cases a with
  | getExisting t =>
      cases hpc : s.pc t <;> simp only [step, hpc] at hstep <;> cases hstep
      apply h.start
      split_ifs with hnone
      · have htar : s.files.tar = none := Option.isNone_iff_eq_none.mp hnone
        refine ⟨s.files.tar, List.mem_cons_self, exact_nil ?_⟩
        rw [htar]
        rfl
      · trivial
  | find t =>
      cases hpc : s.pc t <;> simp only [step, hpc] at hstep <;> cases hstep
      apply h.goto (busy_of_pc hpc nofun)
      split_ifs <;> trivial
  | sealedIdentity t =>
      cases hpc : s.pc t <;> simp only [step, hpc] at hstep <;> cases hstep
      have huse := h.holds_of_pc hpc
      exact h.goto (busy_of_pc hpc nofun) huse
  | tarIdentity t =>
      cases hpc : s.pc t <;> simp only [step, hpc] at hstep <;> cases hstep
      rw [Sound, hpc] at hsound
      exact h.tarIdentity hpc hsound
  | raised t =>
      cases hpc : s.pc t <;> simp only [step, hpc] at hstep <;> cases hstep
      · exact h.goto (busy_of_pc hpc nofun) trivial
      · exact h.goto (busy_of_pc hpc nofun) trivial
  | useKey t =>
      cases hpc : s.pc t <;> simp only [step, hpc] at hstep <;> cases hstep
      rw [Sound, hpc] at hsound
      exact h.useKey hpc hsound
  | getAuthority t ok =>
      cases hpc : s.pc t <;> simp only [step, hpc] at hstep <;> cases hstep
      refine h.start ⟨s.files.tar, List.mem_cons_self, ?_⟩
      split_ifs with hok
      · rfl
      -- a `stat` that fails counts as no tar
      · exact hsound.resolve_left hok
  | matchStamp t =>
      cases hpc : s.pc t <;> simp only [step, hpc] at hstep <;> try cases hstep
      have hmatch := h.matchStamp hpc
      split at hstep
      · rename_i cached members hcached
        cases hstep
        split_ifs with hsame
        · subst hsame
          exact hmatch.2 members hcached
        · exact hmatch.1
      · cases hstep
        exact hmatch.1
  | read t outcome =>
      cases hpc : s.pc t <;> simp only [step, hpc] at hstep <;> cases hstep
      rw [Sound, hpc] at hsound
      exact h.read hpc hsound
  | statAfter t ok =>
      cases hpc : s.pc t <;> simp only [step, hpc] at hstep <;> cases hstep
      rw [Sound, hpc] at hsound
      exact h.statAfter hpc hsound
  | put t =>
      cases hpc : s.pc t <;> simp only [step, hpc] at hstep <;> cases hstep
      have hholds := h.holds_of_pc hpc
      refine Inv.goto (h.setAuthority ?_) (busy_of_pc hpc nofun)
        hholds.2
      rintro entry ⟨⟩
      exact hholds.1
  | updateAfterAppend t appended ok =>
      cases hpc : s.pc t <;> simp only [step, hpc] at hstep <;> try cases hstep
      split at hstep <;> cases hstep
      · exact h.start trivial
      · exact h.start trivial
  | mergeAppended t =>
      cases hpc : s.pc t <;> simp only [step, hpc] at hstep <;> cases hstep
      rw [Sound, hpc] at hsound
      exact h.mergeAppended hpc hsound
  | pop t =>
      cases hpc : s.pc t <;> simp only [step, hpc] at hstep <;> cases hstep
      refine Inv.goto (h.setAuthority ?_) (busy_of_pc hpc nofun)
        trivial
      intro entry hentry
      cases hentry
  | storeL1 t members =>
      cases hpc : s.pc t <;> simp only [step, hpc] at hstep <;> cases hstep
      apply h.start
      split_ifs <;> trivial
  | mergeL1 t appended =>
      cases hpc : s.pc t <;> simp only [step, hpc] at hstep <;> cases hstep
      apply h.start
      split_ifs <;> trivial
  | finish t =>
      cases hpc : s.pc t <;> simp only [step, hpc] at hstep <;> cases hstep
      exact h.goto (busy_of_pc hpc nofun) trivial
  | change files =>
      cases hstep
      exact h.change hsound files
  | evictL1 p key =>
      cases hstep
      apply h.setL1
      intro members hm
      cases hm
  | evictAuthority p =>
      cases hstep
      apply h.setAuthority
      intro entry hentry
      cases hentry

/-- **Every map is that of a moment of its call.**  Whatever the threads do and however the files change: in
a run of sound steps from empty caches, a map that is returned, cached or not, is the exact map of the tar
that there was at some moment of the call. -/
theorem returned_of_run (c : Setting P T) (s₀ s : State P T) (hfresh : Fresh s₀)
    (as : List (Action P T)) (hsound : Respects (step c) (Sound c) s₀ as)
    (hrun : exec (step c) s₀ as = some s) (t : T) (members : MemberMap)
    (hpc : s.pc t = .returning members) :
    ∃ tar ∈ s.seen t, ∀ name, members.lookup name = largest (c.content tar) name := by
  have h := exec_invariant inv_step as s₀ s hfresh.inv hsound hrun
  exact h.holds_of_pc hpc

/-- One process with two threads; the tar grows by a member. -/
def growing : Setting ℕ Bool where
  contents := fun stamp => if stamp = (1, 10) then [("a", 5)] else [("a", 5), ("b", 7)]
  process := fun _ => 0
  cacheEnabled := fun _ => true

/-- A day with a sealed archive and a tar. -/
def sealedDay : State ℕ Bool where
  files := ⟨some (9, 90), some (1, 10)⟩
  l1 := fun _ _ => none
  authority := fun _ => none
  pc := fun _ => .idle
  seen := fun _ => []

theorem fresh_sealedDay : Fresh sealedDay := ⟨fun _ _ => rfl, fun _ => rfl, fun _ => rfl⟩

/-- `get_existing_archive_members` up to its read. -/
def readExisting (t : Bool) : List (Action ℕ Bool) :=
  [.getExisting t, .find t, .sealedIdentity t, .tarIdentity t, .useKey t, .read t .read]

/-- It keeps the map that it has read, and returns. -/
def keepAndReturn (t : Bool) : List (Action ℕ Bool) :=
  [.sealedIdentity t, .tarIdentity t, .useKey t, .finish t]

/-- Both functions read the tar, an append follows with its hooks, and the map is returned from the cache. -/
def lookupAfterAppend : List (Action ℕ Bool) :=
  readExisting false ++ keepAndReturn false ++
    ([.getAuthority true true, .matchStamp true, .read true .read, .statAfter true true, .put true,
      .finish true, .change ⟨some (9, 90), some (2, 20)⟩, .mergeL1 true [("b", 7)],
      .sealedIdentity true, .tarIdentity true, .useKey true,
      .updateAfterAppend true [("b", 7)] true, .mergeAppended true, .getAuthority true true,
      .matchStamp true] : List (Action ℕ Bool))

theorem returned_of_run_append :
    ∃ s, exec (step growing) sealedDay lookupAfterAppend = some s ∧
      s.pc true = .returning [("a", 5), ("b", 7)] ∧
      ∃ tar ∈ s.seen true, ∀ name,
        ([("a", 5), ("b", 7)] : MemberMap).lookup name = largest (growing.content tar) name := by
  have hrun : ((exec (step growing) sealedDay lookupAfterAppend).map fun s => s.pc true) =
      some (.returning [("a", 5), ("b", 7)]) := by
    decide +kernel
  obtain ⟨s, hs, hread⟩ := Option.map_eq_some_iff.mp hrun
  exact ⟨s, hs, hread,
    returned_of_run growing sealedDay s fresh_sealedDay _ (by decide +kernel) hs true _ hread⟩

/-- The tar grows between the read and the key. -/
def keepAfterAppend : List (Action ℕ Bool) :=
  readExisting false ++ [Action.change ⟨some (9, 90), some (2, 20)⟩] ++ keepAndReturn false ++
    ([.getExisting false, .find false, .sealedIdentity false, .tarIdentity false, .useKey false] :
      List (Action ℕ Bool))

/-- The map without the new member is kept under the key of the new tar, and the next call returns it. -/
theorem stale_map_returned :
    ∃ s, exec (step growing) sealedDay keepAfterAppend = some s ∧
      s.pc false = .returning [("a", 5)] ∧ s.seen false = [some (2, 20)] ∧
      ¬ ∃ tar ∈ s.seen false, ∀ name,
        ([("a", 5)] : MemberMap).lookup name = largest (growing.content tar) name := by
  have hrun : ((exec (step growing) sealedDay keepAfterAppend).map fun s => (s.pc false, s.seen false)) =
      some (.returning [("a", 5)], [some (2, 20)]) := by
    decide +kernel
  obtain ⟨s, hs, hread⟩ := Option.map_eq_some_iff.mp hrun
  rw [Prod.mk.injEq] at hread
  refine ⟨s, hs, hread.1, hread.2, ?_⟩
  rintro ⟨tar, htar, hexact⟩
  rw [hread.2, List.mem_singleton] at htar
  subst htar
  exact absurd (hexact "b") (by decide)

end MemberLookup
