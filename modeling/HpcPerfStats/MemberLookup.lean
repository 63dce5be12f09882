/-
# Member maps of the daily tar that are looked up

`get_existing_archive_members` and `get_mutable_tar_authority_member_map` for one day, called by any number of
threads of any number of processes, while the files of the day change.  Each process has two caches:

* `l1` (`_DAILY_ARCHIVE_MEMBERS_CACHE`) gives a map for a key, the identities of the sealed archive and of
  the tar.  The key is computed anew for every use, one `stat` after the other.  A lookup of
  `get_existing_archive_members`, what it keeps after a read, what others store
  (`_store_daily_archive_members_cache`), and what an append merges (`merge_daily_archive_members_l1_cache`)
  all go through `Use`;
* `authority` (`_MUTABLE_TAR_AUTHORITY_MEMBERS_CACHE`) has one map, stamped with the size and the
  modification time of the tar.

A file is its stamp, and `contents` gives the members behind it.  The files change at any time, also in the
middle of an append; `seen` collects the tars that there were during a call, and no step reads it.  A read
takes the map of one moment, and it may fail: with the `RuntimeError` of `tar tvf`, or otherwise, for
example because the read lock was not granted in time.  A trim or an invalidation takes entries out of the
caches.
-/
import HpcPerfStats.MembersHistory
import Mathlib.Data.Fintype.Basic

set_option linter.unusedSectionVars false

namespace MemberLookup

open ArchiveMembers MembersHistory Transition

/-! ## Threads -/

/-- What a key of `l1` is computed for. -/
inductive Use where
  /-- `_lookup_daily_archive_members_cache` of `get_existing_archive_members` -/
  | lookup
  /-- what `get_existing_archive_members` has read; `read` is the tar at that moment -/
  | keep (members : MemberMap) (read : Option Stamp)
  /-- `_store_daily_archive_members_cache` of any other caller -/
  | store (members : MemberMap)
  /-- `merge_daily_archive_members_l1_cache` -/
  | merge (appended : MemberMap)
  deriving DecidableEq, Repr

/-- Who reads the tar.  `stamp` is the one of the first `stat`. -/
inductive Reader where
  | existing (canonical : Bool)
  | authority (stamp : Stamp)
  deriving DecidableEq, Repr

/-- Where a thread stands. -/
inductive Pc where
  | idle
  /-- `get_existing_archive_members`; next: look for a sealed archive -/
  | finding
  | sealedId (use : Use)
  | tarId (use : Use) (sealedArchive : Option Stamp)
  | keyed (use : Use) (key : Files)
  /-- `get_mutable_tar_authority_member_map`; next: compare with the stamp of the cache -/
  | matching (stamp : Option Stamp)
  | reading (reader : Reader)
  /-- next: the second `stat`, under the read lock -/
  | statting (stamp : Stamp) (members : MemberMap)
  | putting (stamp : Option Stamp) (members : MemberMap)
  /-- `update_mutable_tar_authority_after_append`; next: merge under the lock of the cache -/
  | merging (stamp : Stamp) (appended : MemberMap)
  /-- next: drop the entry, since there is no tar -/
  | popping
  | returning (members : MemberMap)
  deriving DecidableEq, Repr

/-- How a read ends. -/
inductive Outcome where
  | read
  /-- `tar tvf` fails: a `RuntimeError` -/
  | tvfFailed
  | failed
  deriving DecidableEq, Repr

/-- The members behind a stamp, the process of a thread, and `get_sync_archive_members_cache_enabled`. -/
structure Setting (P T : Type*) where
  contents : Stamp → Content
  process : T → P
  cacheEnabled : P → Bool

/-- The files, the caches of the processes and the threads. -/
structure State (P T : Type*) where
  files : Files
  l1 : P → Files → Option MemberMap
  authority : P → Option (Option Stamp × MemberMap)
  pc : T → Pc
  seen : T → List (Option Stamp)

/-- The steps.  A flag says whether a `stat` succeeds. -/
inductive Action (P T : Type*) where
  | getExisting (t : T)
  | find (t : T)
  | sealedIdentity (t : T)
  | tarIdentity (t : T)
  /-- a file is gone between `isfile` and `stat` -/
  | raised (t : T)
  | useKey (t : T)
  | getAuthority (t : T) (ok : Bool)
  | matchStamp (t : T)
  | read (t : T) (outcome : Outcome)
  | statAfter (t : T) (ok : Bool)
  | put (t : T)
  | updateAfterAppend (t : T) (appended : MemberMap) (ok : Bool)
  | mergeAppended (t : T)
  | pop (t : T)
  | storeL1 (t : T) (members : MemberMap)
  | mergeL1 (t : T) (appended : MemberMap)
  | finish (t : T)
  | change (files : Files)
  | evictL1 (p : P) (key : Files)
  | evictAuthority (p : P)
  deriving DecidableEq, Repr

/-! ## The steps -/

variable {P T : Type*} [DecidableEq P] [DecidableEq T]

/-- The members of a tar that may not be there. -/
def Setting.content (c : Setting P T) : Option Stamp → Content
  | some stamp => c.contents stamp
  | none => []

namespace State

/-- A thread goes on. -/
def goto (s : State P T) (t : T) (pc : Pc) : State P T := { s with pc := Function.update s.pc t pc }

/-- A thread is called. -/
def start (s : State P T) (t : T) (pc : Pc) : State P T :=
  { s with pc := Function.update s.pc t pc, seen := Function.update s.seen t [s.files.tar] }

/-- An entry of `l1` changes. -/
def setL1 (s : State P T) (p : P) (key : Files) (entry : Option MemberMap) : State P T :=
  { s with l1 := Function.update s.l1 p (Function.update (s.l1 p) key entry) }

/-- The entry of `authority` changes. -/
def setAuthority (s : State P T) (p : P) (entry : Option (Option Stamp × MemberMap)) : State P T :=
  { s with authority := Function.update s.authority p entry }

end State

/-- The cache has no map for the stamp. -/
def Pc.miss : Option Stamp → Pc
  | some stamp => .reading (.authority stamp)
  | none => .putting none []

/-- What is done with a key of `l1`. -/
def useKey (c : Setting P T) (s : State P T) (t : T) (key : Files) : Use → State P T
  | .lookup =>
      match s.l1 (c.process t) key with
      | some members => s.goto t (.returning members)
      | none => s.goto t (.reading (.existing true))
  | .keep members _ => (s.setL1 (c.process t) key (some members)).goto t (.returning members)
  | .store members => (s.setL1 (c.process t) key (some members)).goto t .idle
  | .merge appended =>
      match s.l1 (c.process t) key with
      | some members =>
          (s.setL1 (c.process t) key (some (appended.foldl insertLargest members))).goto t .idle
      | none => s.goto t .idle

/-- Where a read leads. -/
def afterRead (c : Setting P T) (s : State P T) (t : T) : Reader → Outcome → Pc
  | .existing canonical, .read =>
      let members := memberMap (c.content s.files.tar)
      if canonical && c.cacheEnabled (c.process t) then .sealedId (.keep members s.files.tar)
      else .returning members
  | .existing _, _ => .returning []
  | .authority stamp, .read => .statting stamp (memberMap (c.content s.files.tar))
  | .authority _, .tvfFailed => .idle
  | .authority stamp, .failed => .putting (some stamp) []

/-- One step. -/
def step (c : Setting P T) (s : State P T) : Action P T → Option (State P T)
  | .getExisting t =>
      match s.pc t with
      | .idle => some (s.start t (if s.files.tar.isNone then .returning [] else .finding))
      | _ => none
  | .find t =>
      match s.pc t with
      | .finding =>
          some (s.goto t (if s.files.sealedArchive.isSome && c.cacheEnabled (c.process t)
            then .sealedId .lookup else .reading (.existing s.files.sealedArchive.isSome)))
      | _ => none
  | .sealedIdentity t =>
      match s.pc t with
      | .sealedId use => some (s.goto t (.tarId use s.files.sealedArchive))
      | _ => none
  | .tarIdentity t =>
      match s.pc t with
      | .tarId use sealedArchive => some (s.goto t (.keyed use ⟨sealedArchive, s.files.tar⟩))
      | _ => none
  | .raised t =>
      match s.pc t with
      | .sealedId _ => some (s.goto t .idle)
      | .tarId _ _ => some (s.goto t .idle)
      | _ => none
  | .useKey t =>
      match s.pc t with
      | .keyed use key => some (useKey c s t key use)
      | _ => none
  | .getAuthority t ok =>
      match s.pc t with
      | .idle => some (s.start t (.matching (if ok then s.files.tar else none)))
      | _ => none
  | .matchStamp t =>
      match s.pc t with
      | .matching stamp =>
          match s.authority (c.process t) with
          | some (cached, members) =>
              some (s.goto t (if cached = stamp then .returning members else .miss stamp))
          | none => some (s.goto t (.miss stamp))
      | _ => none
  | .read t outcome =>
      match s.pc t with
      | .reading reader => some (s.goto t (afterRead c s t reader outcome))
      | _ => none
  | .statAfter t ok =>
      match s.pc t with
      | .statting stamp members =>
          some (s.goto t (.putting (some (if ok then s.files.tar.getD stamp else stamp)) members))
      | _ => none
  | .put t =>
      match s.pc t with
      | .putting stamp members =>
          some ((s.setAuthority (c.process t) (some (stamp, members))).goto t (.returning members))
      | _ => none
  | .updateAfterAppend t appended ok =>
      match s.pc t with
      | .idle =>
          match s.files.tar, ok with
          | some stamp, true => some (s.start t (.merging stamp appended))
          | _, _ => some (s.start t .popping)
      | _ => none
  | .mergeAppended t =>
      match s.pc t with
      | .merging stamp appended =>
          let merged := (s.authority (c.process t)).map fun cached =>
            (some stamp, appended.foldl insertLargest cached.2)
          some ((s.setAuthority (c.process t) merged).goto t .idle)
      | _ => none
  | .pop t =>
      match s.pc t with
      | .popping => some ((s.setAuthority (c.process t) none).goto t .idle)
      | _ => none
  | .storeL1 t members =>
      match s.pc t with
      | .idle =>
          some (s.start t (if c.cacheEnabled (c.process t) then .sealedId (.store members) else .idle))
      | _ => none
  | .mergeL1 t appended =>
      match s.pc t with
      | .idle => some (s.start t (if appended = [] then .idle else .sealedId (.merge appended)))
      | _ => none
  | .finish t =>
      match s.pc t with
      | .returning _ => some (s.goto t .idle)
      | _ => none
  | .change files => some { s with files := files, seen := fun t => files.tar :: s.seen t }
  | .evictL1 p key => some (s.setL1 p key none)
  | .evictAuthority p => some (s.setAuthority p none)

/-! ## The condition -/

/-- The thread has read under the read lock, and not yet asked for the stamp. -/
def Pc.awaitsStat : Pc → Bool
  | .statting _ _ => true
  | _ => false

/-- A read that fails takes nothing away. -/
def readSound (c : Setting P T) (s : State P T) : Pc → Outcome → Bool
  | _, .read => true
  | .reading (.existing _), _ => c.content s.files.tar = []
  | .reading (.authority stamp), .failed => c.contents stamp = []
  | _, _ => true

/-- The second `stat` succeeds, or the tar has the members of the first one. -/
def statSound (c : Setting P T) (s : State P T) (ok : Bool) : Pc → Bool
  | .statting stamp _ => (ok && s.files.tar.isSome) || c.content s.files.tar = c.contents stamp
  | _ => true

/-- A map is stored for the tar whose map it is: the tar is still the one that was read, and what others
store is its map. -/
def tarSound (c : Setting P T) (s : State P T) : Pc → Bool
  | .tarId (.keep _ read) _ => s.files.tar = none ∨ read = s.files.tar
  | .tarId (.store members) _ =>
      s.files.tar.all fun stamp => mapsEquivalent members (memberMap (c.contents stamp))
  | _ => true

/-- A lookup that finds the tar gone finds no member, and what is merged into a map is in the tar. -/
def keySound (c : Setting P T) (s : State P T) (t : T) : Pc → Bool
  | .keyed .lookup key => key.tar.isSome || (s.l1 (c.process t) key).all fun members => members = []
  | .keyed (.merge appended) key =>
      (s.l1 (c.process t) key).isNone || key.tar.all fun stamp => within appended (c.contents stamp)
  | _ => true

/-- The tar has what the tar of the cached map had, and what was appended. -/
def mergeSound (c : Setting P T) (s : State P T) (t : T) : Pc → Bool
  | .merging stamp appended =>
      (s.authority (c.process t)).all fun cached =>
        mapsEquivalent (memberMap (c.content cached.1 ++ appended)) (memberMap (c.contents stamp))
  | _ => true

/-- **The condition on a step.** -/
def Sound (c : Setting P T) (s : State P T) : Action P T → Prop
  | .change _ => ∀ t, (s.pc t).awaitsStat = false
  | .getAuthority _ ok => ok = true ∨ c.content s.files.tar = []
  | .read t outcome => readSound c s (s.pc t) outcome = true
  | .statAfter t ok => statSound c s ok (s.pc t) = true
  | .tarIdentity t => tarSound c s (s.pc t) = true
  | .useKey t => keySound c s t (s.pc t) = true
  | .mergeAppended t => mergeSound c s t (s.pc t) = true
  | _ => True

instance [Fintype T] (c : Setting P T) (s : State P T) : (a : Action P T) → Decidable (Sound c s a)
  | .change _ => inferInstanceAs (Decidable (∀ t, (s.pc t).awaitsStat = false))
  | .getAuthority _ ok => inferInstanceAs (Decidable (ok = true ∨ c.content s.files.tar = []))
  | .read t outcome => inferInstanceAs (Decidable (readSound c s (s.pc t) outcome = true))
  | .statAfter t ok => inferInstanceAs (Decidable (statSound c s ok (s.pc t) = true))
  | .tarIdentity t => inferInstanceAs (Decidable (tarSound c s (s.pc t) = true))
  | .useKey t => inferInstanceAs (Decidable (keySound c s t (s.pc t) = true))
  | .mergeAppended t => inferInstanceAs (Decidable (mergeSound c s t (s.pc t) = true))
  | .getExisting _ => isTrue trivial
  | .find _ => isTrue trivial
  | .sealedIdentity _ => isTrue trivial
  | .raised _ => isTrue trivial
  | .matchStamp _ => isTrue trivial
  | .put _ => isTrue trivial
  | .updateAfterAppend _ _ _ => isTrue trivial
  | .pop _ => isTrue trivial
  | .storeL1 _ _ => isTrue trivial
  | .mergeL1 _ _ => isTrue trivial
  | .finish _ => isTrue trivial
  | .evictL1 _ _ => isTrue trivial
  | .evictAuthority _ => isTrue trivial

end MemberLookup
