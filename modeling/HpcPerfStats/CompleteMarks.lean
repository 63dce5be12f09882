/-
# Marks of completely ingested files (`sync_timedb_file_complete_ingest_mark.py`)

The mark file is one JSON document that maps the fingerprint of a stats file (its path, modification time and
size) to what was recorded of it.  A record call and a clear call each load the document, change it and put
it in place of the old one, all under `file_write_lock`.  Two things are done outside the lock: a record call
that finds no mark file puts an empty one in place, and every process keeps the entries it loaded last, for as
long as the modification time and the size of the mark file stay what they were.

* `Marks` has the mark file, the stats files, the cache of each process, who is inside the lock, and where
  each thread is in its call; a path is what `os.path.normpath` makes of it;
* `due` lists the marks that were recorded and that no clear call has named since;
* `Sound` says what must hold of a step for no mark to get lost: the lock admits one call at a time, the empty
  document is put in place only while there is no mark, the entries that a call loads are those of the file,
  and a clear call names no path that another marked path continues with a bar.

The main result is `marks_kept`: in every run of sound steps, each mark that is due is in the mark file.
-/
import Mathlib.Data.Rat.Defs
import Mathlib.Logic.Function.Basic
import HpcPerfStats.PyDict
import HpcPerfStats.PyText
import HpcPerfStats.Transition

set_option linter.unusedSectionVars false

namespace CompleteMarks

open Transition

/-! ## Fingerprints and documents -/

/-- `path_fingerprint_key`: the text `path|mtime|size`. -/
structure Key where
  path : String
  mtime : ℤ
  size : ℕ
  deriving DecidableEq, Repr

/-- What is recorded with a fingerprint. -/
structure Meta where
  path : String
  mtime : ℤ
  size : ℕ
  markedAt : ℚ
  deriving DecidableEq, Repr

/-- The `entries` of the mark document. -/
abbrev Entries := List (Key × Meta)

/-- `key.split("|", 1)[0]`: only a part of the path, when the path itself has a bar. -/
def Key.fpPath (k : Key) : String :=
  PyText.beforeSep '|' k.path

/-- What a record or clear call does to the document, and what a lookup reads there. -/
inductive Op where
  | record (key : Key) (mtime : ℤ) (size : ℕ)
  | clear (pathSet : List String)
  | lookup (key : Key)
  deriving DecidableEq, Repr

/-- Lookups load the entries without the lock. -/
def Op.locks : Op → Bool
  | .lookup _ => false
  | _ => true

/-- Modification time in nanoseconds and size of the mark file. -/
abbrev Identity := ℕ × ℕ

/-- Where a thread is in its call. -/
inductive Pc where
  | idle
  /-- next: `os.path.isfile(mark_path)` of a record call -/
  | recording (key : Key)
  /-- next: put an empty document in place -/
  | creating (key : Key)
  /-- next: clear the cache after that -/
  | created (key : Key)
  /-- next: `os.stat(path)` of the stats file -/
  | measuring (key : Key)
  /-- next: `os.path.isfile(mark_path)` of a clear call or a lookup -/
  | finding (op : Op)
  /-- next: take the lock -/
  | waiting (op : Op)
  /-- next: `os.stat(mark_path)` and the look into the cache -/
  | loading (op : Op)
  /-- next: read the document, that had the identity before -/
  | reading (op : Op) (identity : Option Identity)
  /-- next: store the entries in the cache -/
  | caching (op : Op) (identity : Identity) (entries : Entries)
  /-- next: change the entries and put the document in place -/
  | saving (op : Op) (entries : Entries)
  /-- next: clear the cache -/
  | saved (op : Op)
  /-- next: leave the lock -/
  | leaving (op : Op)
  deriving DecidableEq

/-- The points of a call inside the lock. -/
def Pc.inside : Pc → Bool
  | .loading op => op.locks
  | .reading op _ => op.locks
  | .caching op _ _ => op.locks
  | .saving op _ => op.locks
  | .saved op => op.locks
  | .leaving op => op.locks
  | _ => false

/-- The entries a call has loaded. -/
def Pc.loaded : Pc → Option Entries
  | .caching _ _ entries => some entries
  | .saving _ entries => some entries
  | _ => none

/-- The mark file (its entries and its modification time), the stats files (modification time and size), the
caches of the processes, and the threads. -/
structure Marks (T P : Type*) where
  doc : Option (Entries × ℕ)
  stats : String → Option (ℤ × ℕ)
  cache : P → Option (Identity × Entries)
  holders : List T
  pc : T → Pc
  /-- the marks recorded that no clear call has named since -/
  due : List Key

/-- What the operating system answers: the time that a file is written at, the reading of the clock, and
whether a read succeeds. -/
structure Io where
  mtimeNs : ℕ
  now : ℚ
  readable : Bool
  deriving DecidableEq

/-- Calls, their steps, calls that raise or end with their process, and changes of the stats files. -/
inductive Action (T : Type*) where
  | record (t : T) (path : String)
  | clear (t : T) (paths : List String)
  | lookup (t : T) (path : String)
  | next (t : T) (io : Io)
  | fail (t : T)
  | touch (path : String) (stat : Option (ℤ × ℕ))
  deriving DecidableEq

namespace Marks

variable {T P : Type*} [DecidableEq T] [DecidableEq P]

/-- No call is under way; a mark file may be there. -/
def start (doc : Option (Entries × ℕ)) (stats : String → Option (ℤ × ℕ)) : Marks T P :=
  ⟨doc, stats, fun _ => none, [], fun _ => .idle, []⟩

def goto (s : Marks T P) (t : T) (c : Pc) : Marks T P :=
  { s with pc := Function.update s.pc t c }

/-- `path_fingerprint_key`. -/
def fingerprint (s : Marks T P) (path : String) : Option Key :=
  (s.stats path).map fun st => ⟨path, st.1, st.2⟩

/-- The entries that a read of the mark file yields: none when it is missing or cannot be read. -/
def loadEntriesUncached (s : Marks T P) (readable : Bool) : Entries :=
  if readable then (s.doc.map Prod.fst).getD [] else []

def setCache (s : Marks T P) (p : P) (c : Option (Identity × Entries)) : Marks T P :=
  { s with cache := Function.update s.cache p c }

/-- The entries that a clear call drops. -/
def dropped (s : Marks T P) (pathSet : List String) (e : Key × Meta) : Bool :=
  pathSet.contains e.2.path || pathSet.contains e.1.fpPath ||
    pathSet.any fun p => s.fingerprint p = some e.1

/-- A record call sets its mark and puts the document in place. -/
def saveMark (s : Marks T P) (io : Io) (entries : Entries) (key : Key) (mtime : ℤ) (size : ℕ) :
    Marks T P :=
  { s with
    doc := some (PyDict.set entries key ⟨key.path, mtime, size, io.now⟩, io.mtimeNs)
    due := key :: s.due }

/-- The marks of the paths that a clear call names are due no longer. -/
def named (s : Marks T P) (pathSet : List String) : Marks T P :=
  { s with due := s.due.filter fun k => !pathSet.contains k.path }

/-- A clear call puts the entries that it keeps in place. -/
def saveKept (s : Marks T P) (io : Io) (entries : Entries) (pathSet : List String) : Marks T P :=
  { s.named pathSet with doc := some (entries.filter (!s.dropped pathSet ·), io.mtimeNs) }

section Step

variable (proc : T → P) (docSize : Entries → ℕ)

/-- The identity of the mark file. -/
def identity (s : Marks T P) : Option Identity :=
  s.doc.map fun d => (d.2, docSize d.1)

/-- The cached entries, when the mark file has the identity they were loaded under. -/
def cached (s : Marks T P) (p : P) (identity : Identity) : Option Entries :=
  match s.cache p with
  | some (i, entries) => if i = identity then some entries else none
  | none => none

/-- A lookup ends with the load; the other calls go on to change what they loaded. -/
def afterLoad (op : Op) (entries : Entries) : Pc :=
  if op.locks then .saving op entries else .idle

/-- The next step of a thread at the point `c`. -/
def proceed (s : Marks T P) (t : T) (io : Io) : Pc → Option (Marks T P)
  | .idle => none
  | .recording key =>
      if s.doc.isSome then some (s.goto t (.measuring key)) else some (s.goto t (.creating key))
  | .creating key => some ({ s with doc := some ([], io.mtimeNs) }.goto t (.created key))
  | .created key => some ((s.setCache (proc t) none).goto t (.measuring key))
  | .measuring key =>
      match s.stats key.path with
      | none => some (s.goto t .idle)
      | some st => some (s.goto t (.waiting (.record key st.1 st.2)))
  | .finding op =>
      if s.doc.isSome then some (s.goto t (if op.locks then .waiting op else .loading op))
      else some (s.goto t .idle)
  | .waiting op => some ({ s with holders := t :: s.holders }.goto t (.loading op))
  | .loading op =>
      match s.identity docSize with
      | none => some ((s.setCache (proc t) none).goto t (.reading op none))
      | some i =>
          match s.cached (proc t) i with
          | some entries => some (s.goto t (afterLoad op entries))
          | none => some (s.goto t (.reading op (some i)))
  | .reading op i =>
      match i with
      | none => some (s.goto t (afterLoad op (s.loadEntriesUncached io.readable)))
      | some i => some (s.goto t (.caching op i (s.loadEntriesUncached io.readable)))
  | .caching op i entries =>
      some ((s.setCache (proc t) (some (i, entries))).goto t (afterLoad op entries))
  | .saving (.record key mtime size) entries =>
      some ((s.saveMark io entries key mtime size).goto t (.saved (.record key mtime size)))
  | .saving (.clear pathSet) entries =>
      if entries.any (s.dropped pathSet) then
        some ((s.saveKept io entries pathSet).goto t (.saved (.clear pathSet)))
      else some ((s.named pathSet).goto t (.leaving (.clear pathSet)))
  | .saving (.lookup _) _ => none
  | .saved op => some ((s.setCache (proc t) none).goto t (.leaving op))
  | .leaving _ => some ({ s with holders := s.holders.erase t }.goto t .idle)

/-- One step of the system. -/
def step (s : Marks T P) : Action T → Option (Marks T P)
  | .record t path =>
      if s.pc t = .idle then
        match s.fingerprint path with
        | none => some s
        | some key => some (s.goto t (.recording key))
      else none
  | .clear t paths =>
      if s.pc t = .idle then
        match paths.filter (· ≠ "") with
        | [] => some s
        | p :: ps => some (s.goto t (.finding (.clear (p :: ps))))
      else none
  | .lookup t path =>
      if s.pc t = .idle then
        match s.fingerprint path with
        | none => some s
        | some key => some (s.goto t (.finding (.lookup key)))
      else none
  | .next t io => s.proceed proc docSize t io (s.pc t)
  | .fail t => some ({ s with holders := s.holders.erase t }.goto t .idle)
  | .touch path stat => some { s with stats := Function.update s.stats path stat }

/-! ## The condition -/

/-- The loaded entries have every mark of the file. -/
def covers (s : Marks T P) (entries : Entries) : Bool :=
  match s.doc with
  | none => true
  | some d => d.1.all fun e => decide ((entries.lookup e.1).map Meta.path = some e.2.path)

/-- A clear call that names the part of a marked path before a bar names the path. -/
def namesWhole (pathSet : List String) (entries : Entries) : Bool :=
  entries.all fun e => !pathSet.contains e.1.fpPath || pathSet.contains e.1.path

/-- Whether a step loses no mark. -/
def sound (s : Marks T P) : Action T → Bool
  | .next t io =>
      match s.pc t with
      | .creating _ => s.covers []
      | .waiting _ => s.holders.isEmpty
      | .loading op =>
          match s.identity docSize with
          | none => true
          | some i =>
              match s.cached (proc t) i with
              | none => true
              | some entries => !op.locks || s.covers entries
      | .reading op _ => !op.locks || s.covers (s.loadEntriesUncached io.readable)
      | .saving (.clear pathSet) entries => namesWhole pathSet entries
      | _ => true
  | _ => true

def Sound (s : Marks T P) (a : Action T) : Prop :=
  s.sound proc docSize a = true

instance (s : Marks T P) (a : Action T) : Decidable (s.Sound proc docSize a) :=
  inferInstanceAs (Decidable (_ = true))

end Step

/-! ## The invariant -/

/-- The entries have the mark, recorded with its path. -/
def HasMark (entries : Entries) (k : Key) : Prop :=
  (entries.lookup k).map Meta.path = some k.path

/-- Every mark that is due is in the file, and in what a call inside the lock has loaded; and at most one
call is inside. -/
structure Inv (s : Marks T P) : Prop where
  kept : ∀ k ∈ s.due, ∃ d, s.doc = some d ∧ HasMark d.1 k
  loaded : ∀ t, (s.pc t).inside = true → ∀ entries ∈ (s.pc t).loaded, ∀ k ∈ s.due, HasMark entries k
  inside : ∀ t, (s.pc t).inside = true → t ∈ s.holders
  alone : s.holders.length ≤ 1

theorem inv_start (doc : Option (Entries × ℕ)) (stats : String → Option (ℤ × ℕ)) :
    Inv (start doc stats : Marks T P) := by
  refine ⟨?_, ?_, ?_, Nat.zero_le 1⟩
  · intro k hk
    cases hk
  · intro t ht
    cases ht
  · intro t ht
    cases ht

/-- Two calls inside the lock are one. -/
theorem Inv.eq_of_inside {s : Marks T P} (h : Inv s) {t u : T} (ht : (s.pc t).inside = true)
    (hu : (s.pc u).inside = true) : u = t := by
  have hone := h.alone
  have htmem := h.inside t ht
  have humem := h.inside u hu
  match hholders : s.holders, hone with
  | [], _ =>
      rw [hholders] at htmem
      cases htmem
  | [v], _ =>
      rw [hholders, List.mem_singleton] at htmem humem
      rw [htmem, humem]

/-- Entries that have every mark of the file have every mark that is due. -/
theorem Inv.hasMark_of_covers {s : Marks T P} (h : Inv s) {entries : Entries}
    (hcovers : s.covers entries = true) {k : Key} (hk : k ∈ s.due) : HasMark entries k := by
  obtain ⟨d, hdoc, hmark⟩ := h.kept k hk
  unfold HasMark at hmark
  obtain ⟨m, hm, hpath⟩ := Option.map_eq_some_iff.mp hmark
  unfold covers at hcovers
  simp only [hdoc, List.all_eq_true, decide_eq_true_eq] at hcovers
  have hentry := hcovers (k, m) (PyDict.mem_of_lookup hm)
  rw [hpath] at hentry
  exact hentry

/-- A step of a thread after which no other marks are due, and those that are due are in the file. -/
theorem Inv.update {s s' : Marks T P} (h : Inv s) {t : T} {c : Pc}
    (hkept : ∀ k ∈ s'.due, ∃ d, s'.doc = some d ∧ HasMark d.1 k)
    (hdue : ∀ k ∈ s'.due, k ∈ s.due) (hpc : s'.pc = Function.update s.pc t c)
    (hothers : ∀ u, u ≠ t → u ∈ s.holders → u ∈ s'.holders) (halone : s'.holders.length ≤ 1)
    (hinside : c.inside = true → t ∈ s'.holders)
    (hloaded : c.inside = true → ∀ entries ∈ c.loaded, ∀ k ∈ s.due, HasMark entries k) : Inv s' := by
  refine ⟨hkept, ?_, ?_, halone⟩
  · intro u hu entries hentries k hk
    rw [hpc] at hu hentries
    by_cases hut : u = t
    · subst hut
      rw [Function.update_self] at hu hentries
      exact hloaded hu entries hentries k (hdue k hk)
    · rw [Function.update_of_ne hut] at hu hentries
      exact h.loaded u hu entries hentries k (hdue k hk)
  · intro u hu
    rw [hpc] at hu
    by_cases hut : u = t
    · subst hut
      rw [Function.update_self] at hu
      exact hinside hu
    · rw [Function.update_of_ne hut] at hu
      exact hothers u hut (h.inside u hu)

/-- A step that leaves the document and the lock alone. -/
theorem Inv.move {s s' : Marks T P} (h : Inv s) {t : T} {c : Pc} (hdoc : s'.doc = s.doc)
    (hdue : ∀ k ∈ s'.due, k ∈ s.due) (hholders : s'.holders = s.holders)
    (hpc : s'.pc = Function.update s.pc t c) (hinside : c.inside = true → (s.pc t).inside = true)
    (hloaded : c.inside = true → ∀ entries ∈ c.loaded, ∀ k ∈ s.due, HasMark entries k) : Inv s' := by
  refine h.update ?_ hdue hpc ?_ ?_ ?_ hloaded
  · intro k hk
    rw [hdoc]
    exact h.kept k (hdue k hk)
  · intro u _ hu
    rw [hholders]
    exact hu
  · rw [hholders]
    exact h.alone
  · intro hc
    rw [hholders]
    exact h.inside t (hinside hc)

/-- A thread goes on outside the lock. -/
theorem Inv.moveOutside {s s' : Marks T P} (h : Inv s) {t : T} {c : Pc} (hdoc : s'.doc = s.doc)
    (hdue : s'.due = s.due) (hholders : s'.holders = s.holders)
    (hpc : s'.pc = Function.update s.pc t c) (hc : c.inside = false) : Inv s' := by
  refine h.move hdoc ?_ hholders hpc ?_ ?_
  · intro k hk
    rwa [hdue] at hk
  · intro hin
    rw [hc] at hin
    cases hin
  · intro hin
    rw [hc] at hin
    cases hin

/-- A thread enters the lock that nobody holds. -/
theorem Inv.enter {s : Marks T P} (h : Inv s) (t : T) (op : Op) (hfree : s.holders = []) :
    Inv ({ s with holders := t :: s.holders }.goto t (.loading op)) := by
  refine h.update h.kept (fun _ hk => hk) rfl (fun u _ hu => List.mem_cons_of_mem _ hu) ?_
    (fun _ => List.mem_cons_self) nofun
  show (t :: s.holders).length ≤ 1
  rw [hfree]
  exact Nat.le_refl 1

/-- A thread leaves the lock, at the end of its call or because of an exception. -/
theorem Inv.leave {s : Marks T P} (h : Inv s) (t : T) :
    Inv ({ s with holders := s.holders.erase t }.goto t .idle) := by
  refine h.update h.kept (fun _ hk => hk) rfl ?_ ?_ nofun nofun
  · intro u hut hu
    exact (List.mem_erase_of_ne hut).mpr hu
  · exact (List.length_erase_le ..).trans h.alone

/-- A call inside the lock puts a document in place that has every mark that is due then. -/
theorem Inv.replaceDoc {s s' : Marks T P} (h : Inv s) {t : T} {c : Pc} {entries : Entries}
    {mtimeNs : ℕ} (ht : (s.pc t).inside = true) (hdoc : s'.doc = some (entries, mtimeNs))
    (hholders : s'.holders = s.holders) (hpc : s'.pc = Function.update s.pc t c)
    (hc : c.loaded = none) (hmarks : ∀ k ∈ s'.due, HasMark entries k) : Inv s' := by
  refine ⟨?_, ?_, ?_, ?_⟩
  · intro k hk
    exact ⟨_, hdoc, hmarks k hk⟩
  · intro u hu
    rw [hpc] at hu ⊢
    by_cases hut : u = t
    · subst hut
      rw [Function.update_self, hc]
      intro entries hentries
      cases hentries
    · rw [Function.update_of_ne hut] at hu
      exact absurd (h.eq_of_inside ht hu) hut
  · intro u hu
    rw [hpc] at hu
    rw [hholders]
    by_cases hut : u = t
    · subst hut
      exact h.inside u ht
    · rw [Function.update_of_ne hut] at hu
      exact h.inside u hu
  · rw [hholders]
    exact h.alone

/-! ## Steps -/

theorem afterLoad_inside (op : Op) (entries : Entries) :
    (afterLoad op entries).inside = op.locks := by
  unfold afterLoad
  cases op <;> rfl

theorem mem_loaded_afterLoad {op : Op} {entries e : Entries}
    (h : e ∈ (afterLoad op entries).loaded) : e = entries := by
  unfold afterLoad at h
  split at h
  · exact (Option.some.inj h).symm
  · cases h

/-- A thread has loaded the entries and goes on with them. -/
theorem Inv.moveLoaded {s s' : Marks T P} (h : Inv s) {t : T} {op : Op} {entries : Entries}
    (hdoc : s'.doc = s.doc) (hdue : s'.due = s.due) (hholders : s'.holders = s.holders)
    (hpc : s'.pc = Function.update s.pc t (afterLoad op entries))
    (hinside : op.locks = true → (s.pc t).inside = true)
    (hloaded : op.locks = true → ∀ k ∈ s.due, HasMark entries k) : Inv s' := by
  refine h.move hdoc ?_ hholders hpc ?_ ?_
  · intro k hk
    rwa [hdue] at hk
  · rw [afterLoad_inside]
    exact hinside
  · rw [afterLoad_inside]
    intro hlocks e he k hk
    rw [mem_loaded_afterLoad he]
    exact hloaded hlocks k hk

/-- What a call has loaded has every mark that is due, or it is a lookup. -/
theorem Inv.loads {s : Marks T P} (h : Inv s) {op : Op} {entries : Entries}
    (hcovers : (!op.locks || s.covers entries) = true) (hlocks : op.locks = true) {k : Key}
    (hk : k ∈ s.due) : HasMark entries k := by
  rw [hlocks, Bool.not_true, Bool.false_or] at hcovers
  exact h.hasMark_of_covers hcovers hk

/-- A mark that a clear call does not name is among the entries it keeps. -/
theorem hasMark_kept {s : Marks T P} {entries : Entries} {pathSet : List String} {k : Key}
    (hwhole : namesWhole pathSet entries = true) (hmark : HasMark entries k)
    (hpath : pathSet.contains k.path = false) :
    HasMark (entries.filter (!s.dropped pathSet ·)) k := by
  unfold HasMark at hmark ⊢
  obtain ⟨m, hm, hmpath⟩ := Option.map_eq_some_iff.mp hmark
  have hkeep : (!s.dropped pathSet (k, m)) = true := by
    have hfp : pathSet.contains k.fpPath = false := by
      have hentry := List.all_eq_true.mp hwhole (k, m) (PyDict.mem_of_lookup hm)
      rw [hpath, Bool.or_false, Bool.not_eq_true'] at hentry
      exact hentry
    have hany : (pathSet.any fun p => decide (s.fingerprint p = some k)) = false := by
      rw [List.any_eq_false]
      intro p hp hfingerprint
      rw [decide_eq_true_eq] at hfingerprint
      obtain ⟨st, -, hst⟩ := Option.map_eq_some_iff.mp hfingerprint
      have hpk : p = k.path := congrArg Key.path hst
      rw [← hpk, List.contains_eq_mem, decide_eq_false_iff_not] at hpath
      exact hpath hp
    unfold dropped
    dsimp only
    rw [hmpath, hpath, hfp, hany]
    rfl
  rw [PyDict.lookup_filter_of_lookup hm hkeep]
  exact congrArg some hmpath

/-- The mark that a record call sets, and the marks that were loaded. -/
theorem hasMark_set {entries : Entries} {key k : Key} {m : Meta} (hm : m.path = key.path)
    (hmark : k ≠ key → HasMark entries k) : HasMark (PyDict.set entries key m) k := by
  unfold HasMark
  by_cases hk : k = key
  · subst hk
    rw [PyDict.lookup_set_self]
    exact congrArg some hm
  · rw [PyDict.lookup_set_of_ne entries m hk]
    exact hmark hk

section Step

variable {proc : T → P} {docSize : Entries → ℕ}

/-- **A sound step of a call.** -/
theorem inv_proceed {s s' : Marks T P} (h : Inv s) {t : T} {io : Io}
    (hok : s.Sound proc docSize (.next t io))
    (hstep : s.proceed proc docSize t io (s.pc t) = some s') : Inv s' := by
  have hloaded := h.loaded t
  unfold Sound sound at hok
  cases hpc : s.pc t with
  | idle =>
      rw [hpc] at hstep
      cases hstep
  | recording key =>
      rw [hpc] at hstep
      simp only [proceed] at hstep
      split_ifs at hstep <;> cases hstep
      · exact h.moveOutside rfl rfl rfl rfl rfl
      · exact h.moveOutside rfl rfl rfl rfl rfl
  | creating key =>
      rw [hpc] at hstep
      simp only [hpc] at hok
      cases hstep
      -- no mark is due while the file has none
      have hnone : ∀ k, k ∉ s.due := by
        intro k hk
        cases h.hasMark_of_covers hok hk
      exact h.update (fun k hk => absurd hk (hnone k)) (fun _ hk => hk) rfl (fun _ _ hu => hu) h.alone
        nofun nofun
  | created key =>
      rw [hpc] at hstep
      cases hstep
      exact h.moveOutside rfl rfl rfl rfl rfl
  | measuring key =>
      rw [hpc] at hstep
      simp only [proceed] at hstep
      split at hstep <;> cases hstep
      · exact h.moveOutside rfl rfl rfl rfl rfl
      · exact h.moveOutside rfl rfl rfl rfl rfl
  | finding op =>
      rw [hpc] at hstep
      simp only [proceed] at hstep
      split_ifs at hstep with hdoc hlocks <;> cases hstep
      · exact h.moveOutside rfl rfl rfl rfl rfl
      · refine h.move rfl (fun _ hk => hk) rfl rfl (fun hin => ?_) nofun
        exact absurd hin hlocks
      · exact h.moveOutside rfl rfl rfl rfl rfl
  | waiting op =>
      rw [hpc] at hstep
      simp only [hpc, List.isEmpty_iff] at hok
      cases hstep
      exact h.enter t op hok
  | loading op =>
      rw [hpc] at hstep
      simp only [hpc] at hok
      simp only [proceed] at hstep
      split at hstep
      · cases hstep
        refine h.move rfl (fun _ hk => hk) rfl rfl (fun hin => ?_) nofun
        rw [hpc]
        exact hin
      · rename_i i hi
        simp only [hi] at hok
        split at hstep <;> cases hstep
        · rename_i entries hcached
          simp only [hcached] at hok
          refine h.moveLoaded rfl rfl rfl rfl (fun hlocks => ?_) (fun hlocks k hk => ?_)
          · rw [hpc]
            exact hlocks
          · exact h.loads hok hlocks hk
        · refine h.move rfl (fun _ hk => hk) rfl rfl (fun hin => ?_) nofun
          rw [hpc]
          exact hin
  | reading op i =>
      rw [hpc] at hstep
      simp only [hpc] at hok
      simp only [proceed] at hstep
      split at hstep <;> cases hstep
      · refine h.moveLoaded rfl rfl rfl rfl (fun hlocks => ?_) (fun hlocks k hk => ?_)
        · rw [hpc]
          exact hlocks
        · exact h.loads hok hlocks hk
      · refine h.move rfl (fun _ hk => hk) rfl rfl (fun hin => ?_) (fun hin e he k hk => ?_)
        · rw [hpc]
          exact hin
        · obtain rfl := Option.some.inj he
          exact h.loads hok hin hk
  | caching op i entries =>
      rw [hpc] at hstep hloaded
      cases hstep
      refine h.moveLoaded rfl rfl rfl rfl (fun hlocks => ?_) (fun hlocks k hk => ?_)
      · rw [hpc]
        exact hlocks
      · exact hloaded hlocks entries rfl k hk
  | saving op entries =>
      rw [hpc] at hstep hloaded
      simp only [hpc] at hok
      cases op with
      | record key mtime size =>
          cases hstep
          refine h.replaceDoc (by rw [hpc]; rfl) rfl rfl rfl rfl ?_
          intro k hk
          refine hasMark_set rfl (fun hne => ?_)
          rcases List.mem_cons.mp hk with heq | hk
          · exact absurd heq hne
          · exact hloaded rfl entries rfl k hk
      | clear pathSet =>
          have hdue : ∀ k ∈ (s.named pathSet).due, k ∈ s.due ∧ pathSet.contains k.path = false := by
            intro k hk
            rw [← Bool.not_eq_true']
            exact List.mem_filter.mp hk
          simp only [proceed] at hstep
          split_ifs at hstep <;> cases hstep
          · refine h.replaceDoc (by rw [hpc]; rfl) rfl rfl rfl rfl ?_
            intro k hk
            obtain ⟨hk, hpath⟩ := hdue k hk
            exact hasMark_kept hok (hloaded rfl entries rfl k hk) hpath
          · exact h.move rfl (fun k hk => (hdue k hk).1) rfl rfl (fun _ => by rw [hpc]; rfl) nofun
      | lookup key => cases hstep
  | saved op =>
      rw [hpc] at hstep
      cases hstep
      refine h.move rfl (fun _ hk => hk) rfl rfl (fun hin => ?_) nofun
      rw [hpc]
      exact hin
  | leaving op =>
      rw [hpc] at hstep
      cases hstep
      exact h.leave t

/-- **A sound step of the system.** -/
theorem inv_step (s : Marks T P) (a : Action T) (s' : Marks T P) (h : Inv s)
    (hok : s.Sound proc docSize a) (hstep : s.step proc docSize a = some s') : Inv s' := by
  cases a with
  | record t path =>
      simp only [step] at hstep
      split_ifs at hstep
      split at hstep <;> cases hstep
      · exact h
      · exact h.moveOutside rfl rfl rfl rfl rfl
  | clear t paths =>
      simp only [step] at hstep
      split_ifs at hstep
      split at hstep <;> cases hstep
      · exact h
      · exact h.moveOutside rfl rfl rfl rfl rfl
  | lookup t path =>
      simp only [step] at hstep
      split_ifs at hstep
      split at hstep <;> cases hstep
      · exact h
      · exact h.moveOutside rfl rfl rfl rfl rfl
  | next t io => exact inv_proceed h hok hstep
  | fail t =>
      cases hstep
      exact h.leave t
  | touch path stat =>
      cases hstep
      exact ⟨h.kept, h.loaded, h.inside, h.alone⟩

/-! ## Runs -/

/-- Every mark that is due is in the mark file. -/
def Kept (s : Marks T P) : Prop :=
  ∀ k ∈ s.due, ∃ d, s.doc = some d ∧ k ∈ d.1.map Prod.fst

/-- **Marks stay.**  In every state that a run of sound steps reaches, a mark that was recorded is in the mark
file until a clear call names its path. -/
theorem marks_kept (proc : T → P) (docSize : Entries → ℕ) (doc : Option (Entries × ℕ))
    (stats : String → Option (ℤ × ℕ)) (as : List (Action T)) (s : Marks T P)
    (hsound : Respects (step proc docSize) (Sound proc docSize) (start doc stats) as)
    (hrun : exec (step proc docSize) (start doc stats) as = some s) : Kept s := by
  have h : Inv s := exec_invariant inv_step as (start doc stats) s (inv_start doc stats) hsound hrun
  intro k hk
  obtain ⟨d, hdoc, hmark⟩ := h.kept k hk
  obtain ⟨m, hm, -⟩ := Option.map_eq_some_iff.mp hmark
  exact ⟨d, hdoc, List.mem_map_of_mem (PyDict.mem_of_lookup hm)⟩

end Step

end Marks

/-! ## Two runs -/

/-- A thread makes `n` steps; every read succeeds. -/
def steps (t : Bool) (n : ℕ) : List (Action Bool) :=
  List.replicate n (.next t ⟨7, 0, true⟩)

/-- Two stats files. -/
def twoFiles : String → Option (ℤ × ℕ) :=
  fun path => if path = "a" then some (1, 10) else if path = "b" then some (2, 20) else none

/-- One process records a mark into the file that it creates, another records a second mark, and the first
process clears that. -/
def recordsThenClear : List (Action Bool) :=
  .record false "a" :: steps false 11 ++ .record true "b" :: steps true 9 ++
    .clear false ["b"] :: steps false 8

theorem marks_kept_recordsThenClear :
    ∃ s : Marks Bool Bool,
      exec (Marks.step id fun entries => 100 * entries.length) (Marks.start none twoFiles)
        recordsThenClear = some s ∧
      s.due = [⟨"a", 1, 10⟩] ∧ s.Kept := by
  have hrun : ((exec (Marks.step id fun entries => 100 * entries.length) (Marks.start none twoFiles)
      recordsThenClear).map fun s : Marks Bool Bool => s.due) = some [⟨"a", 1, 10⟩] := by
    decide +kernel
  obtain ⟨s, hs, hdue⟩ := Option.map_eq_some_iff.mp hrun
  refine ⟨s, hs, hdue, ?_⟩
  apply Marks.marks_kept id (fun entries => 100 * entries.length) none twoFiles _ s _ hs
  decide +kernel

/-- Two processes find no mark file.  One creates it and records its mark; then the other puts its empty
document in place. -/
def lateCreation : List (Action Bool) :=
  .record false "a" :: steps false 1 ++ .record true "b" :: steps true 11 ++ steps false 1

theorem not_marks_kept :
    ∃ s : Marks Bool Bool,
      exec (Marks.step id fun entries => 100 * entries.length) (Marks.start none twoFiles)
        lateCreation = some s ∧ ¬ s.Kept := by
  have hrun : ((exec (Marks.step id fun entries => 100 * entries.length) (Marks.start none twoFiles)
      lateCreation).map fun s : Marks Bool Bool => (s.due, s.doc)) =
      some ([⟨"b", 2, 20⟩], some ([], 7)) := by
    decide +kernel
  obtain ⟨s, hs, hread⟩ := Option.map_eq_some_iff.mp hrun
  rw [Prod.mk.injEq] at hread
  refine ⟨s, hs, ?_⟩
  intro hkept
  obtain ⟨d, hdoc, hmem⟩ := hkept ⟨"b", 2, 20⟩ (by rw [hread.1]; exact List.mem_cons_self)
  rw [hread.2, Option.some.injEq] at hdoc
  subst hdoc
  cases hmem

end CompleteMarks
