/-
# The archive of a host loses nothing

`ArchiveRotation` models the appends and rotations of one host.  Here every step is first read as a
change of the directory (`DirStep`): nothing, a payload or a part of one at the end of `current`, a new
`current`, `current` unlinked while a timestamp name links to its inode, or a new timestamp name for an
inode that had none.  Each of these keeps `DirInv`, and keeps names and contents as `Kept` says.

That a step is one of these changes rests on where the call stands (`Place`) and on the kept descriptors
(`LockInv`): a thread that may use its descriptors has them on `current`, since a rotation removes the
sidecar before it ends.
-/
import HpcPerfStats.ArchiveRotation
import HpcPerfStats.PyDict
import Mathlib.Data.List.Nodup

namespace ArchiveRotation

open State

/-! ## Helpers of the source -/

section Helpers

variable (s : State)

/-- Remembering a link changes the cache only. -/
theorem rememberDigitEpochLink_eq (name : String) :
    ∃ c, s.rememberDigitEpochLink name = { s with cache := c } := by
  unfold State.rememberDigitEpochLink
  split
  · exact ⟨s.cache, rfl⟩
  · exact ⟨_, rfl⟩

/-- The cached link is used only while it is a link of `current`. -/
theorem linked_of_cacheMatches {cur : ℕ} (h : s.cacheMatches cur = true) : Linked s cur := by
  unfold State.cacheMatches at h
  split at h
  · cases h
  · rename_i name ino _
    obtain ⟨hlookup, -⟩ := Bool.and_eq_true_iff.mp h
    exact ⟨name, PyDict.mem_of_lookup (beq_iff_eq.mp hlookup)⟩

/-- The test for a link answers right and changes the cache only. -/
theorem currentIsHardlinkedToDigitEpoch_eq (cur : ℕ) :
    ∃ b c, s.currentIsHardlinkedToDigitEpoch cur = (b, { s with cache := c }) ∧
      (b = true ↔ Linked s cur) := by
  unfold State.currentIsHardlinkedToDigitEpoch
  by_cases hcache : s.cacheMatches cur = true
  · rw [if_pos hcache]
    exact ⟨true, s.cache, rfl, by simpa using linked_of_cacheMatches s hcache⟩
  · rw [if_neg hcache]
    cases hfind : s.epochs.find? (fun e => e.2 = cur) with
    | none =>
        refine ⟨false, none, rfl, ?_⟩
        rw [List.find?_eq_none] at hfind
        constructor
        · intro h
          cases h
        · rintro ⟨name, hmem⟩
          simpa using hfind _ hmem
    | some e =>
        obtain ⟨c, hc⟩ := rememberDigitEpochLink_eq { s with cache := none } e.1
        refine ⟨true, c, by simp only [hc], ?_⟩
        have hcur : e.2 = cur := by simpa using List.find?_some hfind
        have hlinked : Linked s cur := ⟨e.1, hcur ▸ List.mem_of_find?_eq_some hfind⟩
        simpa using hlinked

/-- The walk over the names never touches an entry: it finds a link of `current` or a name that is free. -/
theorem linkCurrentToUniqueDigitEpoch_spec {epochs : List (String × ℕ)} {cur : ℕ} {step : ℤ} :
    ∀ {attempts : ℕ} {ts : ℤ} {r : String × List (String × ℕ)},
      linkCurrentToUniqueDigitEpoch epochs cur step attempts ts = some r →
      ((r.1, cur) ∈ epochs ∧ r.2 = epochs) ∨
        (epochs.lookup r.1 = none ∧ r.2 = epochs ++ [(r.1, cur)]) := by
  intro attempts
  induction attempts with
  | zero =>
      intro ts r h
      cases h
  | succ attempts ih =>
      intro ts r h
      unfold linkCurrentToUniqueDigitEpoch at h
      by_cases hts : ts ≤ 0
      · rw [if_pos hts] at h
        cases h
      · rw [if_neg hts] at h
        cases hlookup : epochs.lookup (toString ts) with
        | none =>
            simp only [hlookup, Option.some.injEq] at h
            subst h
            exact Or.inr ⟨hlookup, rfl⟩
        | some i =>
            simp only [hlookup] at h
            by_cases hi : i = cur
            · rw [if_pos hi, Option.some.injEq] at h
              subst h
              exact Or.inl ⟨hi ▸ PyDict.mem_of_lookup hlookup, rfl⟩
            · rw [if_neg hi] at h
              exact ih h

/-- Linking an inode that has no timestamp name gives it one that was free. -/
theorem linkFrom_spec {cur : ℕ} {step start : ℤ} {s' : State} (hcur : ¬ Linked s cur)
    (h : s.linkFrom cur step start = some s') :
    ∃ name c, s.epochs.lookup name = none ∧
      s' = { s with epochs := s.epochs ++ [(name, cur)], cache := c } := by
  unfold State.linkFrom at h
  obtain ⟨r, hr, hs'⟩ := Option.map_eq_some_iff.mp h
  obtain ⟨c, hc⟩ := rememberDigitEpochLink_eq { s with epochs := r.2 } r.1
  rcases linkCurrentToUniqueDigitEpoch_spec hr with ⟨hmem, -⟩ | ⟨hfree, hepochs⟩
  · exact absurd ⟨_, hmem⟩ hcur
  · refine ⟨r.1, c, hfree, ?_⟩
    rw [← hs', hc, hepochs]

/-- So does the safety link. -/
theorem ensureCurrentHardlinkedToTimestamp_spec {cur : ℕ} {cutoff : ℤ} {scanRaises : Bool} {s' : State}
    (hcur : ¬ Linked s cur)
    (h : s.ensureCurrentHardlinkedToTimestamp cur cutoff scanRaises = some s') :
    ∃ name c, s.epochs.lookup name = none ∧
      s' = { s with epochs := s.epochs ++ [(name, cur)], cache := c } := by
  unfold State.ensureCurrentHardlinkedToTimestamp at h
  split at h
  · cases h
  · simp only at h
    split at h
    · cases h
    · exact linkFrom_spec s hcur h

end Helpers

/-! ## Where the call stands -/

/-- What holds of the directory at each place of a call. -/
def Place (s : State) : Prop :=
  match s.call with
  | .idle => True
  | .takeSidecar _ _ data => s.current = some data
  | .append _ _ data => s.current = some data
  | .takeLock _ _ => True
  | .check _ _ => True
  | .ensure _ _ => ∃ cur, s.current = some cur ∧ ¬ Linked s cur
  | .recheck _ _ => ∃ cur, s.current = some cur
  | .unlink _ _ => ∃ cur, s.current = some cur ∧ Linked s cur
  | .create _ _ => s.current = none
  | .write _ _ data => s.current = some data ∧ ¬ Linked s data
  | .link _ => ∃ cur, s.current = some cur ∧ ¬ Linked s cur

/-- The places where `current` may have changed and the sidecar is not yet removed. -/
def Call.replacing : Call → Bool
  | .create _ _ => true
  | .write _ _ _ => true
  | .link _ => true
  | _ => false

/-- **Kept descriptors.**  Sidecar inodes are never used again, and descriptors that a thread may still
use are on `current`. -/
structure LockInv (s : State) : Prop where
  sidecar_lt : ∀ l, s.sidecar = some l → l < s.nextLock
  sticky_lt : ∀ t st, s.sticky t = some st → st.lock < s.nextLock
  sticky_current : s.call.replacing = false → ∀ t st, s.sticky t = some st →
    s.sidecar = some st.lock → s.current = some st.data

/-! ## Changes of the directory -/

/-- The changes that a step makes to the directory of a host. -/
inductive DirStep (s s' : State) : Prop
  | same (hfiles : s'.files = s.files) (hcurrent : s'.current = s.current)
      (hepochs : s'.epochs = s.epochs) (hlog : s'.log = s.log)
  | wrote (cur : ℕ) (msg : List Char) (hcur : s.current = some cur)
      (hfiles : s'.files = (s.appendTo cur (.payload msg)).files) (hcurrent : s'.current = s.current)
      (hepochs : s'.epochs = s.epochs) (hlog : s'.log = s.log ++ [msg])
  | part (cur : ℕ) (text : List Char) (hcur : s.current = some cur)
      (hfiles : s'.files = (s.appendTo cur (.fragment text)).files) (hcurrent : s'.current = s.current)
      (hepochs : s'.epochs = s.epochs) (hlog : s'.log = s.log)
  | created (hcur : s.current = none) (hfiles : s'.files = s.files ++ [[]])
      (hcurrent : s'.current = some s.files.length) (hepochs : s'.epochs = s.epochs)
      (hlog : s'.log = s.log)
  | unlinked (cur : ℕ) (hcur : s.current = some cur) (hlinked : Linked s cur)
      (hfiles : s'.files = s.files) (hcurrent : s'.current = none) (hepochs : s'.epochs = s.epochs)
      (hlog : s'.log = s.log)
  | linked (cur : ℕ) (name : String) (hcur : s.current = some cur) (hfree : ¬ Linked s cur)
      (hname : s.epochs.lookup name = none) (hfiles : s'.files = s.files)
      (hcurrent : s'.current = s.current) (hepochs : s'.epochs = s.epochs ++ [(name, cur)])
      (hlog : s'.log = s.log)

/-! ## What the changes keep -/

/-- **The directory.**  Names refer to files and are not doubled, the files hold the log in the order in
which they were created, `current` is the newest file with a payload, and every file with a payload has a
name. -/
structure DirInv (s : State) : Prop where
  current_lt : ∀ i, s.current = some i → i < s.files.length
  epochs_lt : ∀ e ∈ s.epochs, e.2 < s.files.length
  inodes : (s.epochs.map Prod.snd).Nodup
  payloads_eq : s.files.flatMap payloads = s.log
  newest : ∀ i, s.current = some i → ∀ j, i < j → payloads (s.file j) = []
  named : ∀ i, payloads (s.file i) ≠ [] → s.current = some i ∨ Linked s i

/-- The file with an inode after one more segment somewhere. -/
theorem getD_modify_append (files : List (List Segment)) (i j : ℕ) (seg : Segment)
    (hi : i < files.length) :
    (files.modify i (· ++ [seg])).getD j [] = files.getD j [] ++ if i = j then [seg] else [] := by
  rw [List.getD_eq_getElem?_getD, List.getD_eq_getElem?_getD, List.getElem?_modify]
  by_cases hij : i = j
  · subst hij
    simp [hi]
  · simp [hij]

/-- A segment at the end of the newest file is a segment at the end of the archive. -/
theorem flatMap_payloads_modify (seg : Segment) : ∀ (files : List (List Segment)) (i : ℕ),
    i < files.length → (∀ j, i < j → payloads (files.getD j []) = []) →
    (files.modify i (· ++ [seg])).flatMap payloads = files.flatMap payloads ++ payloads [seg] := by
  intro files
  induction files with
  | nil =>
      intro i hi
      exact absurd hi (Nat.not_lt_zero i)
  | cons file files ih =>
      intro i hi hnewest
      cases i with
      | zero =>
          have hrest : files.flatMap payloads = [] := by
            rw [List.flatMap_eq_nil_iff]
            intro f hf
            obtain ⟨k, hk, rfl⟩ := List.getElem_of_mem hf
            have h := hnewest (k + 1) (Nat.succ_pos k)
            simpa [List.getD_eq_getElem?_getD, hk] using h
          rw [List.modify_zero_cons, List.flatMap_cons, List.flatMap_cons, hrest, List.append_nil,
            List.append_nil]
          exact List.filterMap_append
      | succ i =>
          rw [List.modify_succ_cons, List.flatMap_cons, List.flatMap_cons, ih i (by simpa using hi),
            List.append_assoc]
          intro j hj
          have h := hnewest (j + 1) (by omega)
          rwa [List.getD_cons_succ] at h

section Changes

variable {s s' : State}

/-- A change that leaves the timestamp names alone leaves the links alone. -/
theorem linked_congr (hepochs : s'.epochs = s.epochs) (i : ℕ) : Linked s' i ↔ Linked s i := by
  unfold Linked
  rw [hepochs]

/-- A segment at the end of `current`. -/
theorem DirInv.append (h : DirInv s) {cur : ℕ} {seg : Segment} (hcur : s.current = some cur)
    (hfiles : s'.files = (s.appendTo cur seg).files) (hcurrent : s'.current = s.current)
    (hepochs : s'.epochs = s.epochs) (hlog : s'.log = s.log ++ payloads [seg]) : DirInv s' := by
  have hlt : cur < s.files.length := h.current_lt cur hcur
  have hlength : s'.files.length = s.files.length := by
    rw [hfiles]
    exact List.length_modify _ _ _
  have hfile : ∀ j, s'.file j = s.file j ++ if cur = j then [seg] else [] := by
    intro j
    unfold State.file
    rw [hfiles]
    exact getD_modify_append s.files cur j seg hlt
  have hother : ∀ j, j ≠ cur → s'.file j = s.file j := by
    intro j hj
    rw [hfile, if_neg (Ne.symm hj), List.append_nil]
  refine ⟨?_, ?_, ?_, ?_, ?_, ?_⟩
  · intro i hi
    rw [hlength]
    exact h.current_lt i (hcurrent ▸ hi)
  · intro e he
    rw [hlength]
    exact h.epochs_lt e (hepochs ▸ he)
  · rw [hepochs]
    exact h.inodes
  · rw [hfiles, hlog, ← h.payloads_eq]
    exact flatMap_payloads_modify seg s.files cur hlt (h.newest cur hcur)
  · intro i hi j hij
    rw [hcurrent, hcur, Option.some.injEq] at hi
    subst hi
    rw [hother j (by omega)]
    exact h.newest cur hcur j hij
  · intro i hi
    rw [hcurrent, linked_congr hepochs]
    by_cases hic : i = cur
    · exact Or.inl (hic ▸ hcur)
    · rw [hother i hic] at hi
      exact h.named i hi

/-- A new, empty `current`. -/
theorem DirInv.create (h : DirInv s) (hcur : s.current = none) (hfiles : s'.files = s.files ++ [[]])
    (hcurrent : s'.current = some s.files.length) (hepochs : s'.epochs = s.epochs)
    (hlog : s'.log = s.log) : DirInv s' := by
  have hlength : s'.files.length = s.files.length + 1 := by
    rw [hfiles, List.length_append, List.length_singleton]
  have hfile : ∀ j, s'.file j = s.file j := by
    intro j
    unfold State.file
    rw [hfiles, List.getD_eq_getElem?_getD, List.getD_eq_getElem?_getD, List.getElem?_append]
    by_cases hj : j < s.files.length
    · rw [if_pos hj]
    · rw [if_neg hj, List.getElem?_eq_none (Nat.le_of_not_lt hj)]
      rcases Nat.eq_zero_or_pos (j - s.files.length) with hzero | hpos
      · rw [hzero]
        rfl
      · rw [List.getElem?_eq_none (by rw [List.length_singleton]; omega)]
  refine ⟨?_, ?_, ?_, ?_, ?_, ?_⟩
  · intro i hi
    rw [hcurrent, Option.some.injEq] at hi
    omega
  · intro e he
    have := h.epochs_lt e (hepochs ▸ he)
    omega
  · rw [hepochs]
    exact h.inodes
  · rw [hfiles, hlog, ← h.payloads_eq, List.flatMap_append]
    exact List.append_nil _
  · intro i hi j hij
    rw [hcurrent, Option.some.injEq] at hi
    rw [hfile]
    unfold State.file
    rw [List.getD_eq_getElem?_getD, List.getElem?_eq_none (by omega)]
    rfl
  · intro i hi
    rw [hfile] at hi
    rw [linked_congr hepochs]
    rcases h.named i hi with hcurrent' | hlinked
    · rw [hcur] at hcurrent'
      cases hcurrent'
    · exact Or.inr hlinked

/-- **Every change keeps the directory in order.** -/
theorem DirInv.of_dirStep (h : DirInv s) (hstep : DirStep s s') : DirInv s' := by
  cases hstep with
  | same hfiles hcurrent hepochs hlog =>
      obtain ⟨files, current, epochs, _, _, _, _, _, log⟩ := s'
      subst hfiles hcurrent hepochs hlog
      exact ⟨h.current_lt, h.epochs_lt, h.inodes, h.payloads_eq, h.newest, h.named⟩
  | wrote cur msg hcur hfiles hcurrent hepochs hlog =>
      exact h.append hcur hfiles hcurrent hepochs hlog
  | part cur text hcur hfiles hcurrent hepochs hlog =>
      refine h.append hcur hfiles hcurrent hepochs ?_
      rw [hlog]
      exact (List.append_nil _).symm
  | created hcur hfiles hcurrent hepochs hlog =>
      exact h.create hcur hfiles hcurrent hepochs hlog
  | unlinked cur hcur hlinked hfiles hcurrent hepochs hlog =>
      obtain ⟨files, current, epochs, _, _, _, _, _, log⟩ := s'
      subst hfiles hcurrent hepochs hlog
      refine ⟨?_, h.epochs_lt, h.inodes, h.payloads_eq, ?_, ?_⟩
      · intro i hi
        cases hi
      · intro i hi
        cases hi
      · intro i hi
        rcases h.named i hi with hcurrent | hlinked'
        · rw [hcur, Option.some.injEq] at hcurrent
          exact Or.inr (hcurrent ▸ hlinked)
        · exact Or.inr hlinked'
  | linked cur name hcur hfree hname hfiles hcurrent hepochs hlog =>
      obtain ⟨files, current, epochs, _, _, _, _, _, log⟩ := s'
      subst hfiles hcurrent hepochs hlog
      refine ⟨h.current_lt, ?_, ?_, h.payloads_eq, h.newest, ?_⟩
      · intro e he
        rcases List.mem_append.mp he with he | he
        · exact h.epochs_lt e he
        · rw [List.mem_singleton] at he
          subst he
          exact h.current_lt cur hcur
      · rw [List.map_append, List.nodup_append]
        refine ⟨h.inodes, by simp, ?_⟩
        rintro i hi j hj rfl
        rw [List.map_singleton, List.mem_singleton] at hj
        subst hj
        obtain ⟨e, he, rfl⟩ := List.mem_map.mp hi
        exact hfree ⟨e.1, he⟩
      · intro i hi
        rcases h.named i hi with hcurrent | ⟨name', hmem⟩
        · exact Or.inl hcurrent
        · exact Or.inr ⟨name', List.mem_append_left _ hmem⟩

/-- **No change takes a name away, shortens a file or unlinks what has no other name.** -/
theorem kept_of_dirStep (h : DirInv s) (hstep : DirStep s s') : Kept s s' := by
  have hnames : s'.epochs = s.epochs → ∀ name i, s.epochs.lookup name = some i →
      s'.epochs.lookup name = some i := by
    intro hepochs name i hi
    rwa [hepochs]
  have hsame : s'.files = s.files → ∀ i, s.file i <+: s'.file i := by
    intro hfiles i
    have heq : s'.file i = s.file i := by
      unfold State.file
      rw [hfiles]
    exact heq ▸ List.prefix_rfl
  have hgrows : ∀ cur seg, s.current = some cur → s'.files = (s.appendTo cur seg).files →
      ∀ i, s.file i <+: s'.file i := by
    intro cur seg hcur hfiles i
    unfold State.file
    rw [hfiles]
    exact ⟨_, (getD_modify_append s.files cur i seg (h.current_lt cur hcur)).symm⟩
  have hstays : s'.current = s.current → ∀ i, s.current = some i → s'.current = some i ∨ Linked s i := by
    intro hcurrent i hi
    exact Or.inl (hcurrent ▸ hi)
  -- only a write makes a file longer, and the name `current` goes only where a timestamp links to the file
  cases hstep with
  | same hfiles hcurrent hepochs hlog =>
      exact ⟨hnames hepochs, hsame hfiles, hstays hcurrent⟩
  | wrote cur msg hcur hfiles hcurrent hepochs hlog =>
      exact ⟨hnames hepochs, hgrows cur _ hcur hfiles, hstays hcurrent⟩
  | part cur text hcur hfiles hcurrent hepochs hlog =>
      exact ⟨hnames hepochs, hgrows cur _ hcur hfiles, hstays hcurrent⟩
  | created hcur hfiles hcurrent hepochs hlog =>
      refine ⟨hnames hepochs, ?_, ?_⟩
      · intro i
        by_cases hi : i < s.files.length
        · have heq : s'.file i = s.file i := by
            unfold State.file
            rw [hfiles, List.getD_eq_getElem?_getD, List.getD_eq_getElem?_getD,
              List.getElem?_append_left hi]
          exact heq ▸ List.prefix_rfl
        · have hnil : s.file i = [] := by
            unfold State.file
            rw [List.getD_eq_getElem?_getD, List.getElem?_eq_none (Nat.le_of_not_lt hi)]
            rfl
          rw [hnil]
          exact List.nil_prefix
      · intro i hi
        rw [hcur] at hi
        cases hi
  | unlinked cur hcur hlinked hfiles hcurrent hepochs hlog =>
      refine ⟨hnames hepochs, hsame hfiles, ?_⟩
      intro i hi
      rw [hcur, Option.some.injEq] at hi
      exact Or.inr (hi ▸ hlinked)
  | linked cur name hcur hfree hname hfiles hcurrent hepochs hlog =>
      refine ⟨?_, hsame hfiles, hstays hcurrent⟩
      intro name' i hi
      rw [hepochs, List.lookup_append, hi]
      rfl

end Changes

/-! ## Kept descriptors through a step -/

section Locks

variable {s s' : State}

/-- A step that leaves the sidecar, the descriptors and `current` alone. -/
theorem LockInv.of_eq (h : LockInv s) (hsidecar : s'.sidecar = s.sidecar)
    (hnext : s'.nextLock = s.nextLock) (hsticky : s'.sticky = s.sticky)
    (hcurrent : s'.current = s.current)
    (hcall : s'.call.replacing = false → s.call.replacing = false) : LockInv s' := by
  refine ⟨?_, ?_, ?_⟩
  · rw [hsidecar, hnext]
    exact h.sidecar_lt
  · rw [hsticky, hnext]
    exact h.sticky_lt
  · rw [hsticky, hsidecar, hcurrent]
    exact fun hreplacing => h.sticky_current (hcall hreplacing)

/-- A step that removes the sidecar: no descriptor is used again. -/
theorem LockInv.of_sidecar_none (h : LockInv s) (hsidecar : s'.sidecar = none)
    (hnext : s'.nextLock = s.nextLock)
    (hsticky : ∀ t st, s'.sticky t = some st → s.sticky t = some st) : LockInv s' := by
  refine ⟨?_, ?_, ?_⟩
  · intro l hl
    rw [hsidecar] at hl
    cases hl
  · intro t st hst
    rw [hnext]
    exact h.sticky_lt t st (hsticky t st hst)
  · intro _ t st _ hl
    rw [hsidecar] at hl
    cases hl

/-- The end of the process: no thread keeps a descriptor. -/
theorem LockInv.of_sticky_none (h : LockInv s) (hsidecar : s'.sidecar = s.sidecar)
    (hnext : s'.nextLock = s.nextLock) (hsticky : s'.sticky = fun _ => none) : LockInv s' := by
  refine ⟨?_, ?_, ?_⟩
  · rw [hsidecar, hnext]
    exact h.sidecar_lt
  · intro t st hst
    rw [hsticky] at hst
    cases hst
  · intro _ t st hst
    rw [hsticky] at hst
    cases hst

/-- Releasing a descriptor only takes descriptors away. -/
theorem sticky_releaseSticky (s : State) (t : ℕ) (u : Bool) {q : ℕ} {st : Sticky}
    (h : (s.releaseSticky t u).sticky q = some st) : s.sticky q = some st := by
  unfold State.releaseSticky at h
  split at h
  · exact h
  · simp only [Function.update_apply] at h
    split at h
    · cases h
    · exact h

/-- Releasing a descriptor changes the descriptors and the sidecar only. -/
theorem releaseSticky_eq (s : State) (t : ℕ) (u : Bool) :
    ∃ st sd, s.releaseSticky t u = { s with sticky := st, sidecar := sd } := by
  unfold State.releaseSticky
  split
  · exact ⟨s.sticky, s.sidecar, rfl⟩
  · exact ⟨_, _, rfl⟩

theorem LockInv.releaseSticky (h : LockInv s) (t : ℕ) (u : Bool) : LockInv (s.releaseSticky t u) := by
  have hsub : ∀ q st, (s.releaseSticky t u).sticky q = some st → s.sticky q = some st :=
    fun q st => sticky_releaseSticky s t u
  unfold State.releaseSticky at hsub ⊢
  split at hsub
  · exact h
  · cases u with
    | true => exact h.of_sidecar_none rfl rfl hsub
    | false =>
        refine ⟨h.sidecar_lt, fun q st hst => h.sticky_lt q st (hsub q st hst), ?_⟩
        exact fun hreplacing q st hst => h.sticky_current hreplacing q st (hsub q st hst)

/-- Opening the sidecar changes nothing else, and a new inode belongs to no descriptor. -/
theorem openSidecar_eq (s : State) :
    ∃ n, s.openSidecar.1 = { s with sidecar := some s.openSidecar.2, nextLock := n } := by
  unfold State.openSidecar
  split
  · rename_i l hl
    refine ⟨s.nextLock, ?_⟩
    rw [← hl]
  · exact ⟨_, rfl⟩

theorem LockInv.openSidecar (h : LockInv s) : LockInv s.openSidecar.1 := by
  unfold State.openSidecar
  split
  · exact h
  · refine ⟨?_, ?_, ?_⟩
    · intro l hl
      rw [Option.some.injEq] at hl
      show l < s.nextLock + 1
      omega
    · intro t st hst
      have := h.sticky_lt t st hst
      show st.lock < s.nextLock + 1
      omega
    · intro _ t st hst hl
      have hlt := h.sticky_lt t st hst
      rw [Option.some.injEq] at hl
      omega

/-- Leaving the lock of a rotation. -/
theorem LockInv.leaveLock (h : LockInv s) : LockInv s.leaveLock :=
  h.of_sidecar_none rfl rfl (fun _ _ hst => hst)

end Locks

/-! ## One step -/

/-- What a step leads to: a change of the directory, and the places and descriptors in order. -/
structure Leads (s s' : State) : Prop where
  dir : DirStep s s'
  place : Place s'
  lock : LockInv s'

section Steps

variable {s s' : State}

/-- Where a call stands says whether it is replacing `current`. -/
theorem not_replacing_of_call {call : Call} (hcall : s.call = call) (h : call.replacing = false) :
    s.call.replacing = false := by
  rw [hcall]
  exact h

/-- A call that ends without touching the directory and leaves its lock. -/
theorem leads_leaveLock (hlock : LockInv s) : Leads s s.leaveLock :=
  ⟨.same rfl rfl rfl rfl, trivial, hlock.leaveLock⟩

theorem leads_begin (hlock : LockInv s) (hcall : s.call = .idle) (t : ℕ) (msg : List Char) (wall : ℤ) :
    Leads s (s.begin t msg wall) := by
  have hreplacing := not_replacing_of_call hcall rfl
  obtain ⟨st, sd, hrelease⟩ := releaseSticky_eq s t true
  have hlock' := hlock.releaseSticky t true
  rw [hrelease] at hlock'
  unfold State.begin
  by_cases hmsg : msg.head? = some '$'
  · rw [if_pos hmsg, hrelease]
    exact ⟨.same rfl rfl rfl rfl, trivial, hlock'.of_eq rfl rfl rfl rfl (fun _ => hreplacing)⟩
  · rw [if_neg hmsg]
    cases hkept : s.kept t with
    | some data =>
        refine ⟨.same rfl rfl rfl rfl, ?_, hlock.of_eq rfl rfl rfl rfl (fun _ => hreplacing)⟩
        unfold State.kept at hkept
        split at hkept
        · cases hkept
        · rename_i kst hkst
          split at hkept
          · rename_i hsidecar
            rw [Option.some.injEq] at hkept
            subst hkept
            exact hlock.sticky_current hreplacing t kst hkst hsidecar
          · cases hkept
    | none =>
        simp only [hrelease]
        unfold State.openAppend
        cases hcur : s.current with
        | some data =>
            exact ⟨.same rfl hcur.symm rfl rfl, rfl, hlock'.of_eq rfl rfl rfl hcur.symm (fun _ => hreplacing)⟩
        | none =>
            refine ⟨.created hcur rfl rfl rfl rfl, rfl, ?_⟩
            refine ⟨hlock'.sidecar_lt, hlock'.sticky_lt, ?_⟩
            -- no descriptor was usable while there was no `current`
            intro _ q kst hkst hsidecar
            have h := hlock'.sticky_current hreplacing q kst hkst hsidecar
            rw [show s.current = some kst.data from h] at hcur
            cases hcur

theorem leads_next (hdir : DirInv s) (hplace : Place s) (hlock : LockInv s) {scanRaises : Bool}
    (h : s.next scanRaises = some s') : Leads s s' := by
  unfold State.next at h
  unfold Place at hplace
  cases hcall : s.call with
  | idle =>
      simp only [hcall] at h
      cases h
  -- the sidecar is opened: no file changes, the descriptor of the thread is kept
  | takeSidecar t msg data =>
      simp only [hcall, Option.some.injEq] at h hplace
      obtain ⟨n, hn⟩ := openSidecar_eq s
      have hlock' := hlock.openSidecar
      rw [hn] at h hlock'
      subst h
      refine ⟨.same rfl rfl rfl rfl, hplace, hlock'.sidecar_lt, ?_, ?_⟩
      · intro q kst hkst
        simp only [Function.update_apply] at hkst
        split at hkst
        · rw [Option.some.injEq] at hkst
          subst hkst
          exact hlock'.sidecar_lt _ rfl
        · exact hlock'.sticky_lt q kst hkst
      -- a kept descriptor with its sidecar still on disk is one of `current`
      · intro _ q kst hkst hsidecar
        simp only [Function.update_apply] at hkst
        split at hkst
        · rw [Option.some.injEq] at hkst
          subst hkst
          exact hplace
        · exact hlock'.sticky_current (not_replacing_of_call hcall rfl) q kst hkst hsidecar
  | append t msg data =>
      simp only [hcall, Option.some.injEq] at h hplace
      subst h
      refine ⟨.wrote data msg hplace rfl rfl rfl rfl, trivial, hlock.of_eq rfl rfl rfl rfl ?_⟩
      exact fun _ => not_replacing_of_call hcall rfl
  | takeLock msg wall =>
      simp only [hcall, Option.some.injEq] at h
      obtain ⟨n, hn⟩ := openSidecar_eq s
      have hlock' := hlock.openSidecar
      rw [hn] at h hlock'
      subst h
      refine ⟨.same rfl rfl rfl rfl, trivial, hlock'.of_eq rfl rfl rfl rfl ?_⟩
      exact fun _ => not_replacing_of_call hcall rfl
  -- `os.path.exists(current)`, then the scan of the directory or its cache
  | check msg wall =>
      have hreplacing := not_replacing_of_call hcall rfl
      simp only [hcall] at h
      cases hcur : s.current with
      | none =>
          simp only [hcur, Option.some.injEq] at h
          subst h
          exact ⟨.same rfl hcur.symm rfl rfl, rfl,
            hlock.of_eq rfl rfl rfl hcur.symm (fun _ => hreplacing)⟩
      | some cur =>
          obtain ⟨b, c, hb, hlinked⟩ := currentIsHardlinkedToDigitEpoch_eq s cur
          simp only [hcur, hb] at h
          cases b with
          | true =>
              simp only [Option.some.injEq] at h
              subst h
              refine ⟨.same rfl hcur.symm rfl rfl, ⟨cur, rfl, hlinked.mp rfl⟩, ?_⟩
              exact hlock.of_eq rfl rfl rfl hcur.symm (fun _ => hreplacing)
          | false =>
              simp only [Option.some.injEq] at h
              subst h
              refine ⟨.same rfl hcur.symm rfl rfl, ⟨cur, rfl, ?_⟩, ?_⟩
              · exact fun hl => Bool.false_ne_true (hlinked.mpr hl)
              · exact hlock.of_eq rfl rfl rfl hcur.symm (fun _ => hreplacing)
  -- the safety link: it fails, or gives `current` a name that was free
  | ensure msg wall =>
      simp only [hcall] at h hplace
      obtain ⟨cur, hcur, hfree⟩ := hplace
      simp only [hcur] at h
      cases hensure : s.ensureCurrentHardlinkedToTimestamp cur wall scanRaises with
      | none =>
          simp only [hensure, Option.some.injEq] at h
          subst h
          exact leads_leaveLock hlock
      | some t =>
          obtain ⟨name, c, hname, ht⟩ := ensureCurrentHardlinkedToTimestamp_spec s hfree hensure
          simp only [hensure, Option.some.injEq] at h
          subst ht
          subst h
          refine ⟨.linked cur name hcur hfree hname rfl rfl rfl rfl, ⟨cur, hcur⟩, ?_⟩
          exact hlock.of_eq rfl rfl rfl rfl (fun _ => not_replacing_of_call hcall rfl)
  -- the second check: without a digit name the call raises, and the lock is left
  | recheck msg wall =>
      simp only [hcall] at h hplace
      obtain ⟨cur, hcur⟩ := hplace
      obtain ⟨b, c, hb, hlinked⟩ := currentIsHardlinkedToDigitEpoch_eq s cur
      simp only [hcur, hb] at h
      cases b with
      | true =>
          simp only [Option.some.injEq] at h
          subst h
          refine ⟨.same rfl hcur.symm rfl rfl, ⟨cur, rfl, hlinked.mp rfl⟩, ?_⟩
          exact hlock.of_eq rfl rfl rfl hcur.symm (fun _ => not_replacing_of_call hcall rfl)
      | false =>
          simp only [Option.some.injEq] at h
          subst h
          refine ⟨.same rfl hcur.symm rfl rfl, trivial, ?_⟩
          exact hlock.of_sidecar_none rfl rfl (fun _ _ hst => hst)
  -- from here on `current` is absent, so the condition on kept descriptors is void
  | unlink msg wall =>
      simp only [hcall, Option.some.injEq] at h hplace
      obtain ⟨cur, hcur, hlinked⟩ := hplace
      subst h
      refine ⟨.unlinked cur hcur hlinked rfl rfl rfl rfl, rfl, hlock.sidecar_lt, hlock.sticky_lt, ?_⟩
      intro hreplacing
      cases hreplacing
  | create msg wall =>
      simp only [hcall, Option.some.injEq] at h hplace
      unfold State.openTruncate at h
      simp only [hplace] at h
      subst h
      refine ⟨.created hplace rfl rfl rfl rfl, ⟨rfl, ?_⟩, hlock.sidecar_lt, hlock.sticky_lt, ?_⟩
      · rintro ⟨name, hmem⟩
        -- a new inode has no name yet
        exact absurd (hdir.epochs_lt _ hmem) (Nat.lt_irrefl _)
      · intro hreplacing
        cases hreplacing
  | write msg wall data =>
      simp only [hcall, Option.some.injEq] at h hplace
      obtain ⟨hcur, hfree⟩ := hplace
      subst h
      refine ⟨.wrote data msg hcur rfl rfl rfl rfl, ⟨data, hcur, hfree⟩, hlock.sidecar_lt,
        hlock.sticky_lt, ?_⟩
      intro hreplacing
      cases hreplacing
  -- the new `current` gets its digit name, or the call raises
  | link wall =>
      simp only [hcall] at h hplace
      obtain ⟨cur, hcur, hfree⟩ := hplace
      simp only [hcur] at h
      cases hlink : s.linkFrom cur 1 (s.digitEpochStartTsForNewCurrent cur wall scanRaises) with
      | none =>
          simp only [hlink, Option.some.injEq] at h
          subst h
          exact leads_leaveLock hlock
      | some t =>
          obtain ⟨name, c, hname, ht⟩ := linkFrom_spec s hfree hlink
          simp only [hlink, Option.some.injEq] at h
          subst ht
          subst h
          refine ⟨.linked cur name hcur hfree hname rfl rfl rfl rfl, trivial, ?_⟩
          exact hlock.of_sidecar_none rfl rfl (fun _ _ hst => hst)

/-- A part of the payload that is being written goes to `current`. -/
theorem dirStep_writePart (hplace : Place s) {k : ℕ} (hfiles : s'.files = (s.writePart k).files)
    (hcurrent : s'.current = s.current) (hepochs : s'.epochs = s.epochs) (hlog : s'.log = s.log) :
    DirStep s s' := by
  unfold Place at hplace
  unfold State.writePart at hfiles
  split at hfiles
  · rename_i t msg data hcall
    simp only [hcall] at hplace
    exact .part data _ hplace hfiles hcurrent hepochs hlog
  · rename_i msg wall data hcall
    simp only [hcall] at hplace
    exact .part data _ hplace.1 hfiles hcurrent hepochs hlog
  · exact .same hfiles hcurrent hepochs hlog

/-- Writing a part changes the files only. -/
theorem writePart_eq (s : State) (k : ℕ) : ∃ f, s.writePart k = { s with files := f } := by
  unfold State.writePart
  split
  · exact ⟨_, rfl⟩
  · exact ⟨_, rfl⟩
  · exact ⟨s.files, rfl⟩

theorem leads_raised (hplace : Place s) (hlock : LockInv s) {k : ℕ} (h : s.raised k = some s') :
    Leads s s' := by
  obtain ⟨f, hf⟩ := writePart_eq s k
  have hfiles : f = (s.writePart k).files := by rw [hf]
  unfold State.raised at h
  split at h
  · cases h
  · rename_i t msg data hcall
    rw [Option.some.injEq] at h
    subst h
    exact ⟨.same rfl rfl rfl rfl, trivial, hlock.of_eq rfl rfl rfl rfl
      (fun _ => not_replacing_of_call hcall rfl)⟩
  · rename_i msg wall hcall
    rw [Option.some.injEq] at h
    subst h
    exact ⟨.same rfl rfl rfl rfl, trivial, hlock.of_eq rfl rfl rfl rfl
      (fun _ => not_replacing_of_call hcall rfl)⟩
  · rename_i t msg data hcall
    rw [Option.some.injEq, hf] at h
    have hpart : LockInv { s with files := f } := hlock.of_eq rfl rfl rfl rfl id
    have hlock' := hpart.releaseSticky t false
    obtain ⟨st, sd, hrelease⟩ := releaseSticky_eq { s with files := f } t false
    rw [hrelease] at h hlock'
    subst h
    refine ⟨dirStep_writePart hplace hfiles rfl rfl rfl, trivial, hlock'.of_eq rfl rfl rfl rfl ?_⟩
    exact fun _ => not_replacing_of_call hcall rfl
  · rw [Option.some.injEq, hf] at h
    subst h
    exact ⟨dirStep_writePart hplace hfiles rfl rfl rfl, trivial,
      hlock.of_sidecar_none rfl rfl (fun _ _ hst => hst)⟩

/-- What holds at the place of a call does not depend on the sidecar and the descriptors. -/
theorem place_congr (hplace : Place s) (hcurrent : s'.current = s.current)
    (hepochs : s'.epochs = s.epochs) (hcall : s'.call = s.call) : Place s' := by
  unfold Place Linked at *
  rw [hcurrent, hepochs, hcall]
  exact hplace

/-- **One step.** -/
theorem leads_step (hdir : DirInv s) (hplace : Place s) (hlock : LockInv s) {a : Action}
    (h : step s a = some s') : Leads s s' := by
  cases a with
  | begin t msg wall =>
      simp only [step] at h
      split at h
      · rename_i hidle
        rw [Option.some.injEq] at h
        subst h
        exact leads_begin hlock hidle.1 t msg wall
      · cases h
  | next scanRaises => exact leads_next hdir hplace hlock h
  | raised k => exact leads_raised hplace hlock h
  | timeout =>
      simp only [step] at h
      split at h
      · rename_i t msg data hcall
        rw [Option.some.injEq] at h
        subst h
        exact ⟨.same rfl rfl rfl rfl, trivial, hlock.of_eq rfl rfl rfl rfl
          (fun _ => not_replacing_of_call hcall rfl)⟩
      · cases h
  | crash k =>
      simp only [step, Option.some.injEq] at h
      obtain ⟨f, hf⟩ := writePart_eq s k
      have hfiles : f = (s.writePart k).files := by rw [hf]
      rw [hf] at h
      subst h
      exact ⟨dirStep_writePart hplace hfiles rfl rfl rfl, trivial, hlock.of_sticky_none rfl rfl rfl⟩
  | leaveHost t =>
      simp only [step] at h
      split at h
      · cases h
      · have hlock' := hlock.releaseSticky t true
        obtain ⟨st, sd, hrelease⟩ := releaseSticky_eq s t true
        rw [Option.some.injEq, hrelease] at h
        rw [hrelease] at hlock'
        subst h
        exact ⟨.same rfl rfl rfl rfl, place_congr hplace rfl rfl rfl, hlock'⟩
  | removeSidecar =>
      simp only [step, Option.some.injEq] at h
      subst h
      exact ⟨.same rfl rfl rfl rfl, place_congr hplace rfl rfl rfl,
        hlock.of_sidecar_none rfl rfl (fun _ _ hst => hst)⟩
  | touchSidecar =>
      simp only [step, Option.some.injEq] at h
      have hlock' := hlock.openSidecar
      obtain ⟨n, hn⟩ := openSidecar_eq s
      rw [hn] at h hlock'
      subst h
      exact ⟨.same rfl rfl rfl rfl, place_congr hplace rfl rfl rfl, hlock'⟩

end Steps

/-! ## Whole runs -/

/-- What holds in every state of a run. -/
structure Inv (s : State) : Prop where
  dir : DirInv s
  place : Place s
  lock : LockInv s

theorem Inv.of_start {s : State} (h : Start s) : Inv s := by
  have hempty : ∀ i, payloads (s.file i) = [] := by
    intro i
    unfold State.file
    rw [List.getD_eq_getElem?_getD]
    cases hi : s.files[i]? with
    | none => rfl
    | some file => exact h.untouched file (List.mem_of_getElem? hi)
  refine ⟨⟨h.current_lt, h.epochs_lt, h.inodes, ?_, ?_, ?_⟩, ?_, ⟨h.sidecar_lt, ?_, ?_⟩⟩
  · rw [h.log, List.flatMap_eq_nil_iff]
    exact h.untouched
  · intro i _ j _
    exact hempty j
  · intro i hi
    exact absurd (hempty i) hi
  · unfold Place
    rw [h.call]
    trivial
  · intro t st hst
    rw [h.sticky] at hst
    cases hst
  · intro _ t st hst
    rw [h.sticky] at hst
    cases hst

theorem Inv.step {s s' : State} {a : Action} (h : Inv s) (hstep : step s a = some s') : Inv s' := by
  have hleads := leads_step h.dir h.place h.lock hstep
  exact ⟨h.dir.of_dirStep hleads.dir, hleads.place, hleads.lock⟩

/-- The directory in order is the promise of the archive. -/
theorem DirInv.archived {s : State} (h : DirInv s) : Archived s := by
  refine ⟨h.payloads_eq, h.named, ?_⟩
  intro i name name' hmem hmem'
  exact congrArg Prod.fst (List.inj_on_of_nodup_map h.inodes hmem hmem' rfl)

/-- **Nothing that was appended is lost.**  In every run of appends and rotations, with calls that fail,
processes that end and threads that change in between, the files hold every payload written so far once
and in order, under `current` or one timestamp name; and no step takes a timestamp name away, overwrites
or shortens a file, or unlinks `current` without a timestamp name for its inode. -/
theorem archived_run {s₀ s : State} {as : List Action} (hstart : Start s₀)
    (hrun : Transition.exec step s₀ as = some s) :
    Archived s ∧ ∀ a s', step s a = some s' → Kept s s' := by
  have hinv : Inv s :=
    Transition.exec_invariant_of_step (fun _ _ _ h hstep => h.step hstep) as s₀ s
      (Inv.of_start hstart) hrun
  refine ⟨hinv.dir.archived, ?_⟩
  intro a s' hstep
  exact kept_of_dirStep hinv.dir (leads_step hinv.dir hinv.place hinv.lock hstep).dir

/-- A host that has sent nothing yet. -/
def newHost : State :=
  ⟨[], none, [], none, 0, none, fun _ => none, .idle, []⟩

/-- The call under way goes on for `k` system calls. -/
def goOn (k : ℕ) : List Action :=
  List.replicate k (.next false)

/-- A sample creates `current`; a rotation gives it a safety link and the new file the name of its first
second; the process ends in the middle of a second rotation in the same second; the third finds the part
that was left behind, and another thread appends a sample. -/
def equalSeconds : List Action :=
  let dollar := "$tacc_stats 2.3\n1700000000 1 c1\n".toList
  [Action.begin 0 "1700000000 1 c1\ncpu 0 1\n".toList 1700000000] ++ goOn 2 ++
  [Action.begin 0 dollar 1700000000] ++ goOn 8 ++
  [Action.begin 0 dollar 1700000000] ++ goOn 4 ++ [Action.crash 31] ++
  [Action.begin 1 dollar 1700000001] ++ goOn 8 ++
  [Action.begin 2 "1700000001 1 c1\ncpu 0 2\n".toList 1700000001] ++ goOn 2

theorem archived_run_equalSeconds :
    ∃ s, Transition.exec step newHost equalSeconds = some s ∧
      s.epochs.map Prod.snd = [0, 1, 2, 3] ∧ s.log.length = 4 ∧ Archived s := by
  have hstart : Start newHost := by
    refine ⟨?_, ?_, ?_, ?_, ?_, ?_, rfl, rfl, rfl, rfl⟩ <;> simp [newHost]
  have heval : (Transition.exec step newHost equalSeconds).map (fun s => (s.epochs.map Prod.snd, s.log.length)) =
      some ([0, 1, 2, 3], 4) := by decide +kernel
  obtain ⟨s, hs, hfields⟩ := Option.map_eq_some_iff.mp heval
  obtain ⟨hepochs, hlog⟩ := Prod.ext_iff.mp hfields
  exact ⟨s, hs, hepochs, hlog, (archived_run hstart hs).1⟩

end ArchiveRotation
