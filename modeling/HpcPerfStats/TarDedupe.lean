/-
# One largest copy of each file (`dedupe_tar_keep_largest_file_per_member`)

`_rewrite_daily_tar_largest_member_wins` goes over the tar twice: the first pass notes for
each file name the position of its largest member (the last one of equal size), the second
one copies these members and everything that is not a file, in archive order.

Both passes get their members from `_iter_tar_members`.  That function is a generator, but
it is decorated with `contextlib.contextmanager`, so a call gives a context manager, which
`enumerate` cannot iterate: it raises `TypeError`, and `dedupe_tar_keep_largest_file_per_member`
turns every exception into `False`.  The helper is a parameter of the definitions below, so
that the two passes are stated for the generator as well.

Main results: `not_dedupes` (the code as it is) and `dedupes_generator` (the same code over
the undecorated generator).
-/
import HpcPerfStats.DayReconcile

namespace TarDedupe

open ArchiveMembers DayReconcile

variable {δ : Type*}

/-! ## Tars and the helper -/

/-- A member of a tar: a regular file or another entry, with what it carries. -/
structure TarMember (δ : Type*) where
  name : String
  size : ℕ
  isFile : Bool
  body : δ
  deriving DecidableEq, Repr

/-- What a call of the member helper gives. -/
inductive MemberIter (δ : Type*) where
  | generator (members : List (TarMember δ))
  /-- `_GeneratorContextManager`, which has no `__iter__` -/
  | contextManager (members : List (TarMember δ))
  deriving DecidableEq, Repr

/-- `contextlib.contextmanager`: the decorated function gives a context manager. -/
def contextmanager (f : List (TarMember δ) → MemberIter δ) (t : List (TarMember δ)) : MemberIter δ :=
  match f t with
  | .generator members => .contextManager members
  | .contextManager members => .contextManager members

/-- The body of `_iter_tar_members`: the members in archive order. -/
def iterTarMembersBody (t : List (TarMember δ)) : MemberIter δ := .generator t

/-- `_iter_tar_members`, with its decorator. -/
def iterTarMembers (t : List (TarMember δ)) : MemberIter δ := contextmanager iterTarMembersBody t

/-- `enumerate`: members with their positions, `none` for a `TypeError`. -/
def enumerate : MemberIter δ → Option (List (TarMember δ × ℕ))
  | .generator members => some members.zipIdx
  | .contextManager _ => none

/-! ## The two passes -/

/-- One turn of the first pass over `file_keep`. -/
def noteLargest (keep : List (String × ℕ × ℕ)) (p : TarMember δ × ℕ) : List (String × ℕ × ℕ) :=
  if p.1.isFile = false then keep
  else
    match keep.lookup p.1.name with
    | none => PyDict.set keep p.1.name (p.1.size, p.2)
    | some (size, idx) =>
        if size < p.1.size ∨ (p.1.size = size ∧ idx < p.2) then
          PyDict.set keep p.1.name (p.1.size, p.2)
        else keep

/-- `file_keep` after the first pass. -/
def fileKeep (ps : List (TarMember δ × ℕ)) : List (String × ℕ × ℕ) := ps.foldl noteLargest []

/-- The test of the second pass. -/
def copied (keep : List (String × ℕ × ℕ)) (p : TarMember δ × ℕ) : Bool :=
  if p.1.isFile then
    match keep.lookup p.1.name with
    | none => false
    | some (_, idx) => idx = p.2
  else true

/-- What a call meets. -/
structure DedupeEnv where
  locked : Bool
  /-- a yield at the poll before a position of the first and of the second pass -/
  yieldsFirst : ℕ → Bool
  yieldsSecond : ℕ → Bool
  yieldRequested : Bool
  tmpVerified : Bool
  moved : Bool

/-- How the rewrite ends. -/
inductive Rewritten (δ : Type*) where
  | done (tmp : List (TarMember δ))
  | raised
  | yielded
  deriving DecidableEq, Repr

/-- `_rewrite_daily_tar_largest_member_wins`. -/
def rewriteDailyTarLargestMemberWins (iter : List (TarMember δ) → MemberIter δ) (env : DedupeEnv)
    (t : List (TarMember δ)) : Rewritten δ :=
  match enumerate (iter t) with
  | none => .raised
  | some ps =>
      if ps.any fun p => env.yieldsFirst p.2 then .yielded
      else
        match enumerate (iter t) with
        | none => .raised
        | some qs =>
            if qs.any fun p => env.yieldsSecond p.2 then .yielded
            else if env.yieldRequested then .yielded
            else .done ((qs.filter (copied (fileKeep ps))).map Prod.fst)

/-- How a call ends. -/
inductive DedupeEnd where
  | returned (value : Bool)
  | yielded
  deriving DecidableEq, Repr

/-- `dedupe_tar_keep_largest_file_per_member` over a member helper: its end and the tar after it. -/
def dedupeWith (iter : List (TarMember δ) → MemberIter δ) (env : DedupeEnv) :
    Option (List (TarMember δ)) → DedupeEnd × Option (List (TarMember δ))
  | none => (.returned true, none)
  | some t =>
      if env.locked = false then (.returned false, some t)
      else
        match rewriteDailyTarLargestMemberWins iter env t with
        | .raised => (.returned false, some t)
        | .yielded => (.yielded, some t)
        | .done tmp =>
            if env.tmpVerified = false then (.returned false, some t)
            else if env.moved then (.returned true, some tmp)
            else (.returned false, some t)

/-- `dedupe_tar_keep_largest_file_per_member`. -/
def dedupeTarKeepLargestFilePerMember (env : DedupeEnv) (tar : Option (List (TarMember δ))) :
    DedupeEnd × Option (List (TarMember δ)) :=
  dedupeWith iterTarMembers env tar

/-! ## The law -/

/-- The member at a position is the largest file of its name, the last one of its size. -/
def IsTop (ps : List (TarMember δ × ℕ)) (p : TarMember δ × ℕ) : Prop :=
  p.1.isFile = true ∧ ∀ q ∈ ps, q.1.isFile = true → q.1.name = p.1.name →
    q.1.size < p.1.size ∨ (q.1.size = p.1.size ∧ q.2 ≤ p.2)

instance (ps : List (TarMember δ × ℕ)) (p : TarMember δ × ℕ) : Decidable (IsTop ps p) := by
  unfold IsTop
  infer_instance

/-- What a deduplicated tar holds, in archive order: the largest file of each name and every entry
that is not a file. -/
def survivors (t : List (TarMember δ)) : List (TarMember δ) :=
  (t.zipIdx.filter fun p => p.1.isFile = false ∨ IsTop t.zipIdx p).map Prod.fst

/-- The file members of a tar by name and size. -/
def files (t : List (TarMember δ)) : Content :=
  (t.filter fun m => m.isFile).map fun m => (m.name, m.size)

/-- The files of one name. -/
def filesNamed (t : List (TarMember δ)) (name : String) : List (TarMember δ) :=
  t.filter fun m => m.isFile ∧ m.name = name

/-- **The law of a deduplication.**  The call returns `True`, and the tar holds the survivors: each
file name once, and the map of largest sizes as it was. -/
def Dedupes (t : List (TarMember δ)) (after : DedupeEnd × Option (List (TarMember δ))) : Prop :=
  after = (.returned true, some (survivors t)) ∧
    (∀ m ∈ t, m.isFile = true → (filesNamed (survivors t) m.name).length = 1) ∧
    SameMembers (files (survivors t)) (files t)

/-! ## The code as it is -/

/-- The decorated helper cannot be iterated. -/
theorem enumerate_iterTarMembers (t : List (TarMember δ)) : enumerate (iterTarMembers t) = none := rfl

/-- Every call for a tar that is there returns `False` and leaves the tar, whatever it meets. -/
theorem dedupe_returns_false (env : DedupeEnv) (t : List (TarMember δ)) :
    dedupeTarKeepLargestFilePerMember env (some t) = (.returned false, some t) := by
  have hraised : rewriteDailyTarLargestMemberWins iterTarMembers env t = .raised := by
    unfold rewriteDailyTarLargestMemberWins
    rw [enumerate_iterTarMembers]
  unfold dedupeTarKeepLargestFilePerMember dedupeWith
  simp only [hraised]
  split_ifs <;> rfl

/-- **No tar is deduplicated.** -/
theorem not_dedupes (env : DedupeEnv) (t : List (TarMember δ)) :
    ¬ Dedupes t (dedupeTarKeepLargestFilePerMember env (some t)) := by
  rw [dedupe_returns_false]
  rintro ⟨h, -⟩
  exact absurd (DedupeEnd.returned.inj (Prod.mk.inj h).1) (by decide)

/-- A tar with one file is a failing input. -/
theorem not_dedupes_of_one_file :
    ¬ Dedupes [(⟨"a", 1, true, ()⟩ : TarMember Unit)]
      (dedupeTarKeepLargestFilePerMember
        ⟨true, fun _ => false, fun _ => false, false, true, true⟩ (some [⟨"a", 1, true, ()⟩])) := by
  rintro ⟨h, -⟩
  revert h
  decide

/-! ## The two passes over the generator -/

/-- What the first pass has noted after the members `ps`. -/
structure Notes (keep : List (String × ℕ × ℕ)) (ps : List (TarMember δ × ℕ)) : Prop where
  unseen : ∀ name, keep.lookup name = none → ∀ q ∈ ps, q.1.isFile = true → q.1.name ≠ name
  top : ∀ name size idx, keep.lookup name = some (size, idx) →
    ∃ q ∈ ps, IsTop ps q ∧ q.1.name = name ∧ q.1.size = size ∧ q.2 = idx

/-- A top stays one beside a member that does not beat it. -/
theorem IsTop.concat {ps : List (TarMember δ × ℕ)} {p q : TarMember δ × ℕ} (hq : IsTop ps q)
    (hp : p.1.isFile = true → p.1.name = q.1.name →
      p.1.size < q.1.size ∨ (p.1.size = q.1.size ∧ p.2 ≤ q.2)) : IsTop (ps ++ [p]) q := by
  refine ⟨hq.1, fun r hr hfile hname => ?_⟩
  rcases List.mem_append.mp hr with hr | hr
  · exact hq.2 r hr hfile hname
  · obtain rfl := List.mem_singleton.mp hr
    exact hp hfile hname

/-- A name that the new member does not have keeps its note. -/
theorem Notes.keepTop {keep : List (String × ℕ × ℕ)} {ps : List (TarMember δ × ℕ)} (h : Notes keep ps)
    {p : TarMember δ × ℕ} {name : String} {size idx : ℕ} (hlookup : keep.lookup name = some (size, idx))
    (hp : p.1.isFile = true → p.1.name = name → p.1.size < size ∨ (p.1.size = size ∧ p.2 ≤ idx)) :
    ∃ q ∈ ps ++ [p], IsTop (ps ++ [p]) q ∧ q.1.name = name ∧ q.1.size = size ∧ q.2 = idx := by
  obtain ⟨q, hq, htop, rfl, rfl, rfl⟩ := h.top name size idx hlookup
  exact ⟨q, List.mem_append_left _ hq, htop.concat hp, rfl, rfl, rfl⟩

/-- A new member that is noted is the top of its name. -/
theorem Notes.setTop {keep : List (String × ℕ × ℕ)} {ps : List (TarMember δ × ℕ)} (h : Notes keep ps)
    {p : TarMember δ × ℕ} (hfile : p.1.isFile = true)
    (hp : ∀ q ∈ ps, q.1.isFile = true → q.1.name = p.1.name →
      q.1.size < p.1.size ∨ (q.1.size = p.1.size ∧ q.2 ≤ p.2)) :
    Notes (PyDict.set keep p.1.name (p.1.size, p.2)) (ps ++ [p]) := by
  constructor
  · intro name hnone q hq hqfile hname
    by_cases hpn : name = p.1.name
    · rw [hpn, PyDict.lookup_set_self] at hnone
      cases hnone
    · rw [PyDict.lookup_set_of_ne keep _ hpn] at hnone
      rcases List.mem_append.mp hq with hq | hq
      · exact h.unseen name hnone q hq hqfile hname
      · obtain rfl := List.mem_singleton.mp hq
        exact hpn hname.symm
  · intro name size idx hsome
    by_cases hpn : name = p.1.name
    · rw [hpn, PyDict.lookup_set_self] at hsome
      obtain ⟨rfl, rfl⟩ := Prod.mk.inj (Option.some.inj hsome)
      refine ⟨p, List.mem_append_right _ List.mem_cons_self, ⟨hfile, fun q hq hqfile hname => ?_⟩, hpn.symm,
        rfl, rfl⟩
      rcases List.mem_append.mp hq with hq | hq
      · exact hp q hq hqfile hname
      · obtain rfl := List.mem_singleton.mp hq
        exact Or.inr ⟨rfl, le_rfl⟩
    · rw [PyDict.lookup_set_of_ne keep _ hpn] at hsome
      exact h.keepTop hsome fun _ hname => absurd hname.symm hpn

/-- **One turn of the first pass** keeps the notes, when positions go up. -/
theorem Notes.step {keep : List (String × ℕ × ℕ)} {ps : List (TarMember δ × ℕ)} (h : Notes keep ps)
    {p : TarMember δ × ℕ} (hlt : ∀ q ∈ ps, q.2 < p.2) : Notes (noteLargest keep p) (ps ++ [p]) := by
  unfold noteLargest
  cases hfile : p.1.isFile with
  | false =>
      rw [if_pos rfl]
      have hnot : ∀ {P : Prop}, p.1.isFile = true → P := by
        intro P hp
        rw [hfile] at hp
        cases hp
      constructor
      · intro name hnone q hq hqfile
        rcases List.mem_append.mp hq with hq | hq
        · exact h.unseen name hnone q hq hqfile
        · obtain rfl := List.mem_singleton.mp hq
          exact hnot hqfile
      · exact fun name size idx hsome => h.keepTop hsome fun hp => hnot hp
  | true =>
      rw [if_neg (by decide)]
      cases hlookup : keep.lookup p.1.name with
      | none =>
          exact h.setTop hfile fun q hq hqfile hname => absurd hname (h.unseen _ hlookup q hq hqfile)
      | some note =>
          obtain ⟨size, idx⟩ := note
          obtain ⟨q, hq, htop, hname, hsize, hidx⟩ := h.top _ _ _ hlookup
          have hidxlt : idx < p.2 := by
            rw [← hidx]
            exact hlt q hq
          simp only
          split_ifs with hbeats
          · refine h.setTop hfile fun r hr hrfile hrname => ?_
            have hr2 := hlt r hr
            rcases htop.2 r hr hrfile (hrname.trans hname.symm) with hrs | ⟨hrs, -⟩
            · omega
            · omega
          · constructor
            · intro name hnone r hr hrfile hrname
              rcases List.mem_append.mp hr with hr | hr
              · exact h.unseen name hnone r hr hrfile hrname
              · obtain rfl := List.mem_singleton.mp hr
                rw [← hrname, hlookup] at hnone
                cases hnone
            · intro name size' idx' hsome
              refine h.keepTop hsome fun _ hpname => Or.inl ?_
              rw [← hpname, hlookup] at hsome
              obtain ⟨rfl, rfl⟩ := Prod.mk.inj (Option.some.inj hsome)
              omega

/-- What the first pass has noted at its end. -/
theorem notes_fileKeep {ps : List (TarMember δ × ℕ)} (h : (ps.map Prod.snd).Pairwise (· < ·)) :
    Notes (fileKeep ps) ps := by
  induction ps using List.reverseRecOn with
  | nil =>
      constructor
      · intro name _ q hq
        cases hq
      · intro name size idx hsome
        cases hsome
  | append_singleton ps p ih =>
      rw [List.map_append, List.pairwise_append] at h
      obtain ⟨hps, -, hlt⟩ := h
      have hkeep : fileKeep (ps ++ [p]) = noteLargest (fileKeep ps) p := List.foldl_concat ..
      rw [hkeep]
      exact (ih hps).step fun q hq => hlt q.2 (List.mem_map_of_mem hq) p.2 (by simp)

/-- A position belongs to one member. -/
theorem eq_of_snd_eq {ps : List (TarMember δ × ℕ)} (h : (ps.map Prod.snd).Pairwise (· < ·))
    {p q : TarMember δ × ℕ} (hp : p ∈ ps) (hq : q ∈ ps) (heq : p.2 = q.2) : p = q := by
  have hnodup : (ps.map Prod.snd).Nodup := h.imp fun hlt => Nat.ne_of_lt hlt
  exact List.inj_on_of_nodup_map hnodup hp hq heq

/-- The top of a name is unique. -/
theorem IsTop.unique {ps : List (TarMember δ × ℕ)} (h : (ps.map Prod.snd).Pairwise (· < ·))
    {p q : TarMember δ × ℕ} (hp : p ∈ ps) (hq : q ∈ ps) (hpt : IsTop ps p) (hqt : IsTop ps q)
    (hname : p.1.name = q.1.name) : p = q := by
  refine eq_of_snd_eq h hp hq ?_
  have h1 := hqt.2 p hp hpt.1 hname
  have h2 := hpt.2 q hq hqt.1 hname.symm
  omega

/-- **The second pass copies the tops and what is not a file.** -/
theorem copied_iff {ps : List (TarMember δ × ℕ)} (h : (ps.map Prod.snd).Pairwise (· < ·))
    {p : TarMember δ × ℕ} (hp : p ∈ ps) :
    copied (fileKeep ps) p = true ↔ p.1.isFile = false ∨ IsTop ps p := by
  have hnotes := notes_fileKeep h
  unfold copied
  cases hfile : p.1.isFile with
  | false => simp
  | true =>
      rw [if_pos rfl]
      cases hlookup : (fileKeep ps).lookup p.1.name with
      | none => exact absurd rfl (hnotes.unseen _ hlookup p hp hfile)
      | some note =>
          obtain ⟨size, idx⟩ := note
          obtain ⟨q, hq, htop, hname, -, hidx⟩ := hnotes.top _ _ _ hlookup
          simp only [decide_eq_true_eq, Bool.true_eq_false, false_or]
          constructor
          · intro heq
            rwa [eq_of_snd_eq h hp hq (heq.symm.trans hidx.symm)]
          · intro hpt
            rw [← hidx, IsTop.unique h hq hp htop hpt hname]

theorem pairwise_zipIdx (t : List (TarMember δ)) : (t.zipIdx.map Prod.snd).Pairwise (· < ·) := by
  rw [List.zipIdx_map_snd]
  exact List.pairwise_lt_range'

/-- What the two passes write. -/
theorem filter_copied (t : List (TarMember δ)) :
    (t.zipIdx.filter (copied (fileKeep t.zipIdx))).map Prod.fst = survivors t := by
  unfold survivors
  congr 1
  refine List.filter_congr fun p hp => ?_
  rw [Bool.eq_iff_iff, copied_iff (pairwise_zipIdx t) hp, decide_eq_true_eq]

/-! ## What the survivors hold -/

theorem mem_zipIdx_of_mem {t : List (TarMember δ)} {m : TarMember δ} (hm : m ∈ t) :
    ∃ p ∈ t.zipIdx, p.1 = m := by
  rw [← List.zipIdx_map_fst 0 t] at hm
  exact List.mem_map.mp hm

theorem mem_of_mem_zipIdx {t : List (TarMember δ)} {p : TarMember δ × ℕ} (hp : p ∈ t.zipIdx) : p.1 ∈ t := by
  rw [← List.zipIdx_map_fst 0 t]
  exact List.mem_map_of_mem hp

/-- Every file has a top of its name. -/
theorem exists_top {t : List (TarMember δ)} {m : TarMember δ} (hm : m ∈ t) (hfile : m.isFile = true) :
    ∃ p ∈ t.zipIdx, IsTop t.zipIdx p ∧ p.1.name = m.name := by
  obtain ⟨q, hq, rfl⟩ := mem_zipIdx_of_mem hm
  have hnotes := notes_fileKeep (pairwise_zipIdx t)
  cases hlookup : (fileKeep t.zipIdx).lookup q.1.name with
  | none => exact absurd rfl (hnotes.unseen _ hlookup q hq hfile)
  | some note =>
      obtain ⟨p, hp, htop, hname, -⟩ := hnotes.top _ note.1 note.2 hlookup
      exact ⟨p, hp, htop, hname⟩

theorem mem_survivors_of_top {t : List (TarMember δ)} {p : TarMember δ × ℕ} (hp : p ∈ t.zipIdx)
    (htop : IsTop t.zipIdx p) : p.1 ∈ survivors t := by
  refine List.mem_map_of_mem (List.mem_filter.mpr ⟨hp, ?_⟩)
  exact decide_eq_true (Or.inr htop)

theorem mem_of_mem_survivors {t : List (TarMember δ)} {m : TarMember δ} (hm : m ∈ survivors t) : m ∈ t := by
  obtain ⟨p, hp, rfl⟩ := List.mem_map.mp hm
  exact mem_of_mem_zipIdx (List.mem_of_mem_filter hp)

/-- A list without repetitions whose members are all one value has one member. -/
theorem length_eq_one_of_nodup {α : Type*} {l : List α} {a : α} (hn : l.Nodup) (ha : a ∈ l)
    (hall : ∀ x ∈ l, x = a) : l.length = 1 := by
  have hl : l = List.replicate l.length a := List.eq_replicate_iff.mpr ⟨rfl, hall⟩
  have hpos : 0 < l.length := List.length_pos_of_mem ha
  have hle : l.length ≤ 1 := by
    rw [hl] at hn
    exact List.nodup_replicate.mp hn
  omega

/-- Each file name is among the survivors once. -/
theorem filesNamed_survivors {t : List (TarMember δ)} {m : TarMember δ} (hm : m ∈ t)
    (hfile : m.isFile = true) : (filesNamed (survivors t) m.name).length = 1 := by
  obtain ⟨p, hp, htop, hname⟩ := exists_top hm hfile
  unfold filesNamed survivors
  rw [List.filter_map, List.length_map]
  refine length_eq_one_of_nodup (a := p) ?_ ?_ ?_
  · have hnodup : t.zipIdx.Nodup :=
      List.Nodup.of_map Prod.snd ((pairwise_zipIdx t).imp fun hlt => Nat.ne_of_lt hlt)
    exact (hnodup.filter _).filter _
  · refine List.mem_filter.mpr ⟨List.mem_filter.mpr ⟨hp, decide_eq_true (Or.inr htop)⟩, ?_⟩
    exact decide_eq_true ⟨htop.1, hname⟩
  · intro q hq
    obtain ⟨hq, hqname⟩ := List.mem_filter.mp hq
    obtain ⟨hq, hqtop⟩ := List.mem_filter.mp hq
    obtain ⟨hqfile, hqn⟩ := of_decide_eq_true hqname
    rcases of_decide_eq_true hqtop with hno | hqtop
    · rw [hno] at hqfile
      cases hqfile
    · exact IsTop.unique (pairwise_zipIdx t) hq hp hqtop htop (hqn.trans hname.symm)

theorem mem_files {t : List (TarMember δ)} {e : Member} :
    e ∈ files t ↔ ∃ m ∈ t, m.isFile = true ∧ (m.name, m.size) = e := by
  unfold files
  rw [List.mem_map]
  constructor
  · rintro ⟨m, hm, rfl⟩
    obtain ⟨hm, hfile⟩ := List.mem_filter.mp hm
    exact ⟨m, hm, hfile, rfl⟩
  · rintro ⟨m, hm, hfile, rfl⟩
    exact ⟨m, List.mem_filter.mpr ⟨hm, hfile⟩, rfl⟩

/-- The survivors have the map of largest sizes of the tar. -/
theorem sameMembers_survivors (t : List (TarMember δ)) : SameMembers (files (survivors t)) (files t) := by
  refine sameMembers_iff.mpr fun e => ⟨fun h => ?_, ?_⟩
  · refine h.mono fun x hx => ?_
    obtain ⟨m, hm, hfile, rfl⟩ := mem_files.mp hx
    exact mem_files.mpr ⟨m, mem_of_mem_survivors hm, hfile, rfl⟩
  · rintro ⟨size, hmem, hle⟩
    obtain ⟨m, hm, hfile, hsize⟩ := mem_files.mp hmem
    obtain ⟨hmname, rfl⟩ := Prod.mk.inj hsize
    obtain ⟨p, hp, htop, hname⟩ := exists_top hm hfile
    obtain ⟨q, hq, rfl⟩ := mem_zipIdx_of_mem hm
    have hbeats := htop.2 q hq hfile hname.symm
    refine ⟨p.1.size, mem_files.mpr ⟨p.1, mem_survivors_of_top hp htop, htop.1, ?_⟩, by omega⟩
    rw [hname, hmname]

/-- **Over the undecorated generator the same code deduplicates every tar**, when no step fails and
no yield is asked for. -/
theorem dedupes_generator {env : DedupeEnv} (hlock : env.locked = true) (hfirst : ∀ i, env.yieldsFirst i = false)
    (hsecond : ∀ i, env.yieldsSecond i = false) (hyield : env.yieldRequested = false)
    (hverify : env.tmpVerified = true) (hmove : env.moved = true) (t : List (TarMember δ)) :
    Dedupes t (dedupeWith iterTarMembersBody env (some t)) := by
  have hrewrite : rewriteDailyTarLargestMemberWins iterTarMembersBody env t = .done (survivors t) := by
    have hpoll : ∀ ps : List (TarMember δ × ℕ), (ps.any fun _ => false) = false := by
      intro ps
      rw [List.any_eq_false]
      exact fun _ _ => Bool.false_ne_true
    unfold rewriteDailyTarLargestMemberWins iterTarMembersBody enumerate
    simp only [hfirst, hsecond, hyield, hpoll, Bool.false_eq_true, if_false]
    rw [filter_copied]
  refine ⟨?_, fun m hm hfile => filesNamed_survivors hm hfile, sameMembers_survivors t⟩
  unfold dedupeWith
  simp only [hlock, hrewrite, hverify, hmove, Bool.true_eq_false, if_false, if_true]

end TarDedupe
