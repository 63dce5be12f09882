/-
# The daily accounting file (`persist_accounting_daily_file`)

Each day of job accounting is one text file.  A caller that brings the text of a day refuses to make the
file shorter: it counts the lines of the file under the read lock, compares, and puts its own text in place
of the file later, under the write lock.  The locks are perfect here: any number of readers or one writer.

* `splitlines`, `universalNewlines`: how the text is cut into lines, and what reading a text file does to it;
* `Store` has the file, its temporary file, the locks and where each process is in its call;
* `stored p` lists what other calls have put in place of the file since process `p` last looked at it, and
  `changed p` says whether a step of the call of `p` has changed the file;
* `Fresh` says of a step that replaces the file that none of the texts stored since the look is longer.

The main result is `persist_lines_iff`: the file never gets shorter, in a run of any calls, exactly when every
step of the run is fresh.
-/
import Mathlib.Data.List.Basic
import Mathlib.Data.Fintype.Basic
import Mathlib.Logic.Function.Basic
import HpcPerfStats.Transition

set_option linter.unusedSectionVars false

namespace AccountingFile

open Transition

/-! ## Lines of a text -/

/-- The characters at which `str.splitlines` ends a line. -/
def isLineBreak (c : Char) : Bool :=
  (10 ≤ c.toNat && c.toNat ≤ 13) || (28 ≤ c.toNat && c.toNat ≤ 30) || c.toNat == 0x85 ||
    c.toNat == 0x2028 || c.toNat == 0x2029

/-- `str.isspace` of one character. -/
def isSpace (c : Char) : Bool :=
  (9 ≤ c.toNat && c.toNat ≤ 13) || (28 ≤ c.toNat && c.toNat ≤ 32) || c.toNat == 0x85 ||
    c.toNat == 0xa0 || c.toNat == 0x1680 || (0x2000 ≤ c.toNat && c.toNat ≤ 0x200a) ||
    c.toNat == 0x2028 || c.toNat == 0x2029 || c.toNat == 0x202f || c.toNat == 0x205f ||
    c.toNat == 0x3000

/-- `text.splitlines()`: a carriage return and the line feed behind it end one line. -/
def splitlines : List Char → List (List Char)
  | [] => []
  | '\r' :: '\n' :: cs => [] :: splitlines cs
  | c :: cs =>
      if isLineBreak c then [] :: splitlines cs
      else
        match splitlines cs with
        | [] => [[c]]
        | l :: ls => (c :: l) :: ls

/-- What reading in text mode makes of the characters of a file. -/
def universalNewlines : List Char → List Char
  | [] => []
  | '\r' :: '\n' :: cs => '\n' :: universalNewlines cs
  | c :: cs => (if c = '\r' then '\n' else c) :: universalNewlines cs

/-- `count_accounting_content_lines`. -/
def countAccountingContentLines (content : String) : ℕ :=
  (splitlines content.toList).length

/-- `_read_accounting_file_line_count`, once the file is open. -/
def readAccountingFileLineCount (text : String) : ℕ :=
  (splitlines (universalNewlines text.toList)).length

/-- The lines that are not blank. -/
def jobLines (content : String) : ℕ :=
  ((splitlines content.toList).filter fun l => l.any (!isSpace ·)).length

/-- A line feed ends a line, whatever comes behind it. -/
theorem splitlines_newline (cs : List Char) : splitlines ('\n' :: cs) = [] :: splitlines cs := by
  rw [splitlines]
  · rfl
  · exact nofun

/-- A character that is no carriage return is taken alone. -/
theorem splitlines_cons {c : Char} (h : c ≠ '\r') (cs : List Char) :
    splitlines (c :: cs) =
      if isLineBreak c then [] :: splitlines cs
      else
        match splitlines cs with
        | [] => [[c]]
        | l :: ls => (c :: l) :: ls := by
  rw [splitlines]
  intro _ hc
  exact absurd hc h

/-- Reading in text mode leaves the lines as they are. -/
theorem splitlines_universalNewlines (cs : List Char) :
    splitlines (universalNewlines cs) = splitlines cs := by
  induction cs using universalNewlines.induct with
  | case1 => rfl
  | case2 cs ih =>
      rw [universalNewlines, splitlines_newline, splitlines, ih]
  | case3 c cs hc ih =>
      rw [universalNewlines]
      · by_cases hcr : c = '\r'
        · subst hcr
          rw [if_pos rfl, splitlines_newline, splitlines, ih]
          · rfl
          · exact fun rest _ hr => hc rest rfl hr
        · rw [if_neg hcr, splitlines_cons hcr, splitlines_cons hcr, ih]
      · exact hc

/-- The count of the file is the count of the text that was written to it. -/
theorem readAccountingFileLineCount_eq (text : String) :
    readAccountingFileLineCount text = countAccountingContentLines text := by
  rw [readAccountingFileLineCount, countAccountingContentLines, splitlines_universalNewlines]

/-! ## Calls -/

/-- How a call has ended. -/
inductive Outcome where
  | returned (written : Bool)
  | shrinkError (existingLines incomingLines : ℕ)
  /-- any other exception, or the end of the process -/
  | failed
  deriving DecidableEq, Repr

/-- The outcomes that are to leave the file alone. -/
def Outcome.Refused : Outcome → Prop
  | .returned written => written = false
  | .shrinkError _ _ => True
  | .failed => False

/-- Where a process is in `persist_accounting_daily_file`. -/
inductive Pc where
  /-- between two calls; how the last one has ended -/
  | idle (last : Option Outcome)
  /-- next: `os.path.isfile(path)` -/
  | looking (content : String)
  /-- next: take the read lock -/
  | toRead (content : String)
  /-- the read lock is held; next: read the file and count its lines -/
  | reading (content : String)
  /-- the read lock is held; next: release it -/
  | counted (content : String) (existingLines : ℕ)
  /-- next: `incoming_lines < existing_lines` -/
  | comparing (content : String) (existingLines : ℕ)
  /-- next: take the write lock -/
  | toWrite (content : String)
  /-- the write lock is held; next: open the temporary file -/
  | locked (content : String)
  /-- next: write the text -/
  | writing (content : String)
  /-- next: `os.replace(tmp_path, path)` -/
  | replacing (content : String)
  /-- next: release the write lock -/
  | replaced
  deriving DecidableEq, Repr

/-- The file of one date, its temporary file, the two locks and the processes. -/
structure Store (ι : Type*) where
  daily : Option String
  tmp : Option String
  readers : List ι
  writer : Option ι
  pc : ι → Pc
  /-- the texts put in place of the file since the last look of the process -/
  stored : ι → List String
  /-- a step of the current, or last, call of the process has changed the file -/
  changed : ι → Bool

/-- What can happen next.  A call that fails while it writes leaves a part of its text. -/
inductive Action (ι : Type*) where
  | call (p : ι) (content : String)
  | next (p : ι)
  | fail (p : ι) (part : String)
  deriving DecidableEq

/-- The process that acts. -/
def Action.process {ι : Type*} : Action ι → ι
  | .call p _ => p
  | .next p => p
  | .fail p _ => p

namespace Store

variable {ι : Type*} [DecidableEq ι]

/-- The file (and a temporary file that a call has left), no call under way. -/
def start (daily tmp : Option String) : Store ι :=
  ⟨daily, tmp, [], none, fun _ => .idle none, fun _ => [], fun _ => false⟩

/-- The number of lines of the file; a missing file has none. -/
def lines (s : Store ι) : ℕ :=
  (s.daily.map countAccountingContentLines).getD 0

def goto (s : Store ι) (p : ι) (c : Pc) : Store ι :=
  { s with pc := Function.update s.pc p c }

/-- A look at the file: nothing has been stored since. -/
def look (s : Store ι) (p : ι) : Store ι :=
  { s with stored := Function.update s.stored p [] }

/-- Release what the process holds of the two locks. -/
def unlock (s : Store ι) (p : ι) : Store ι :=
  { s with
    readers := s.readers.erase p
    writer := if s.writer = some p then none else s.writer }

/-- `os.replace`: the temporary file becomes the daily file. -/
def replace (s : Store ι) (text : String) : Store ι :=
  { s with daily := some text, tmp := none, stored := fun q => s.stored q ++ [text] }

/-- The next step of a process at the point `c`; `none` when it has to wait. -/
def proceed (s : Store ι) (p : ι) : Pc → Option (Store ι)
  | .idle _ => none
  | .looking content =>
      match s.daily with
      | none => some ((s.look p).goto p (.toWrite content))
      | some _ => some (s.goto p (.toRead content))
  | .toRead content =>
      if s.writer = none then some ({ s with readers := p :: s.readers }.goto p (.reading content))
      else none
  | .reading content =>
      match s.daily with
      | none => some ((s.unlock p).goto p (.idle (some .failed)))
      | some text => some ((s.look p).goto p (.counted content (readAccountingFileLineCount text)))
  | .counted content n => some ((s.unlock p).goto p (.comparing content n))
  | .comparing content n =>
      if countAccountingContentLines content < n then
        some (s.goto p (.idle (some (.shrinkError n (countAccountingContentLines content)))))
      else some (s.goto p (.toWrite content))
  | .toWrite content =>
      if s.writer = none ∧ s.readers = [] then
        some ({ s with writer := some p }.goto p (.locked content))
      else none
  | .locked content => some ({ s with tmp := some "" }.goto p (.writing content))
  | .writing content => some ({ s with tmp := some content }.goto p (.replacing content))
  | .replacing _ =>
      match s.tmp with
      | none => some ((s.unlock p).goto p (.idle (some .failed)))
      | some text => some ((s.replace text).goto p .replaced)
  | .replaced => some ((s.unlock p).goto p (.idle (some (.returned true))))

/-- What the process does to the store. -/
def advance (s : Store ι) : Action ι → Option (Store ι)
  | .call p content =>
      match s.pc p with
      | .idle _ =>
          if jobLines content < 2 then some (s.goto p (.idle (some (.returned false))))
          else some (s.goto p (.looking content))
      | _ => none
  | .next p => s.proceed p (s.pc p)
  | .fail p part =>
      match s.pc p with
      | .idle _ => none
      | .writing _ => some (({ s with tmp := some part }.unlock p).goto p (.idle (some .failed)))
      | _ => some ((s.unlock p).goto p (.idle (some .failed)))

/-- Whether the call of the process has changed the file, after a step from `s` to `t`. -/
def noteChange (s : Store ι) (a : Action ι) (t : Store ι) : Store ι :=
  let before :=
    match a with
    | .call _ _ => false
    | _ => s.changed a.process
  { t with changed := Function.update s.changed a.process (before || decide (t.daily ≠ s.daily)) }

/-- One step of the system. -/
def step (s : Store ι) (a : Action ι) : Option (Store ι) :=
  (s.advance a).map (s.noteChange a)

/-- No text that was stored since the look of a process is longer than the one it puts in place now. -/
def fresh (s : Store ι) : Action ι → Bool
  | .next p =>
      match s.pc p with
      | .replacing content =>
          (s.stored p).all fun d =>
            decide (countAccountingContentLines d ≤ countAccountingContentLines content)
      | _ => true
  | _ => true

def Fresh (s : Store ι) (a : Action ι) : Prop :=
  s.fresh a = true

instance (s : Store ι) (a : Action ι) : Decidable (s.Fresh a) :=
  inferInstanceAs (Decidable (_ = true))

end Store

/-! ## What is known of each process -/

/-- The points of a call at which the write lock is held. -/
def Pc.writes : Pc → Bool
  | .locked _ => true
  | .writing _ => true
  | .replacing _ => true
  | .replaced => true
  | _ => false

namespace Store

variable {ι : Type*} [DecidableEq ι]

/-- The file had at most `k` lines at the last look of the process, and either nothing was stored since, or
the file is one of the texts that were, and none of them is longer. -/
def Behind (s : Store ι) (p : ι) (k : ℕ) : Prop :=
  (s.stored p = [] ∧ s.lines ≤ k) ∨
    ((∀ d ∈ s.stored p, countAccountingContentLines d ≤ s.lines) ∧
      ∃ d ∈ s.stored p, s.lines = countAccountingContentLines d)

/-- What a process at the point `c` knows of the file. -/
def Known (s : Store ι) (p : ι) : Pc → Prop
  | .counted _ n => s.Behind p n
  | .comparing _ n => s.Behind p n
  | .toWrite content => s.Behind p (countAccountingContentLines content)
  | .locked content => s.Behind p (countAccountingContentLines content)
  | .writing content => s.Behind p (countAccountingContentLines content)
  | .replacing content =>
      s.Behind p (countAccountingContentLines content) ∧ s.tmp = some content
  | _ => True

/-- Every process knows what its point says, and one that writes holds the write lock. -/
structure Inv (s : Store ι) : Prop where
  known : ∀ p, s.Known p (s.pc p)
  writer : ∀ p, (s.pc p).writes = true → s.writer = some p

/-- What a process that is not between two steps of another knows does not change with them. -/
theorem Known.frame {s t : Store ι} {p : ι} {c : Pc} (h : s.Known p c) (hdaily : t.daily = s.daily)
    (hstored : t.stored p = s.stored p)
    (htmp : c.writes = true → t.tmp = s.tmp) : t.Known p c := by
  have hlines : t.lines = s.lines := by
    unfold lines
    rw [hdaily]
  have hbehind : ∀ k, t.Behind p k ↔ s.Behind p k := by
    intro k
    unfold Behind
    rw [hstored, hlines]
  cases c <;> simp only [Known, hbehind] at h ⊢ <;> try exact h
  exact ⟨h.1, (htmp rfl).trans h.2⟩

/-! ## Steps that leave the file alone -/

/-- A step of the process `p` that leaves the file alone and brings `p` to the point `c`. -/
structure Quiet (s : Store ι) (p : ι) (c : Pc) (t : Store ι) : Prop where
  daily : t.daily = s.daily
  pc : t.pc = Function.update s.pc p c
  stored : ∀ q, q ≠ p → t.stored q = s.stored q
  locks : ∀ q, q ≠ p → s.writer = some q → t.writer = some q ∧ t.tmp = s.tmp
  known : t.Known p c
  writer : c.writes = true → t.writer = some p

theorem Inv.quiet {s t : Store ι} (h : Inv s) {p : ι} {c : Pc} (hq : Quiet s p c t) : Inv t := by
  constructor
  · intro q
    by_cases hqp : q = p
    · subst hqp
      rw [hq.pc, Function.update_self]
      exact hq.known
    · rw [hq.pc, Function.update_of_ne hqp]
      refine (h.known q).frame hq.daily (hq.stored q hqp) ?_
      intro hw
      exact (hq.locks q hqp (h.writer q hw)).2
  · intro q hw
    by_cases hqp : q = p
    · subst hqp
      rw [hq.pc, Function.update_self] at hw
      exact hq.writer hw
    · rw [hq.pc, Function.update_of_ne hqp] at hw
      exact (hq.locks q hqp (h.writer q hw)).1

theorem unlock_writer {s : Store ι} {p q : ι} (hqp : q ≠ p) (h : s.writer = some q) :
    (s.unlock p).writer = some q := by
  unfold unlock
  dsimp only
  rw [if_neg, h]
  rw [h, Option.some.injEq]
  exact hqp

/-- A process that lets go of the locks, from any point. -/
theorem Quiet.unlock {s : Store ι} {p : ι} {c : Pc} (hknown : s.Known p c) (hw : c.writes = false) :
    Quiet s p c ((s.unlock p).goto p c) := by
  refine ⟨rfl, rfl, fun _ _ => rfl, fun q hqp h => ⟨unlock_writer hqp h, rfl⟩, ?_, ?_⟩
  · exact hknown.frame rfl rfl fun _ => rfl
  · rw [hw]
    exact nofun

/-- A process that only goes to another point. -/
theorem Quiet.goto {s : Store ι} {p : ι} {c : Pc} (hknown : s.Known p c)
    (hw : c.writes = true → s.writer = some p) : Quiet s p c (s.goto p c) :=
  ⟨rfl, rfl, fun _ _ => rfl, fun _ _ h => ⟨h, rfl⟩,
    hknown.frame rfl rfl fun _ => rfl, hw⟩

/-- A process that looks at the file goes to a point where it knows how long the file is. -/
theorem Quiet.look {s : Store ι} {p : ι} {c : Pc} (hknown : (s.look p).Known p c)
    (hw : c.writes = false) : Quiet s p c ((s.look p).goto p c) := by
  refine ⟨rfl, rfl, fun q hqp => Function.update_of_ne hqp _ _, fun q _ h => ⟨h, rfl⟩, ?_, ?_⟩
  · exact hknown.frame rfl rfl fun _ => rfl
  · rw [hw]
    exact nofun

/-- What a process knows right after it has looked at the file. -/
theorem behind_look {s : Store ι} {p : ι} {k : ℕ} (h : s.lines ≤ k) : (s.look p).Behind p k :=
  Or.inl ⟨Function.update_self .., h⟩

/-- A count that is not larger than another leaves the process behind that one. -/
theorem Behind.mono {s : Store ι} {p : ι} {k m : ℕ} (h : s.Behind p k) (hkm : k ≤ m) :
    s.Behind p m :=
  h.imp_left fun ⟨hnone, hle⟩ => ⟨hnone, hle.trans hkm⟩

theorem lines_of_daily {s : Store ι} {text : String} (h : s.daily = some text) :
    s.lines = countAccountingContentLines text := by
  unfold lines
  rw [h]
  rfl

/-- Nobody else holds the write lock while a process does. -/
theorem Inv.only_writer {s : Store ι} (h : Inv s) {p q : ι} (hp : (s.pc p).writes = true)
    (hq : s.writer = some q) : q = p := by
  rw [h.writer p hp, Option.some.injEq] at hq
  exact hq.symm

/-- **The next step of a call** that is not about to replace the file leaves it alone. -/
theorem quiet_proceed {s t : Store ι} {p : ι} (h : Inv s) (hstep : s.proceed p (s.pc p) = some t)
    (hreplacing : ∀ content, s.pc p ≠ .replacing content) : ∃ c, Quiet s p c t := by
  have hknown := h.known p
  have hwriter := h.writer p
  -- a call reads, compares and writes in turn; only the look at the file can teach it a new length
  cases hpc : s.pc p <;> rw [hpc] at hstep hknown hwriter <;> simp only [proceed] at hstep
  case idle last => cases hstep
  case looking content =>
    cases hdaily : s.daily with
    | none =>
        rw [hdaily, Option.some.injEq] at hstep
        subst hstep
        refine ⟨_, Quiet.look (behind_look ?_) rfl⟩
        unfold lines
        rw [hdaily]
        exact Nat.zero_le _
    | some text =>
        rw [hdaily, Option.some.injEq] at hstep
        subst hstep
        exact ⟨_, Quiet.goto trivial nofun⟩
  case toRead content =>
    split_ifs at hstep
    rw [Option.some.injEq] at hstep
    subst hstep
    exact ⟨.reading content, rfl, rfl, fun _ _ => rfl, fun _ _ hw => ⟨hw, rfl⟩, trivial, nofun⟩
  case reading content =>
    cases hdaily : s.daily with
    | none =>
        rw [hdaily, Option.some.injEq] at hstep
        subst hstep
        exact ⟨_, Quiet.unlock trivial rfl⟩
    | some text =>
        rw [hdaily, Option.some.injEq] at hstep
        subst hstep
        refine ⟨_, Quiet.look (behind_look ?_) rfl⟩
        rw [lines_of_daily hdaily, readAccountingFileLineCount_eq]
  case counted content n =>
    rw [Option.some.injEq] at hstep
    subst hstep
    exact ⟨_, Quiet.unlock hknown rfl⟩
  case comparing content n =>
    split_ifs at hstep with hless <;> rw [Option.some.injEq] at hstep <;> subst hstep
    · exact ⟨_, Quiet.goto trivial nofun⟩
    · exact ⟨_, Quiet.goto (hknown.mono (Nat.le_of_not_lt hless)) nofun⟩
  case toWrite content =>
    split_ifs at hstep with hfree
    rw [Option.some.injEq] at hstep
    subst hstep
    refine ⟨.locked content, rfl, rfl, fun _ _ => rfl, ?_, hknown, fun _ => rfl⟩
    intro q _ hw
    rw [hfree.1] at hw
    cases hw
  case locked content =>
    rw [Option.some.injEq] at hstep
    subst hstep
    refine ⟨.writing content, rfl, rfl, fun _ _ => rfl, ?_, hknown, hwriter⟩
    intro q hqp hw
    exact absurd (h.only_writer (by rw [hpc]; rfl) hw) hqp
  case writing content =>
    rw [Option.some.injEq] at hstep
    subst hstep
    refine ⟨.replacing content, rfl, rfl, fun _ _ => rfl, ?_, ⟨hknown, rfl⟩, hwriter⟩
    intro q hqp hw
    exact absurd (h.only_writer (by rw [hpc]; rfl) hw) hqp
  case replacing content => exact absurd hpc (hreplacing content)
  case replaced =>
    rw [Option.some.injEq] at hstep
    subst hstep
    exact ⟨_, Quiet.unlock trivial rfl⟩

/-! ## Steps of the system -/

/-- The bookkeeping of changes is no part of what the processes know. -/
theorem Inv.noteChange {s t : Store ι} (h : Inv t) (a : Action ι) : Inv (s.noteChange a t) :=
  ⟨fun p => (h.known p).frame rfl rfl fun _ => rfl, h.writer⟩

/-- A call that fails wherever it is. -/
theorem quiet_fail {s t : Store ι} (h : Inv s) {p : ι} {part : String}
    (hstep : s.advance (.fail p part) = some t) : Quiet s p (.idle (some .failed)) t := by
  simp only [advance] at hstep
  split at hstep
  · cases hstep
  · rename_i content hpc
    rw [Option.some.injEq] at hstep
    subst hstep
    refine ⟨rfl, rfl, fun _ _ => rfl, ?_, trivial, nofun⟩
    intro q hqp hw
    exact absurd (h.only_writer (by rw [hpc]; rfl) hw) hqp
  · rw [Option.some.injEq] at hstep
    subst hstep
    exact Quiet.unlock trivial rfl

theorem fresh_of_pc {s : Store ι} {p : ι} (h : ∀ content, s.pc p ≠ .replacing content) :
    s.fresh (.next p) = true := by
  unfold fresh
  dsimp only
  split
  · rename_i content hpc
    exact absurd hpc (h content)
  · rfl

/-- **What a step does to the file**: nothing, or it puts the text of a call in its place. -/
theorem step_cases {s t : Store ι} {a : Action ι} (h : Inv s) (hstep : step s a = some t) :
    (t.daily = s.daily ∧ Inv t ∧ s.fresh a = true) ∨
      ∃ p content, a = .next p ∧ s.pc p = .replacing content ∧
        t = s.noteChange a ((s.replace content).goto p .replaced) := by
  obtain ⟨u, hu, rfl⟩ := Option.map_eq_some_iff.mp hstep
  cases a with
  | call p content =>
      left
      simp only [advance] at hu
      split at hu
      · split_ifs at hu <;> rw [Option.some.injEq] at hu <;> subst hu
        · have hq : Quiet s p (.idle (some (.returned false))) _ := Quiet.goto trivial nofun
          exact ⟨rfl, (h.quiet hq).noteChange _, rfl⟩
        · have hq : Quiet s p (.looking content) _ := Quiet.goto trivial nofun
          exact ⟨rfl, (h.quiet hq).noteChange _, rfl⟩
      · cases hu
  | next p =>
      simp only [advance] at hu
      by_cases hreplacing : ∃ content, s.pc p = .replacing content
      · right
        obtain ⟨content, hpc⟩ := hreplacing
        have hknown := h.known p
        rw [hpc] at hu hknown
        simp only [proceed, hknown.2, Option.some.injEq] at hu
        exact ⟨p, content, rfl, hpc, by rw [hu]⟩
      · left
        rw [not_exists] at hreplacing
        obtain ⟨c, hq⟩ := quiet_proceed h hu hreplacing
        exact ⟨hq.daily, (h.quiet hq).noteChange _, fresh_of_pc hreplacing⟩
  | fail p part =>
      left
      have hq := quiet_fail h hu
      exact ⟨hq.daily, (h.quiet hq).noteChange _, rfl⟩

/-- What a process that is behind a file knows of the longer text that takes its place. -/
theorem Behind.replace {s : Store ι} {q : ι} {k : ℕ} {content : String} (h : s.Behind q k)
    (hlonger : s.lines ≤ countAccountingContentLines content) : (s.replace content).Behind q k := by
  have hmem : content ∈ (s.replace content).stored q :=
    List.mem_append.mpr (Or.inr (List.mem_singleton.mpr rfl))
  refine Or.inr ⟨?_, content, hmem, rfl⟩
  intro d hd
  rcases List.mem_append.mp hd with hd | hd
  · rcases h with ⟨hnone, -⟩ | ⟨hall, -⟩
    · rw [hnone] at hd
      cases hd
    · exact (hall d hd).trans hlonger
  · rw [List.mem_singleton] at hd
    subst hd
    exact Nat.le_refl _

/-- What a process knows while another puts a longer text in place of the file. -/
theorem Known.replace {s : Store ι} {q : ι} {c : Pc} {content : String} (h : s.Known q c)
    (hwrites : c.writes = false) (hlonger : s.lines ≤ countAccountingContentLines content) :
    (s.replace content).Known q c := by
  cases c <;> try exact h
  case counted content' n => exact Behind.replace h hlonger
  case comparing content' n => exact Behind.replace h hlonger
  case toWrite content' => exact Behind.replace h hlonger
  all_goals cases hwrites

/-- **A replacement by a text that is not shorter** keeps what the processes know. -/
theorem inv_replace {s : Store ι} (h : Inv s) {p : ι} {content : String}
    (hpc : s.pc p = .replacing content) (hlonger : s.lines ≤ countAccountingContentLines content) :
    Inv ((s.replace content).goto p .replaced) := by
  have hp : (s.pc p).writes = true := by
    rw [hpc]
    rfl
  have hothers : ∀ q, q ≠ p → (s.pc q).writes = false := by
    intro q hqp
    rw [← Bool.not_eq_true]
    intro hq
    exact hqp (h.only_writer hp (h.writer q hq))
  have hpcs : ((s.replace content).goto p .replaced).pc = Function.update s.pc p .replaced := rfl
  constructor
  · intro q
    rw [hpcs]
    by_cases hqp : q = p
    · subst hqp
      rw [Function.update_self]
      trivial
    · rw [Function.update_of_ne hqp]
      exact ((h.known q).replace (hothers q hqp) hlonger).frame rfl rfl fun _ => rfl
  · intro q hq
    rw [hpcs] at hq
    by_cases hqp : q = p
    · subst hqp
      exact h.writer q hp
    · rw [Function.update_of_ne hqp, hothers q hqp] at hq
      cases hq

/-- A text is fresh exactly when it is not shorter than the file that it replaces. -/
theorem fresh_iff {s : Store ι} (h : Inv s) {p : ι} {content : String}
    (hpc : s.pc p = .replacing content) :
    s.Fresh (.next p) ↔ s.lines ≤ countAccountingContentLines content := by
  have hknown := h.known p
  rw [hpc] at hknown
  unfold Fresh fresh
  simp only [hpc, List.all_eq_true, decide_eq_true_eq]
  rcases hknown.1 with ⟨hnone, hle⟩ | ⟨hall, d, hd, hlast⟩
  · rw [hnone]
    exact iff_of_true nofun hle
  · constructor
    · intro hfresh
      rw [hlast]
      exact hfresh d hd
    · intro hle d hd
      exact (hall d hd).trans hle

/-- A step makes the file no shorter exactly when it is fresh. -/
theorem lines_le_iff {s t : Store ι} {a : Action ι} (h : Inv s) (hstep : step s a = some t) :
    s.lines ≤ t.lines ↔ s.Fresh a := by
  rcases step_cases h hstep with ⟨hdaily, -, hfresh⟩ | ⟨p, content, rfl, hpc, rfl⟩
  · refine iff_of_true ?_ hfresh
    unfold lines
    rw [hdaily]
  · exact (fresh_iff h hpc).symm

theorem inv_step {s t : Store ι} {a : Action ι} (h : Inv s) (hle : s.lines ≤ t.lines)
    (hstep : step s a = some t) : Inv t := by
  rcases step_cases h hstep with ⟨-, ht, -⟩ | ⟨p, content, rfl, hpc, rfl⟩
  · exact ht
  · exact (inv_replace h hpc hle).noteChange _

theorem inv_start (daily tmp : Option String) : Inv (start daily tmp : Store ι) := by
  refine ⟨fun p => trivial, ?_⟩
  intro p hp
  cases hp

/-! ## Calls that are refused -/

/-- A point of a call before it has replaced the file, or after it was refused. -/
def Early (c : Pc) : Prop :=
  match c with
  | .idle last => ∃ o ∈ last, o.Refused
  | .replaced => False
  | _ => True

/-- The bookkeeping is right: a call that is not past its replacement has changed nothing. -/
def Noted (s : Store ι) : Prop :=
  ∀ p, Early (s.pc p) → s.changed p = false

theorem not_early {o : Outcome} (h : ¬ o.Refused) : ¬ Early (.idle (some o)) := by
  rintro ⟨o', ho, hrefused⟩
  cases ho
  exact h hrefused

/-- A step of a call that is early afterwards was early before and leaves the file alone. -/
theorem proceed_early {s t : Store ι} {p : ι} {c : Pc} (h : s.proceed p c = some t) :
    t.changed = s.changed ∧
      ∃ d, t.pc = Function.update s.pc p d ∧ (Early d → Early c ∧ t.daily = s.daily) := by
  cases c <;> simp only [proceed] at h
  case idle => cases h
  case replacing =>
    split at h <;> cases h
    · exact ⟨rfl, _, rfl, fun hd => absurd hd (not_early id)⟩
    · exact ⟨rfl, _, rfl, fun hd => hd.elim⟩
  case replaced =>
    cases h
    exact ⟨rfl, _, rfl, fun hd => absurd hd (not_early Bool.noConfusion)⟩
  all_goals
    try split at h
    all_goals
      cases h
      try exact ⟨rfl, _, rfl, fun _ => ⟨trivial, rfl⟩⟩

/-- The same of every step of the system. -/
theorem advance_early {s t : Store ι} {a : Action ι} (h : s.advance a = some t) :
    t.changed = s.changed ∧ ∃ d, t.pc = Function.update s.pc a.process d ∧
      (Early d → t.daily = s.daily ∧ ((∃ p content, a = .call p content) ∨ Early (s.pc a.process))) := by
  cases a with
  | call p content =>
      simp only [advance] at h
      split at h
      · split_ifs at h <;> cases h <;>
          exact ⟨rfl, _, rfl, fun _ => ⟨rfl, Or.inl ⟨p, content, rfl⟩⟩⟩
      · cases h
  | next p =>
      obtain ⟨hchanged, d, hpc, hearly⟩ := proceed_early h
      exact ⟨hchanged, d, hpc, fun hd => ⟨(hearly hd).2, Or.inr (hearly hd).1⟩⟩
  | fail p part =>
      simp only [advance] at h
      split at h <;> cases h <;>
        exact ⟨rfl, _, rfl, fun hd => absurd hd (not_early id)⟩

theorem noted_step {s t : Store ι} {a : Action ι} (h : Noted s) (hstep : step s a = some t) :
    Noted t := by
  obtain ⟨u, hu, rfl⟩ := Option.map_eq_some_iff.mp hstep
  obtain ⟨-, d, hpc, hearly⟩ := advance_early hu
  have hpcs : (s.noteChange a u).pc = Function.update s.pc a.process d := hpc
  intro q hq
  rw [hpcs] at hq
  unfold noteChange
  dsimp only
  by_cases hqp : q = a.process
  · subst hqp
    rw [Function.update_self] at hq
    obtain ⟨hdaily, hbefore⟩ := hearly hq
    rw [Function.update_self, decide_eq_false (not_not_intro hdaily), Bool.or_false]
    -- a call starts with nothing noted; in any other step the call was early before
    rcases hbefore with ⟨p, content, rfl⟩ | hbefore
    · rfl
    · cases a with
      | call p content => rfl
      | next p => exact h p hbefore
      | fail p part => exact h p hbefore
  · rw [Function.update_of_ne hqp] at hq ⊢
    exact h q hq

end Store

/-! ## Runs -/

section Runs

variable {ι : Type*} [DecidableEq ι]

open Store

/-- The file never gets shorter along the run. -/
def NeverShrinks (s : Store ι) (as : List (Action ι)) : Prop :=
  ∀ n m t u, n ≤ m → exec step s (as.take n) = some t → exec step s (as.take m) = some u →
    t.lines ≤ u.lines

/-- Every call that has ended with a shrink error or with `False` has left the file as it was. -/
def RefusedUnchanged (s : Store ι) : Prop :=
  ∀ p o, s.pc p = .idle (some o) → o.Refused → s.changed p = false

theorem noted_run {daily tmp : Option String} {as : List (Action ι)} {s : Store ι}
    (hrun : exec step (start daily tmp) as = some s) : Noted s := by
  refine exec_invariant_of_step (fun s a t => noted_step) as _ s ?_ hrun
  intro p _
  rfl

/-- **Lines of the daily file.**  In any run of calls, a refused call leaves the file as it was, and the file
never gets shorter exactly when every text put in its place is as long as all that were stored since its
call looked. -/
theorem persist_lines_iff (daily tmp : Option String) (as : List (Action ι)) :
    (NeverShrinks (start daily tmp) as ∧
      ∀ n t, exec step (start daily tmp) (as.take n) = some t → RefusedUnchanged t) ↔
    Respects step Fresh (start daily tmp) as := by
  have hiff : NeverShrinks (start daily tmp) as ↔ Respects step Fresh (start daily tmp) as := by
    refine exec_preorder_iff (R := fun s t => s.lines ≤ t.lines) (I := Inv) (fun s => Nat.le_refl s.lines)
      (fun hst htu => hst.trans htu) (fun s a t hs hstep => lines_le_iff hs hstep)
      (fun s a t hs hle hstep => inv_step hs hle hstep) ?_ as (start daily tmp) (inv_start daily tmp)
    intro s a hnone
    cases a with
    | call p content => rfl
    | fail p part => rfl
    | next p =>
        apply fresh_of_pc
        intro content hpc
        simp only [step, advance, hpc, proceed, Option.map_eq_none_iff] at hnone
        split at hnone <;> cases hnone
  rw [← hiff]
  refine and_iff_left ?_
  intro n t hrun p o hpc hrefused
  refine noted_run hrun p ?_
  rw [hpc]
  exact ⟨o, rfl, hrefused⟩

end Runs

/-! ## A run that makes the file shorter -/

/-- The steps of a call up to the point where it is about to take the write lock, when there is a file. -/
def checked (p : Bool) (content : String) : List (Action Bool) :=
  [.call p content, .next p, .next p, .next p, .next p, .next p]

/-- The steps of a call from the write lock on. -/
def stored (p : Bool) : List (Action Bool) :=
  [.next p, .next p, .next p, .next p, .next p]

/-- A text of two lines and one of three are checked against a file of two; the longer is stored first. -/
theorem not_neverShrinks :
    ¬ NeverShrinks (Store.start (some "h\na\n") none)
      (checked false "h\nb\n" ++ checked true "h\na\nc\n" ++ stored true ++ stored false) := by
  intro h
  have hfirst : ((exec Store.step (Store.start (some "h\na\n") none)
      ((checked false "h\nb\n" ++ checked true "h\na\nc\n" ++ stored true ++ stored false).take 17)).map
        Store.lines) = some 3 := by
    decide +kernel
  have hlast : ((exec Store.step (Store.start (some "h\na\n") none)
      ((checked false "h\nb\n" ++ checked true "h\na\nc\n" ++ stored true ++ stored false).take 22)).map
        Store.lines) = some 2 := by
    decide +kernel
  obtain ⟨t, ht, hlines⟩ := Option.map_eq_some_iff.mp hfirst
  obtain ⟨u, hu, hshorter⟩ := Option.map_eq_some_iff.mp hlast
  have hle := h 17 22 t u (by decide) ht hu
  omega

end AccountingFile
