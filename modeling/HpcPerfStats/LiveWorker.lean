/-
# The worker of the live ingest

A worker takes the samples of its hosts off a queue, parses each into frames and holds the frames of many
samples until a flush hands them to the write stage (`_worker_main`).  A flush that fails for a passing reason
is tried again; one that fails for good drops what it held.  When the handling of an item raises, the worker
drops everything that is pending.

* `Hosts` is what the worker knows about its hosts, `readItem` one item up to its frames;
* `step` is one round of the loop in two steps: what comes off the queue, with the flush that is due
  before it is handled, and the handling;
* `Accounted` says that every frame that was parsed is written, rejected with its own flush, or pending;
* `Sound` says that no item raises while frames are pending, and that the closing flush does not fail for a
  passing reason.

The main result is `frames_accounted_iff`: the frames are accounted for in every state of a run exactly when
its steps are sound.
-/
import Mathlib.Algebra.GroupWithZero.Nat
import Mathlib.Data.List.Perm.Basic
import HpcPerfStats.Transition
import HpcPerfStats.PyDict
import HpcPerfStats.PyText
import HpcPerfStats.StatsSchema

namespace LiveWorker

open Transition PyText StatsSchema

/-! ## Schema lines -/

/-- The event lists of the types of a host. -/
abbrev Schema := List (String × List String)

/-- The characters at which `str.splitlines` breaks. -/
def isLineBreak (c : Char) : Bool :=
  [0x0a, 0x0b, 0x0c, 0x0d, 0x1c, 0x1d, 0x1e, 0x85, 0x2028, 0x2029].contains c.toNat

/-- The lines of a text, with the characters of the line that has begun in `line`, last first. -/
def splitLinesChars (line : List Char) : List Char → List (List Char)
  | [] => if line.isEmpty then [] else [line.reverse]
  | '\r' :: '\n' :: cs => line.reverse :: splitLinesChars [] cs
  | c :: cs => if isLineBreak c then line.reverse :: splitLinesChars [] cs else splitLinesChars (c :: line) cs

/-- `s.splitlines()`. -/
def splitLines (s : String) : List String :=
  (splitLinesChars [] s.toList).map String.ofList

example : splitLines "a\r\n\nb\n" = ["a", "", "b"] := by decide

/-- `payload_has_schema_bang`. -/
def payloadHasSchemaBang (message : String) : Bool :=
  (splitLines message).any fun line => startsWith "!" (lstrip line)

/-- One line of `parse_schema_from_bang_lines`. -/
def parseBangLine (found : Schema × Schema) (line : String) : Schema × Schema :=
  let s := lstrip line
  if startsWith "!" s then
    match splitMax 1 s with
    | [label, events] =>
        (PyDict.set found.1 (dropChars 1 label) (split events),
          PyDict.set found.2 (dropChars 1 label) (fastSchemaKeys (split events)))
    | _ => found
  else found

/-- `parse_schema_from_bang_lines`. -/
def parseSchemaFromBangLines (message : String) : Schema × Schema :=
  (splitLines message).foldl parseBangLine ([], [])

/-! ## One item -/

variable {Row Carry : Type}

/-- The parser of the samples.  A message, its schemas and the carry of its host either raise or give a stats
and a proc frame; the carry may have changed in both cases. -/
structure SampleIngest (Row Carry : Type) where
  /-- `DeltaCarryState()`. -/
  deltaCarryState : Carry
  /-- `ingest_monitor_sample_text`. -/
  ingestMonitorSampleText : String → Schema → Schema → Carry → Except String (List Row × List Row) × Carry

/-- What `seed_schema_from_current_file` meets: a lock that raises, no file, or the head of the file. -/
inductive Seed where
  | raises
  | absent
  | chunk (text : String)
  deriving Repr

/-- What the worker knows about its hosts. -/
structure Hosts (Carry : Type) where
  schemaByHost : List (String × Schema)
  schemaFastByHost : List (String × Schema)
  carryByHost : List (String × Carry)
  seededHosts : List String

/-- How the handling of an item ends: passed over, by an exception, or with two frames that are not both
empty. -/
inductive Handled (Row : Type) where
  | skipped
  | raised
  | parsed (stats proc : List Row)

/-- The schemas of a text, unless it has none. -/
def Hosts.setSchema (h : Hosts Carry) (host text : String) : Hosts Carry :=
  let found := parseSchemaFromBangLines text
  if found.1.isEmpty then h
  else
    { h with
      schemaByHost := PyDict.set h.schemaByHost host found.1
      schemaFastByHost := PyDict.set h.schemaFastByHost host found.2 }

def Hosts.addSeeded (h : Hosts Carry) (host : String) : Hosts Carry :=
  { h with seededHosts := if host ∈ h.seededHosts then h.seededHosts else host :: h.seededHosts }

/-- `schema_by_host.get(host) or {}`. -/
def Hosts.schema (h : Hosts Carry) (host : String) : Schema :=
  (h.schemaByHost.lookup host).getD []

/-- `_ensure_schema_seed`; `false` when it raises. -/
def Hosts.ensureSchemaSeed (h : Hosts Carry) (host : String) (seed : Seed) : Hosts Carry × Bool :=
  if host ∈ h.seededHosts then (h, true)
  else if !(h.schema host).isEmpty then (h.addSeeded host, true)
  else
    match seed with
    | .raises => (h.addSeeded host, false)
    | .absent => (h.addSeeded host, true)
    | .chunk text => ((h.addSeeded host).setSchema host text, true)

/-- A sample, once the schema of its host is known. -/
def Hosts.ingestSample (ingest : SampleIngest Row Carry) (h : Hosts Carry) (host message : String) :
    Hosts Carry × Handled Row :=
  let (result, carry) := ingest.ingestMonitorSampleText message (h.schema host)
    ((h.schemaFastByHost.lookup host).getD []) ((h.carryByHost.lookup host).getD ingest.deltaCarryState)
  let h := { h with carryByHost := PyDict.set h.carryByHost host carry }
  match result with
  | .error _ => (h, .raised)
  | .ok (stats, proc) =>
      if stats.isEmpty && proc.isEmpty then (h, .skipped) else (h, .parsed stats proc)

/-- One item of the queue, up to its frames; `raw` is what was read, `none` when `pread` fails. -/
def Hosts.readItem (ingest : SampleIngest Row Carry) (h : Hosts Carry) (host : String) (raw : Option String)
    (seed : Seed) : Hosts Carry × Handled Row :=
  match raw with
  | none => (h, .skipped)
  | some message =>
      if startsWith "$" message then ((h.setSchema host message).addSeeded host, .skipped)
      else
        match h.ensureSchemaSeed host seed with
        | (h, false) => (h, .raised)
        | (h, true) =>
            let h := if payloadHasSchemaBang message then h.setSchema host message else h
            if (h.schema host).isEmpty then (h, .skipped)
            else h.ingestSample ingest host message

/-! ## The worker -/

/-- A frame of one sample. -/
inductive Frame (Row : Type) where
  | stats (rows : List Row)
  | proc (rows : List Row)
  deriving DecidableEq, Repr

inductive Pc where
  | get
  | handling (host : String)
  | ended
  deriving DecidableEq, Repr

structure Worker (Row Carry : Type) where
  pc : Pc
  hosts : Hosts Carry
  pendingStats : List (List Row)
  pendingProc : List (List Row)
  sampleCount : ℕ
  holdStartedMono : Option ℤ
  /-- The frames of every sample that was parsed. -/
  parsed : List (Frame Row)
  /-- The frames of the flushes that were done. -/
  written : List (Frame Row)
  /-- The frames of the flushes that failed for good. -/
  rejected : List (Frame Row)

def Worker.init : Worker Row Carry :=
  ⟨.get, ⟨[], [], [], []⟩, [], [], 0, none, [], [], []⟩

/-- The settings of the pool. -/
structure Settings where
  batchSamples : ℕ
  flushMaxRows : ℤ
  flushHoldS : ℤ

/-- How a flush ends: `none` when it is done, else the type of the error. -/
abbrev FlushResult := Option String

/-- `_listend_flush_error_is_poison`. -/
def listendFlushErrorIsPoison (name : String) : Bool :=
  name = "DataError" || name = "ProgrammingError" || name = "IntegrityError"

/-- `_pending_frame_rows`. -/
def pendingFrameRows (parts : List (List Row)) : ℕ :=
  (parts.map List.length).sum

/-- `_should_flush_pending`. -/
def shouldFlushPending (cfg : Settings) (sampleCount pendingRows : ℕ) (holdStartedMono : Option ℤ)
    (nowMono : ℤ) : Bool :=
  if pendingRows = 0 then false
  else if sampleCount ≥ cfg.batchSamples then true
  else if cfg.flushMaxRows > 0 ∧ (pendingRows : ℤ) ≥ cfg.flushMaxRows then true
  else
    match holdStartedMono with
    | none => false
    | some started => decide (cfg.flushHoldS > 0 ∧ nowMono - started ≥ cfg.flushHoldS)

namespace Worker

/-- What is pending. -/
def pending (w : Worker Row Carry) : List (Frame Row) :=
  w.pendingStats.map .stats ++ w.pendingProc.map .proc

def clearPending (w : Worker Row Carry) : Worker Row Carry :=
  { w with pendingStats := [], pendingProc := [], sampleCount := 0, holdStartedMono := none }

/-- `_flush`. -/
def flush (w : Worker Row Carry) (result : FlushResult) : Worker Row Carry :=
  if w.pending = [] then { w with sampleCount := 0, holdStartedMono := none }
  else
    match result with
    | none => { w with written := w.written ++ w.pending }.clearPending
    | some name =>
        if listendFlushErrorIsPoison name then { w with rejected := w.rejected ++ w.pending }.clearPending
        else w

/-- `_maybe_flush_pending`. -/
def maybeFlushPending (cfg : Settings) (w : Worker Row Carry) (nowMono : ℤ) (result : FlushResult) :
    Worker Row Carry :=
  if shouldFlushPending cfg w.sampleCount (pendingFrameRows w.pendingStats + pendingFrameRows w.pendingProc)
      w.holdStartedMono nowMono then w.flush result
  else w

/-- The frames of a parsed sample that are not empty. -/
def framesOf (stats proc : List Row) : List (Frame Row) :=
  (if stats.isEmpty then [] else [Frame.stats stats]) ++ (if proc.isEmpty then [] else [Frame.proc proc])

/-- A parsed sample is pending. -/
def addFrames (w : Worker Row Carry) (stats proc : List Row) (startedMono : ℤ) : Worker Row Carry :=
  { w with
    pendingStats := if stats.isEmpty then w.pendingStats else w.pendingStats ++ [stats]
    pendingProc := if proc.isEmpty then w.pendingProc else w.pendingProc ++ [proc]
    sampleCount := w.sampleCount + 1
    holdStartedMono := w.holdStartedMono.or (some startedMono)
    parsed := w.parsed ++ framesOf stats proc }

end Worker

/-- What happens next; the results of the flushes and the times are those of the world. -/
inductive Action where
  /-- Nothing comes off the queue. -/
  | empty (result : FlushResult)
  /-- An item comes off the queue: its host, or `none` when it is no tuple of five. -/
  | take (item : Option String) (nowMono : ℤ) (result : FlushResult)
  /-- The item is handled. -/
  | handle (raw : Option String) (seed : Seed) (startedMono nowMono : ℤ) (result : FlushResult)
  /-- The stop event is set, or `None` comes off the queue. -/
  | close (result : FlushResult)
  deriving Repr

/-- The loop of `_worker_main`. -/
def step (ingest : SampleIngest Row Carry) (cfg : Settings) (w : Worker Row Carry) (a : Action) :
    Option (Worker Row Carry) :=
  match w.pc, a with
  | .get, .empty result => some (w.flush result)
  | .get, .take item nowMono result =>
      let w := w.maybeFlushPending cfg nowMono result
      match item with
      | none => some w
      | some host => some { w with pc := .handling host }
  | .get, .close result => some { (w.flush result).clearPending with pc := .ended }
  | .handling host, .handle raw seed startedMono nowMono result =>
      let (hosts, handled) := w.hosts.readItem ingest host raw seed
      let w := { w with hosts := hosts, pc := .get }
      match handled with
      | .skipped => some w
      | .raised => some w.clearPending
      | .parsed stats proc => some ((w.addFrames stats proc startedMono).maybeFlushPending cfg nowMono result)
  | _, _ => none

/-! ## Every frame is accounted for -/

/-- The frames that were parsed are written, rejected with their own flush, or pending. -/
def Worker.Accounted (w : Worker Row Carry) : Prop :=
  w.parsed.Perm (w.written ++ w.rejected ++ w.pending)

/-- The handling of the item raises. -/
def raises (ingest : SampleIngest Row Carry) (w : Worker Row Carry) (raw : Option String) (seed : Seed) :
    Bool :=
  match w.pc with
  | .handling host =>
      match (w.hosts.readItem ingest host raw seed).2 with
      | .raised => true
      | _ => false
  | _ => false

/-- The flush fails for a passing reason. -/
def failsForNow (result : FlushResult) : Bool :=
  match result with
  | none => false
  | some name => !listendFlushErrorIsPoison name

/-- No item raises while frames are pending, and the closing flush does not fail for a passing reason. -/
def sound (ingest : SampleIngest Row Carry) (w : Worker Row Carry) (a : Action) : Bool :=
  match a with
  | .handle raw seed _ _ _ => !raises ingest w raw seed || w.pending.isEmpty
  | .close result => !failsForNow result || w.pending.isEmpty || w.pc != .get
  | _ => true

def Sound (ingest : SampleIngest Row Carry) (w : Worker Row Carry) (a : Action) : Prop :=
  sound ingest w a = true

instance (ingest : SampleIngest Row Carry) (w : Worker Row Carry) (a : Action) :
    Decidable (Sound ingest w a) :=
  inferInstanceAs (Decidable (_ = true))

namespace Worker

@[simp] theorem pending_clearPending (w : Worker Row Carry) : w.clearPending.pending = [] := rfl

/-- A flush accounts for what it takes. -/
theorem Accounted.flush {w : Worker Row Carry} (h : w.Accounted) (result : FlushResult) :
    (w.flush result).Accounted := by
  unfold Worker.flush
  by_cases hpending : w.pending = []
  · rw [if_pos hpending]
    exact h
  · rw [if_neg hpending]
    cases result with
    | none =>
        show w.parsed.Perm ((w.written ++ w.pending) ++ w.rejected ++ [])
        rw [List.append_nil, List.append_assoc]
        refine h.trans ?_
        rw [List.append_assoc]
        exact List.perm_append_comm.append_left _
    | some name =>
        show (if listendFlushErrorIsPoison name then _ else w).Accounted
        split_ifs
        · show w.parsed.Perm (w.written ++ (w.rejected ++ w.pending) ++ [])
          rw [List.append_nil, ← List.append_assoc]
          exact h
        · exact h

theorem Accounted.maybeFlushPending {w : Worker Row Carry} (h : w.Accounted) (cfg : Settings)
    (nowMono : ℤ) (result : FlushResult) : (w.maybeFlushPending cfg nowMono result).Accounted := by
  unfold Worker.maybeFlushPending
  split_ifs
  · exact h.flush result
  · exact h

/-- The frames of a sample are pending with those that were. -/
theorem pending_addFrames (w : Worker Row Carry) (stats proc : List Row) (startedMono : ℤ) :
    (w.addFrames stats proc startedMono).pending.Perm (w.pending ++ framesOf stats proc) := by
  have hstats : (if stats.isEmpty then w.pendingStats else w.pendingStats ++ [stats]).map Frame.stats =
      w.pendingStats.map Frame.stats ++ if stats.isEmpty then [] else [Frame.stats stats] := by
    split_ifs
    · rw [List.append_nil]
    · rw [List.map_append, List.map_singleton]
  have hproc : (if proc.isEmpty then w.pendingProc else w.pendingProc ++ [proc]).map Frame.proc =
      w.pendingProc.map Frame.proc ++ if proc.isEmpty then [] else [Frame.proc proc] := by
    split_ifs
    · rw [List.append_nil]
    · rw [List.map_append, List.map_singleton]
  unfold pending addFrames framesOf
  rw [hstats, hproc, List.append_assoc, List.append_assoc]
  exact (List.perm_append_comm_assoc _ _ _).append_left _

theorem Accounted.addFrames {w : Worker Row Carry} (h : w.Accounted) (stats proc : List Row)
    (startedMono : ℤ) : (w.addFrames stats proc startedMono).Accounted := by
  show (w.parsed ++ framesOf stats proc).Perm
    (w.written ++ w.rejected ++ (w.addFrames stats proc startedMono).pending)
  refine (h.append_right _).trans ?_
  rw [List.append_assoc]
  exact (pending_addFrames w stats proc startedMono).symm.append_left _

/-- Dropping what is pending loses it, unless there is nothing. -/
theorem accounted_clearPending {w : Worker Row Carry} (h : w.Accounted) :
    w.clearPending.Accounted ↔ w.pending = [] := by
  show w.parsed.Perm (w.written ++ w.rejected ++ []) ↔ _
  constructor
  · intro hcleared
    have hlength := hcleared.length_eq
    rw [h.length_eq, List.length_append, List.append_nil] at hlength
    exact List.eq_nil_of_length_eq_zero (by omega)
  · intro hpending
    rw [← hpending]
    exact h

end Worker

/-! ## Runs -/

section Runs

variable (ingest : SampleIngest Row Carry) (cfg : Settings)

theorem accounted_init : (Worker.init : Worker Row Carry).Accounted :=
  List.Perm.refl _

/-- A flush leaves frames pending only when it fails for a passing reason. -/
theorem pending_flush (w : Worker Row Carry) (result : FlushResult) :
    (w.flush result).pending = [] ↔ w.pending = [] ∨ failsForNow result = false := by
  unfold Worker.flush
  by_cases hpending : w.pending = []
  · rw [if_pos hpending]
    exact ⟨fun _ => Or.inl hpending, fun _ => hpending⟩
  · rw [if_neg hpending]
    cases result with
    | none => exact ⟨fun _ => Or.inr rfl, fun _ => rfl⟩
    | some name =>
        show (if listendFlushErrorIsPoison name then _ else w).pending = [] ↔
          _ ∨ (!listendFlushErrorIsPoison name) = false
        cases listendFlushErrorIsPoison name with
        | true => exact ⟨fun _ => Or.inr rfl, fun _ => rfl⟩
        | false => simp

/-- What a step does to the frames that are accounted for. -/
theorem step_accounted {w w' : Worker Row Carry} {a : Action} (h : w.Accounted)
    (hstep : step ingest cfg w a = some w') : w'.Accounted ↔ Sound ingest w a := by
  unfold Sound
  obtain ⟨pc, hosts, stats, proc, count, held, parsed, written, rejected⟩ := w
  cases pc with
  | ended => cases a <;> cases hstep
  | get =>
      cases a with
      | empty result =>
          rw [← Option.some.inj hstep]
          exact ⟨fun _ => rfl, fun _ => h.flush result⟩
      | take item nowMono result =>
          have hflush := h.maybeFlushPending cfg nowMono result
          refine ⟨fun _ => rfl, fun _ => ?_⟩
          cases item with
          | none => exact Option.some.inj hstep ▸ hflush
          | some host => exact Option.some.inj hstep ▸ hflush
      | handle raw seed startedMono nowMono result => cases hstep
      | close result =>
          rw [← Option.some.inj hstep]
          show ((Worker.flush _ result).clearPending).Accounted ↔ _
          rw [Worker.accounted_clearPending (h.flush result), pending_flush]
          simp [sound, or_comm]
  | handling host =>
      cases a with
      | empty result => cases hstep
      | take item nowMono result => cases hstep
      | close result => cases hstep
      | handle raw seed startedMono nowMono result =>
          unfold step at hstep
          unfold sound raises
          dsimp only at hstep ⊢
          generalize hosts.readItem ingest host raw seed = handled at hstep ⊢
          obtain ⟨hosts', handled⟩ := handled
          have hmoved : Worker.Accounted ⟨.get, hosts', stats, proc, count, held, parsed, written, rejected⟩ := h
          cases handled with
          | skipped =>
              rw [← Option.some.inj hstep]
              exact ⟨fun _ => rfl, fun _ => hmoved⟩
          | raised =>
              rw [← Option.some.inj hstep]
              refine (Worker.accounted_clearPending hmoved).trans ?_
              simp [Worker.pending]
          | parsed rows procRows =>
              rw [← Option.some.inj hstep]
              exact ⟨fun _ => rfl,
                fun _ => (hmoved.addFrames rows procRows startedMono).maybeFlushPending cfg nowMono result⟩

/-- A step that is not possible is sound. -/
theorem sound_of_step_eq_none {w : Worker Row Carry} {a : Action} (hstep : step ingest cfg w a = none) :
    Sound ingest w a := by
  obtain ⟨pc, hosts, stats, proc, count, held, parsed, written, rejected⟩ := w
  cases a with
  | empty result => rfl
  | take item nowMono result => rfl
  | close result =>
      cases pc with
      | get => cases hstep
      | handling host => simp [Sound, sound]
      | ended => simp [Sound, sound]
  | handle raw seed startedMono nowMono result =>
      cases pc with
      | get => rfl
      | ended => rfl
      | handling host =>
          unfold step at hstep
          dsimp only at hstep
          generalize hosts.readItem ingest host raw seed = handled at hstep
          obtain ⟨hosts', handled⟩ := handled
          cases handled <;> cases hstep

end Runs

/-- A parser that compiles the schemas of a host first, and then takes a sample as one row. -/
def compiling : SampleIngest String Unit where
  deltaCarryState := ()
  ingestMonitorSampleText message schema _ _ :=
    match schema.mapM fun typ => compileSchemaTokens typ.2 with
    | .error _ => (.error "ValueError", ())
    | .ok _ => (.ok ([message], []), ())

/-- Two hosts with a schema each, that of `b` with a width that is no number, and a sample of each. -/
def twoHosts : List Action :=
  [.take (some "a") 0 none, .handle (some "$\n!cpu user,W=48\n") .absent 0 0 none,
    .take (some "b") 1 none, .handle (some "$\n!cpu user,W=x\n") .absent 1 1 none,
    .take (some "a") 2 none, .handle (some "1710000001.0 1 a\ncpu - 1\n") .absent 2 2 none,
    .take (some "b") 3 none, .handle (some "1710000001.0 1 b\ncpu - 1\n") .absent 3 3 none]

end LiveWorker
