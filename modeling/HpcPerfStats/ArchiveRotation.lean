/-
# The per-host archive of the listener

`append_monitor_payload_to_archive` of `listend.py` keeps one directory per host.  A sample goes to the
end of the file `current`, through a descriptor that the thread keeps open between samples.  A payload
that starts with `$` rotates: `current` is unlinked once a timestamp name links to its inode, a new
`current` is written, and the new file is linked to a timestamp name of its own.

Here the directory of one host is modelled down to its inodes, and a call down to its system calls:

* `State` has the files by inode, what `current` and the timestamp names refer to, the lock sidecar, the
  cached link, the kept descriptors of the threads and the call under way;
* `step` performs one action: a call begins, goes on by one system call, raises, or the process dies;
  between them a thread may leave the host and other processes may open or remove the sidecar.

A file is a list of segments, the whole payloads and the parts that a failed write left behind, so that
`State.log` can be compared with what the files hold.
-/
import HpcPerfStats.Transition
import HpcPerfStats.PyText
import Mathlib.Data.List.Basic
import Mathlib.Logic.Function.Basic

namespace ArchiveRotation

/-! ## Files -/

/-- What one write left in a file: a whole payload, or a part of one. -/
inductive Segment where
  | payload (text : List Char)
  | fragment (text : List Char)
  deriving DecidableEq

def Segment.text : Segment → List Char
  | .payload text => text
  | .fragment text => text

/-- The payload, when the segment is a whole one. -/
def Segment.payload? : Segment → Option (List Char)
  | .payload text => some text
  | .fragment _ => none

/-- The payloads of a file, in order. -/
def payloads (file : List Segment) : List (List Char) :=
  file.filterMap Segment.payload?

/-- The bytes of a file. -/
def fileText (file : List Segment) : List Char :=
  file.flatMap Segment.text

/-! ## Timestamps -/

/-- `_MIN_PLAUSIBLE_UNIX_SECONDS`. -/
def minPlausibleUnixSeconds : ℤ := 1000000000

/-- `_DIGIT_EPOCH_NAME_MAX_ATTEMPTS`. -/
def digitEpochNameMaxAttempts : ℕ := 10000

/-- `_parse_plausible_unix_seconds`. -/
def parsePlausibleUnixSeconds (token : String) : Option ℤ :=
  match (PyText.pyFloat token).bind PyText.PyFloat.toInt with
  | none => none
  | some ts => if ts < minPlausibleUnixSeconds then none else some ts

/-- One line of the scan: the timestamp that the line starts with, if it is plausible. -/
def lineSeconds (line : List Char) : Option ℤ :=
  let s := PyText.lstrip (String.ofList line)
  match s.toList, PyText.splitMax 1 s with
  | c :: _, token :: _ => if c.isDigit then parsePlausibleUnixSeconds token else none
  | _, _ => none

/-- `_first_plausible_unix_seconds_from_open_file`.  Lines end at either newline character. -/
def firstPlausibleUnixSeconds (text : List Char) : Option ℤ :=
  (text.splitOnP fun c => c = '\n' || c = '\r').findSome? lineSeconds

/-! ## The state of a host -/

/-- The kept descriptors of a thread: `data_fd` on a file, `lock_fd` on a sidecar. -/
structure Sticky where
  data : ℕ
  lock : ℕ
  deriving DecidableEq

/-- Where the call under way stands, named by the system call that comes next.  A sample opens the file,
takes the sidecar and appends; a rotation takes the lock and then goes through the other places. -/
inductive Call where
  | idle
  | takeSidecar (thread : ℕ) (msg : List Char) (data : ℕ)
  | append (thread : ℕ) (msg : List Char) (data : ℕ)
  | takeLock (msg : List Char) (wall : ℤ)
  | check (msg : List Char) (wall : ℤ)
  | ensure (msg : List Char) (wall : ℤ)
  | recheck (msg : List Char) (wall : ℤ)
  | unlink (msg : List Char) (wall : ℤ)
  | create (msg : List Char) (wall : ℤ)
  | write (msg : List Char) (wall : ℤ) (data : ℕ)
  | link (wall : ℤ)
  deriving DecidableEq

/-- The archive directory of a host with what the listener remembers about it.  Inodes of files are
positions in `files`; inodes of sidecars are numbered apart. -/
structure State where
  files : List (List Segment)
  current : Option ℕ
  epochs : List (String × ℕ)
  sidecar : Option ℕ
  nextLock : ℕ
  cache : Option (String × ℕ)
  sticky : ℕ → Option Sticky
  call : Call
  log : List (List Char)

namespace State

/-- The file with an inode. -/
def file (s : State) (i : ℕ) : List Segment :=
  s.files.getD i []

/-- One more segment at the end of a file. -/
def appendTo (s : State) (i : ℕ) (seg : Segment) : State :=
  { s with files := s.files.modify i (· ++ [seg]) }

/-- A file with a new inode becomes `current`. -/
def createCurrent (s : State) : State :=
  { s with files := s.files ++ [[]], current := some s.files.length }

/-- `open(current_path, "ab")`. -/
def openAppend (s : State) : State × ℕ :=
  match s.current with
  | some i => (s, i)
  | none => (s.createCurrent, s.files.length)

/-- `open(current_path, "wb")`: an existing file would be truncated. -/
def openTruncate (s : State) : State × ℕ :=
  match s.current with
  | some i => ({ s with files := s.files.set i [] }, i)
  | none => (s.createCurrent, s.files.length)

/-- Open the sidecar, creating it when it is missing. -/
def openSidecar (s : State) : State × ℕ :=
  match s.sidecar with
  | some l => (s, l)
  | none => ({ s with sidecar := some s.nextLock, nextLock := s.nextLock + 1 }, s.nextLock)

/-- `_release_sticky_archive_writer`: with `unlink_sidecar` the sidecar goes too, whatever its inode. -/
def releaseSticky (s : State) (thread : ℕ) (unlinkSidecar : Bool) : State :=
  match s.sticky thread with
  | none => s
  | some _ =>
      { s with
        sticky := Function.update s.sticky thread none
        sidecar := if unlinkSidecar then none else s.sidecar }

/-- The test at the head of `_sticky_append_sample_bytes`: the kept descriptors are used only while the
path of the sidecar still names the inode that is kept. -/
def kept (s : State) (thread : ℕ) : Option ℕ :=
  match s.sticky thread with
  | none => none
  | some st => if s.sidecar = some st.lock then some st.data else none

/-! ## Links -/

/-- `_remember_digit_epoch_link`. -/
def rememberDigitEpochLink (s : State) (name : String) : State :=
  match s.epochs.lookup name with
  | none => s
  | some ino => { s with cache := some (name, ino) }

/-- The cached link still names the inode of `current`. -/
def cacheMatches (s : State) (cur : ℕ) : Bool :=
  match s.cache with
  | none => false
  | some (name, ino) => s.epochs.lookup name == some cur && ino == cur

/-- `_current_is_hardlinked_to_digit_epoch`: the cached link first, then a scan of the directory. -/
def currentIsHardlinkedToDigitEpoch (s : State) (cur : ℕ) : Bool × State :=
  if s.cacheMatches cur then (true, s)
  else
    match s.epochs.find? (fun e => e.2 = cur) with
    | some e => (true, rememberDigitEpochLink { s with cache := none } e.1)
    | none => (false, { s with cache := none })

end State

/-- `_link_current_to_unique_digit_epoch`: the name that is used and the entries afterwards; `none` is
the `RuntimeError`. -/
def linkCurrentToUniqueDigitEpoch (epochs : List (String × ℕ)) (cur : ℕ) (step : ℤ) :
    ℕ → ℤ → Option (String × List (String × ℕ))
  | 0, _ => none
  | attempts + 1, ts =>
      if ts ≤ 0 then none
      else
        match epochs.lookup (toString ts) with
        | some i =>
            if i = cur then some (toString ts, epochs)
            else linkCurrentToUniqueDigitEpoch epochs cur step attempts (ts + step)
        | none => some (toString ts, epochs ++ [(toString ts, cur)])

namespace State

/-- The names walked from `start`, and the link remembered. -/
def linkFrom (s : State) (cur : ℕ) (step start : ℤ) : Option State :=
  (linkCurrentToUniqueDigitEpoch s.epochs cur step digitEpochNameMaxAttempts start).map
    fun r => rememberDigitEpochLink { s with epochs := r.2 } r.1

/-- `_get_first_timestamp_seconds`; a scan that raises gives `None`. -/
def getFirstTimestampSeconds (s : State) (cur : ℕ) (scanRaises : Bool) : Option ℤ :=
  if scanRaises then none else firstPlausibleUnixSeconds (fileText (s.file cur))

/-- `_ensure_current_hardlinked_to_timestamp`; `none` is a `RuntimeError`. -/
def ensureCurrentHardlinkedToTimestamp (s : State) (cur : ℕ) (cutoff : ℤ) (scanRaises : Bool) :
    Option State :=
  match s.getFirstTimestampSeconds cur scanRaises with
  | none => none
  | some first =>
      let start := min first (cutoff - 1)
      if start ≤ 0 then none else s.linkFrom cur (-1) start

/-- `_digit_epoch_start_ts_for_new_current`. -/
def digitEpochStartTsForNewCurrent (s : State) (cur : ℕ) (fallback : ℤ) (scanRaises : Bool) : ℤ :=
  (s.getFirstTimestampSeconds cur scanRaises).getD fallback

/-! ## Calls -/

/-- The call is over, and so is the lock of the rotation: leaving `file_write_lock` removes the sidecar. -/
def leaveLock (s : State) : State :=
  { s with call := .idle, sidecar := none }

/-- One system call of the call under way. -/
def next (s : State) (scanRaises : Bool) : Option State :=
  match s.call with
  | .idle => none
  | .takeSidecar thread msg data =>
      let (s, l) := s.openSidecar
      some
        { s with
          sticky := Function.update s.sticky thread (some ⟨data, l⟩)
          call := .append thread msg data }
  | .append _ msg data =>
      some { s.appendTo data (.payload msg) with call := .idle, log := s.log ++ [msg] }
  | .takeLock msg wall => some { s.openSidecar.1 with call := .check msg wall }
  | .check msg wall =>
      match s.current with
      | none => some { s with call := .create msg wall }
      | some cur =>
          match s.currentIsHardlinkedToDigitEpoch cur with
          | (true, s) => some { s with call := .unlink msg wall }
          | (false, s) => some { s with call := .ensure msg wall }
  | .ensure msg wall =>
      match s.current with
      | none => some s.leaveLock
      | some cur =>
          match s.ensureCurrentHardlinkedToTimestamp cur wall scanRaises with
          | none => some s.leaveLock
          | some s => some { s with call := .recheck msg wall }
  | .recheck msg wall =>
      match s.current with
      | none => some s.leaveLock
      | some cur =>
          match s.currentIsHardlinkedToDigitEpoch cur with
          | (true, s) => some { s with call := .unlink msg wall }
          | (false, s) => some s.leaveLock
  | .unlink msg wall => some { s with current := none, call := .create msg wall }
  | .create msg wall =>
      let (s, data) := s.openTruncate
      some { s with call := .write msg wall data }
  | .write msg wall data =>
      some { s.appendTo data (.payload msg) with call := .link wall, log := s.log ++ [msg] }
  | .link wall =>
      match s.current with
      | none => some s.leaveLock
      | some cur =>
          match s.linkFrom cur 1 (s.digitEpochStartTsForNewCurrent cur wall scanRaises) with
          | none => some s.leaveLock
          | some s => some s.leaveLock

/-- A call begins: a rotation lets go of the kept descriptors, a sample opens `current` unless it can
use them. -/
def begin (s : State) (thread : ℕ) (msg : List Char) (wall : ℤ) : State :=
  if msg.head? = some '$' then { s.releaseSticky thread true with call := .takeLock msg wall }
  else
    match s.kept thread with
    | some data => { s with call := .append thread msg data }
    | none =>
        let (s, data) := (s.releaseSticky thread true).openAppend
        { s with call := .takeSidecar thread msg data }

/-- The first `k` characters of the payload that is being written reach the file. -/
def writePart (s : State) (k : ℕ) : State :=
  match s.call with
  | .append _ msg data => s.appendTo data (.fragment (msg.take k))
  | .write msg _ data => s.appendTo data (.fragment (msg.take k))
  | _ => s

/-- The call under way raises: a failed append lets go of the kept descriptors, a rotation leaves its
lock. -/
def raised (s : State) (k : ℕ) : Option State :=
  match s.call with
  | .idle => none
  | .takeSidecar _ _ _ => some { s with call := .idle }
  | .takeLock _ _ => some { s with call := .idle }
  | .append thread _ _ => some { (s.writePart k).releaseSticky thread false with call := .idle }
  | _ => some (s.writePart k).leaveLock

/-- The thread of a sample call. -/
def busy (s : State) : Option ℕ :=
  match s.call with
  | .takeSidecar thread _ _ => some thread
  | .append thread _ _ => some thread
  | _ => none

end State

/-! ## Runs -/

/-- What can happen next. -/
inductive Action where
  | begin (thread : ℕ) (msg : List Char) (wall : ℤ)
  | next (scanRaises : Bool)
  | raised (k : ℕ)
  | timeout
  | crash (k : ℕ)
  | leaveHost (thread : ℕ)
  | removeSidecar
  | touchSidecar
  deriving DecidableEq

open State in
/-- One action.  Calls for one host come one after another, by whichever thread; an empty payload is
refused.  `timeout` is a sample whose append did not get the lock in time, `leaveHost` a thread that
turns to another host, `crash` the end of the process, which forgets what is not on disk. -/
def step (s : State) : Action → Option State
  | .begin thread msg wall =>
      if s.call = .idle ∧ msg ≠ [] then some (s.begin thread msg wall) else none
  | .next scanRaises => s.next scanRaises
  | .raised k => s.raised k
  | .timeout =>
      match s.call with
      | .append _ _ _ => some { s with call := .idle }
      | _ => none
  | .crash k => some { s.writePart k with call := .idle, cache := none, sticky := fun _ => none }
  | .leaveHost thread =>
      if s.busy = some thread then none else some (s.releaseSticky thread true)
  | .removeSidecar => some { s with sidecar := none }
  | .touchSidecar => some s.openSidecar.1

/-! ## What the archive promises -/

/-- A timestamp name links to an inode. -/
def Linked (s : State) (i : ℕ) : Prop :=
  ∃ name, (name, i) ∈ s.epochs

/-- **Every payload written so far is in the archive, once and in order.**  Read in the order in which
they were created, the files hold exactly the payloads of the log; a file that holds one is `current` or
has a timestamp name; and no file has two timestamp names. -/
structure Archived (s : State) : Prop where
  payloads_eq : s.files.flatMap payloads = s.log
  named : ∀ i, payloads (s.file i) ≠ [] → s.current = some i ∨ Linked s i
  single : ∀ i name name', (name, i) ∈ s.epochs → (name', i) ∈ s.epochs → name = name'

/-- **What a step leaves alone.**  Timestamp names stay and go on naming the same inode, files only
grow, and `current` is taken from an inode only while a timestamp name links to it. -/
structure Kept (s s' : State) : Prop where
  epochs : ∀ name i, s.epochs.lookup name = some i → s'.epochs.lookup name = some i
  grows : ∀ i, s.file i <+: s'.file i
  unlinks : ∀ i, s.current = some i → s'.current = some i ∨ Linked s i

/-- A directory as the listener may find it: names refer to files, no file has two timestamp names, and
nothing has been appended yet. -/
structure Start (s : State) : Prop where
  current_lt : ∀ i, s.current = some i → i < s.files.length
  epochs_lt : ∀ e ∈ s.epochs, e.2 < s.files.length
  names : (s.epochs.map Prod.fst).Nodup
  inodes : (s.epochs.map Prod.snd).Nodup
  untouched : ∀ file ∈ s.files, payloads file = []
  sidecar_lt : ∀ l, s.sidecar = some l → l < s.nextLock
  cache : s.cache = none
  sticky : s.sticky = fun _ => none
  call : s.call = .idle
  log : s.log = []

end ArchiveRotation
