/-
# Monitor marks

A stats file carries marks, lines that begin with `%`: `%jobs` names the jobs that share the
node, `%affinity` gives the resources of one job.  `parse_jobs_jids` and
`parse_affinity_mark` read them; `collect_marks` walks the lines of a file and gives each
mark the time and the host of a sample header.

A mark is queued without time and host and bound later.  The source keeps a second list of
the queued marks that wait; it always holds the unbound ones, so binding the waiting marks
is binding all unbound ones (`bindPending`).
-/
import HpcPerfStats.PyDict
import HpcPerfStats.PyText

namespace MonitorMarks

open PyText

/-- What a mark says. -/
inductive MarkBody where
  | jobs (jids : List String)
  | affinity (jid cpus gpus cg : String)
  deriving DecidableEq, Repr

/-- A mark and, once it is bound, the time and the host of its sample. -/
structure Mark where
  body : MarkBody
  sample : Option (PyFloat × String)
  deriving DecidableEq

def MarkBody.isJobs : MarkBody → Bool
  | .jobs _ => true
  | .affinity _ _ _ _ => false

/-- `parse_jobs_jids`. -/
def parseJobsJids (line : String) : List String :=
  let text := strip line
  if startsWith "%jobs" text then
    match splitMax 1 text with
    | [_, rest] =>
        if startsWith "jids=" rest then
          ((splitSep ',' (dropChars 5 rest)).map strip).filter fun jid =>
            jid != "" && jid != "-" && jid != "0" && jid.length ≤ 32 && !contains " " jid
        else []
    | _ => []
  else []

/-- The `key=value` tokens of an affinity mark. -/
def affinityFields (tokens : List String) : List (String × String) :=
  PyDict.ofPairs ((tokens.filter (contains "=" ·)).map fun t => (beforeSep '=' t, afterSep '=' t))

/-- `parse_affinity_mark`. -/
def parseAffinityMark (line : String) : Option MarkBody :=
  let text := strip line
  if startsWith "%affinity" text then
    let fields := affinityFields (split text).tail
    let jid := strip ((fields.lookup "jid").getD "")
    if jid = "" ∨ jid = "-" ∨ jid = "0" ∨ 32 < jid.length then none
    else some (.affinity jid ((fields.lookup "cpus").getD "") ((fields.lookup "gpus").getD "-")
      ((fields.lookup "cg").getD "sched"))
  else none

/-- The mark a line carries, if it is a usable `%jobs` or `%affinity` line. -/
def markOf (line : String) : Option MarkBody :=
  if startsWith "%jobs" line then
    let jids := parseJobsJids line
    if jids = [] then none else some (.jobs jids)
  else if startsWith "%affinity" line then parseAffinityMark line
  else none

example : markOf "%jobs jids=12,-,34" = some (.jobs ["12", "34"]) := by decide

/-- Give the unbound marks a sample. -/
def bindPending (when : PyFloat) (host : String) (marks : List Mark) : List Mark :=
  marks.map fun m => if m.sample = none then { m with sample := some (when, host) } else m

/-- One line of `collect_marks`. -/
def collectLine (marks : List Mark) (raw : String) : List Mark :=
  let line := strip raw
  if startsWith "%jobs" line || startsWith "%affinity" line then
    match markOf line with
    | some body => marks ++ [⟨body, none⟩]
    | none => marks
  else
    match line.toList.head? with
    | none => marks
    | some c =>
        if c.isDigit then
          match split line with
          | t :: _ :: host :: _ =>
              match pyFloat t with
              | some when => bindPending when host marks
              | none => marks
          | _ => marks
        else marks

/-- `collect_marks`. -/
def collectMarks (lines : List String) : List Mark :=
  lines.foldl collectLine []

/-- Blanks behind a mark do not matter. -/
theorem markOf_strip (raw : String) : markOf (strip raw) = markOf (lstrip raw) := by
  have hjobs : startsWith "%jobs" (strip raw) = startsWith "%jobs" (lstrip raw) :=
    startsWith_rstrip _ (by decide)
  have haff : startsWith "%affinity" (strip raw) = startsWith "%affinity" (lstrip raw) :=
    startsWith_rstrip _ (by decide)
  rw [markOf, markOf, hjobs, haff]
  simp only [parseJobsJids, parseAffinityMark, strip_strip, strip_lstrip]

end MonitorMarks
