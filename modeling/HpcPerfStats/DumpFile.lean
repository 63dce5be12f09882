/-
# Saving the ring to the dump file and loading it back

When the daemon stops, `save_file_ring_buffer` appends the payloads of the ring to the dump file of
the day, one `fprintf("%s")` after the other; when it starts, `ring_buffer_load_file` reads the file
line by line and inserts a payload at every blank line and at the end of the file.  Nothing but blank
lines separates the payloads in the file.

A payload of the collector is a header of `$` and `!` lines, which may be missing, then a blank line,
then the line of the time stamp and the rows of the sample (`Payload`).  So the blank line of a
payload stands between its header and its sample and not between two payloads: the loader puts the
header of a payload at the end of the sample before it, and a loaded ring has no blank line at all,
so that a second round makes one payload of everything (`queue_round_round`).

`preserved_iff` says when all rounds keep the samples and the headers at the start of a payload:
exactly when no payload but the first has a header.

File and allocation errors are left out, and so are `f_count` and `l_count`, which only count.
-/
import HpcPerfStats.RingResend

namespace DumpFile

open LinkedRing RingBuffer

/-! ## The dump file -/

/-- `stats_buffer_write_file`: what the file holds after a payload; `%s` prints `NULL` so. -/
def statsBufferWriteFile (sf : StatsBuffer) (file : Text) : Text :=
  file ++ sf.sfData.getD "(null)".toList

/-- The loop of `save_file_ring_buffer`, from `sfq` until it is back at `q_first`. -/
def saveLoop (w : Ring) : Nat → Nat → Text → Text
  | 0, _, file => file
  | n + 1, sfq, file =>
      let file := statsBufferWriteFile (w.sf sfq) file
      if w.links.forward sfq = w.qFirst then file
      else saveLoop w n (w.links.forward sfq) file

/-- `save_file_ring_buffer`: the dump file before and after, `none` when there is none. -/
def saveFileRingBuffer (w : Ring) (file : Option Text) : Option Text :=
  if w.qCount = 0 then file else some (saveLoop w w.qCount w.qFirst (file.getD []))

/-- The lines that `getline` reads, each with its newline. -/
def getlines : Text → List Text
  | [] => []
  | c :: cs =>
      if c = '\n' then [c] :: getlines cs
      else
        match getlines cs with
        | [] => [[c]]
        | l :: ls => (c :: l) :: ls

/-- The loop of `ring_buffer_load_file`: the payload being read, `stats_start` and the ring. -/
def loadLoop (allowOverwrite : Bool) : List Text → StatsBuffer → Bool → Ring → Int × Ring
  | [], sf, _, w => ringBufferInsert w sf (-1) allowOverwrite true
  | l :: ls, sf, statsStart, w =>
      if l.head? = some '\n' ∧ statsStart = false then loadLoop allowOverwrite ls sf statsStart w
      else if l.head? ≠ some '\n' then
        loadLoop allowOverwrite ls ⟨some (sf.bytes ++ l)⟩ true w
      else
        let r := ringBufferInsert w sf (-1) allowOverwrite true
        if r.1 < 0 then (-1, r.2) else loadLoop allowOverwrite ls ⟨some []⟩ statsStart r.2

/-- `ring_buffer_load_file`: the return code and the ring. -/
def ringBufferLoadFile (file : Text) (w : Ring) (allowOverwrite : Bool) : Int × Ring :=
  loadLoop allowOverwrite (getlines file) ⟨some []⟩ false w

/-- One stop and start of the daemon: the ring is saved to a new dump file, which is then loaded into
the empty ring; without a file the ring stays empty. -/
def round (allowOverwrite : Bool) (w : Ring) : Ring :=
  match saveFileRingBuffer w none with
  | none => Ring.init
  | some file => (ringBufferLoadFile file Ring.init allowOverwrite).2

/-! ## The payloads of the collector -/

/-- A line with its newline. -/
def IsLine (l : Text) : Prop := ∃ t, '\n' ∉ t ∧ l = t ++ ['\n']

/-- A line of the header: a property or a schema line. -/
def isHeaderLine (l : Text) : Bool := l.head? == some '$' || l.head? == some '!'

/-- The line of a time stamp. -/
def isStamp (l : Text) : Bool := l.head?.any Char.isDigit

/-- A well-formed payload: what `stats_wr_hdr` and `stats_buffer_collect` write, line by line.  A
header begins with a `$` line, the sample with its time stamp. -/
structure Payload where
  header : List Text
  stamp : Text
  rows : List Text
  isLine : ∀ l ∈ header ++ stamp :: rows, IsLine l
  header_lines : ∀ l ∈ header, isHeaderLine l = true
  header_first : ∀ l ∈ header.head?, l.head? = some '$'
  stamp_line : isStamp stamp = true
  row_lines : ∀ l ∈ rows, l ≠ ['\n'] ∧ isHeaderLine l = false ∧ isStamp l = false

/-- The lines of the sample. -/
def Payload.sample (p : Payload) : List Text := p.stamp :: p.rows

/-- The blank line that `stats_buffer_collect` writes before the time stamp. -/
def blank : Text := ['\n']

/-- The lines of a payload. -/
def Payload.lines (p : Payload) : List Text := p.header ++ blank :: p.sample

/-- A payload that holds these lines. -/
def bufferOf (ls : List Text) : StatsBuffer := ⟨some ls.flatten⟩

/-- The payload as it stands in the ring. -/
def Payload.buffer (p : Payload) : StatsBuffer := bufferOf p.lines

/-! ## What a round has to keep -/

/-- The lines of a payload that are not blank. -/
def contentLines (sf : StatsBuffer) : List Text := (getlines sf.bytes).filter (· != blank)

/-- A line before the samples that follow it: it begins a sample of its own when a time stamp
follows. -/
def addLine (l : Text) : List (List Text) → List (List Text)
  | [] => [[l]]
  | s :: ss => if s.head?.any isStamp then [l] :: s :: ss else (l :: s) :: ss

/-- The samples among some lines: the lines that are no header, cut before every time stamp. -/
def samplesOf (ls : List Text) : List (List Text) :=
  (ls.filter fun l => !isHeaderLine l).foldr addLine []

/-- The headers of a payload stand at its start: after its first lines that are of a header, there is
no `$` line. -/
def HeaderFirst (sf : StatsBuffer) : Prop :=
  ∀ l ∈ (contentLines sf).dropWhile isHeaderLine, l.head? ≠ some '$'

/-- A queue keeps the lines and the samples of another, and its headers stand at the start of a
payload. -/
structure Preserved (queue queue' : List StatsBuffer) : Prop where
  lines : queue'.flatMap contentLines = queue.flatMap contentLines
  samples : queue'.flatMap (fun sf => samplesOf (contentLines sf)) =
    queue.flatMap (fun sf => samplesOf (contentLines sf))
  headers : ∀ sf ∈ queue', HeaderFirst sf

/-! ## The file that is saved -/

/-- The bytes that the payloads of a queue leave in the file. -/
def fileBytes (queue : List StatsBuffer) : Text :=
  queue.flatMap fun sf => sf.sfData.getD "(null)".toList

/-- The loop writes the payloads from `sfq` to the end of the ring. -/
theorem saveLoop_eq {w : Ring} (d : List Nat) : ∀ (c : List Nat) (x n : Nat) (file : Text),
    Rep w (c ++ x :: d) → d.length ≤ n →
      saveLoop w (n + 1) x file = file ++ fileBytes ((x :: d).map w.sf) := by
  induction d with
  | nil =>
      intro c x n file h _
      -- the last node is followed by the first one
      obtain ⟨f, hf⟩ : ∃ f, (c ++ [x]).head? = some f := by
        cases c with
        | nil => exact ⟨x, rfl⟩
        | cons f c => exact ⟨f, rfl⟩
      have hlast : w.links.forward x = w.qFirst := by
        rw [h.first f hf]
        exact h.linked.forward_last hf
      rw [saveLoop, if_pos hlast]
      simp [statsBufferWriteFile, fileBytes]
  | cons y d ih =>
      intro c x n file h hn
      obtain ⟨n, rfl⟩ : ∃ m, n = m + 1 := ⟨n - 1, by simp at hn; omega⟩
      obtain ⟨hnext, hne⟩ := h.forward_next
      have h' : Rep w ((c ++ [x]) ++ y :: d) := by
        rw [List.append_assoc]
        exact h
      rw [saveLoop, hnext, if_neg hne, ih (c ++ [x]) y n _ h' (by simp at hn; omega)]
      simp [statsBufferWriteFile, fileBytes]

/-- **The saved file** holds the payloads of the queue, one after the other. -/
theorem saveFileRingBuffer_eq {w : Ring} {ids : List Nat} (h : Rep w ids) (file : Option Text) :
    saveFileRingBuffer w file =
      if w.queue = [] then file else some (file.getD [] ++ fileBytes w.queue) := by
  rw [saveFileRingBuffer]
  cases ids with
  | nil =>
      have hcount : w.qCount = 0 := h.count
      have hq : w.queue = [] := h.queue_eq
      rw [if_pos hcount, if_pos hq]
  | cons f d =>
      have hcount : w.qCount = d.length + 1 := h.count
      have hq : w.queue ≠ [] := by
        rw [h.queue_eq]
        simp
      rw [if_neg (by omega), if_neg hq, hcount, h.first f rfl,
        saveLoop_eq d [] f d.length _ h le_rfl, h.queue_eq]

/-! ## The payloads that are loaded -/

/-- The payloads that the loader cuts out of the lines: the text being read and `stats_start`. -/
def loadLines : List Text → Text → Bool → List StatsBuffer
  | [], cur, _ => [⟨some cur⟩]
  | l :: ls, cur, statsStart =>
      if l.head? = some '\n' ∧ statsStart = false then loadLines ls cur statsStart
      else if l.head? ≠ some '\n' then loadLines ls (cur ++ l) true
      else ⟨some cur⟩ :: loadLines ls [] statsStart

/-- Without a limit an insertion always succeeds and appends. -/
theorem insert_unlimited {w : Ring} {ids : List Nat} (h : Rep w ids) (sf : StatsBuffer)
    (allowOverwrite : Bool) :
    ∃ w' ids', ringBufferInsert w sf (-1) allowOverwrite true = (0, w') ∧ Rep w' ids' ∧
      w'.queue = w.queue ++ [sf] := by
  obtain ⟨ids', h', heq⟩ := ringBufferInsert_spec h sf (-1) allowOverwrite true
  have hins : queueInsert w.queue w.dCount sf (-1) allowOverwrite true =
      (0, w.queue ++ [sf], w.dCount) := by
    rw [queueInsert]
    by_cases hq : w.queue = []
    · rw [if_pos hq, hq]
      rfl
    · rw [if_neg hq, if_neg (by simp)]
      rfl
  rw [hins, Prod.mk.injEq, Prod.mk.injEq] at heq
  exact ⟨_, ids', Prod.ext heq.1 rfl, h', heq.2.1⟩

/-- **Loading** appends the payloads that the loader cuts out of the lines. -/
theorem loadLoop_spec (allowOverwrite : Bool) (ls : List Text) : ∀ (cur : Text) (statsStart : Bool)
    (w : Ring) (ids : List Nat), Rep w ids →
      ∃ w' ids', loadLoop allowOverwrite ls ⟨some cur⟩ statsStart w = (0, w') ∧ Rep w' ids' ∧
        w'.queue = w.queue ++ loadLines ls cur statsStart := by
  induction ls with
  | nil =>
      intro cur statsStart w ids h
      exact insert_unlimited h _ allowOverwrite
  | cons l ls ih =>
      intro cur statsStart w ids h
      rw [loadLoop, loadLines]
      by_cases hskip : l.head? = some '\n' ∧ statsStart = false
      · rw [if_pos hskip, if_pos hskip]
        exact ih cur statsStart w ids h
      rw [if_neg hskip, if_neg hskip]
      by_cases hline : l.head? ≠ some '\n'
      · rw [if_pos hline, if_pos hline]
        exact ih (cur ++ l) true w ids h
      rw [if_neg hline, if_neg hline]
      obtain ⟨w₁, ids₁, hins, h₁, hq₁⟩ := insert_unlimited h ⟨some cur⟩ allowOverwrite
      obtain ⟨w₂, ids₂, hload, h₂, hq₂⟩ := ih [] statsStart w₁ ids₁ h₁
      refine ⟨w₂, ids₂, ?_, h₂, ?_⟩
      · rw [hins]
        exact hload
      · rw [hq₂, hq₁, List.append_assoc]
        rfl

/-- **A round**, seen on the queue. -/
theorem queue_round {w : Ring} {ids : List Nat} (h : Rep w ids) (allowOverwrite : Bool) :
    ∃ ids', Rep (round allowOverwrite w) ids' ∧
      (round allowOverwrite w).queue =
        if w.queue = [] then [] else loadLines (getlines (fileBytes w.queue)) [] false := by
  rw [round, saveFileRingBuffer_eq h]
  by_cases hq : w.queue = []
  · rw [if_pos hq, if_pos hq]
    exact ⟨[], rep_init, rep_init.queue_eq⟩
  · rw [if_neg hq, if_neg hq]
    obtain ⟨w', ids', hload, h', hq'⟩ :=
      loadLoop_spec allowOverwrite (getlines (fileBytes w.queue)) [] false Ring.init [] rep_init
    have hfile : (ringBufferLoadFile (fileBytes w.queue) Ring.init allowOverwrite).2 = w' := by
      rw [ringBufferLoadFile, hload]
    refine ⟨ids', ?_, ?_⟩
    · show Rep (ringBufferLoadFile (fileBytes w.queue) Ring.init allowOverwrite).2 ids'
      rw [hfile]
      exact h'
    · show (ringBufferLoadFile (fileBytes w.queue) Ring.init allowOverwrite).2.queue = _
      rw [hfile, hq']
      rfl

/-! ## Lines -/

theorem getlines_append {l : Text} (h : IsLine l) (rest : Text) :
    getlines (l ++ rest) = l :: getlines rest := by
  obtain ⟨t, ht, rfl⟩ := h
  induction t with
  | nil => simp [getlines]
  | cons c t ih =>
      have hc : c ≠ '\n' := fun e => ht (e ▸ List.mem_cons_self)
      have ih := ih (fun hmem => ht (List.mem_cons_of_mem _ hmem))
      rw [List.cons_append, List.cons_append, getlines, if_neg hc, ih]

/-- The lines of a text are the lines it was made of. -/
theorem getlines_flatten {ls : List Text} (h : ∀ l ∈ ls, IsLine l) : getlines ls.flatten = ls := by
  induction ls with
  | nil => rfl
  | cons l ls ih =>
      rw [List.flatten_cons, getlines_append (h l List.mem_cons_self),
        ih fun l' hl' => h l' (List.mem_cons_of_mem _ hl')]

/-- A line that is not blank does not start with a newline. -/
theorem head?_ne_newline {l : Text} (h : IsLine l) (hne : l ≠ blank) : l.head? ≠ some '\n' := by
  obtain ⟨t, ht, rfl⟩ := h
  cases t with
  | nil => exact absurd rfl hne
  | cons c t =>
      intro hc
      obtain rfl : c = '\n' := by simpa using hc
      exact ht List.mem_cons_self

/-- The lines that the collector writes, but for the blank one. -/
def Content (ls : List Text) : Prop := ∀ l ∈ ls, IsLine l ∧ l ≠ blank

theorem Content.append {ls ls' : List Text} (h : Content ls) (h' : Content ls') :
    Content (ls ++ ls') := by
  intro l hl
  rcases List.mem_append.mp hl with hl | hl
  · exact h l hl
  · exact h' l hl

/-- The loader puts lines that are not blank into one payload. -/
theorem loadLines_append {ls : List Text} (h : Content ls) : ∀ (rest : List Text) (cur : Text),
    loadLines (ls ++ rest) cur true = loadLines rest (cur ++ ls.flatten) true := by
  induction ls with
  | nil =>
      intro rest cur
      simp
  | cons l ls ih =>
      intro rest cur
      obtain ⟨hl, hne⟩ := h l List.mem_cons_self
      rw [List.cons_append, loadLines, if_neg (by simp),
        if_pos (head?_ne_newline hl hne), ih fun l' hl' => h l' (List.mem_cons_of_mem _ hl')]
      simp

/-- The first line that is not blank starts the reading. -/
theorem loadLines_start {ls : List Text} (h : Content ls) (hne : ls ≠ []) (rest : List Text) :
    loadLines (ls ++ rest) [] false = loadLines rest ls.flatten true := by
  cases ls with
  | nil => exact absurd rfl hne
  | cons l ls =>
      obtain ⟨hl, hblank⟩ := h l List.mem_cons_self
      have hhead := head?_ne_newline hl hblank
      rw [List.cons_append, loadLines, if_neg (fun e => hhead e.1), if_pos hhead,
        loadLines_append fun l' hl' => h l' (List.mem_cons_of_mem _ hl')]
      rfl

theorem contentLines_bufferOf {ls : List Text} (h : Content ls) : contentLines (bufferOf ls) = ls := by
  have hlines : getlines (bufferOf ls).bytes = ls := getlines_flatten fun l hl => (h l hl).1
  rw [contentLines, hlines, List.filter_eq_self]
  intro l hl
  simpa using (h l hl).2

/-! ## The rounds -/

theorem Payload.content (p : Payload) : Content (p.header ++ p.sample) := by
  intro l hl
  refine ⟨p.isLine l hl, ?_⟩
  rintro rfl
  rcases List.mem_append.mp hl with hl | hl
  · exact absurd (p.header_lines _ hl) (by decide)
  · rcases List.mem_cons.mp hl with hl | hl
    · have hstamp := p.stamp_line
      rw [← hl] at hstamp
      exact absurd hstamp (by decide)
    · exact (p.row_lines _ hl).1 rfl

theorem Payload.content_header (p : Payload) : Content p.header :=
  fun l hl => p.content l (List.mem_append_left _ hl)

theorem Payload.content_sample (p : Payload) : Content p.sample :=
  fun l hl => p.content l (List.mem_append_right _ hl)

theorem Payload.lines_isLine (p : Payload) : ∀ l ∈ p.lines, IsLine l := by
  intro l hl
  rcases List.mem_append.mp hl with hl | hl
  · exact (p.content_header l hl).1
  · rcases List.mem_cons.mp hl with rfl | hl
    · exact ⟨[], by simp, rfl⟩
    · exact (p.content_sample l hl).1

/-- The file of a queue of payloads. -/
theorem fileBytes_bufferOf (bs : List (List Text)) :
    fileBytes (bs.map bufferOf) = bs.flatten.flatten := by
  rw [fileBytes, List.flatMap_map, List.flatten_flatten, List.flatMap_def]
  rfl

/-- The lines of the payloads after the first blank line: the sample before a payload takes its
header in. -/
def tailBlocks : List Text → List Payload → List (List Text)
  | cur, [] => [cur]
  | cur, p :: ps => (cur ++ p.header) :: tailBlocks p.sample ps

/-- The lines of the payloads of a ring that was saved and loaded. -/
def dumpBlocks : List Payload → List (List Text)
  | [] => []
  | p :: ps => (if p.header = [] then [] else [p.header]) ++ tailBlocks p.sample ps

theorem loadLines_tail (ps : List Payload) : ∀ cur : List Text,
    loadLines (ps.map Payload.lines).flatten cur.flatten true =
      (tailBlocks cur ps).map bufferOf := by
  induction ps with
  | nil =>
      intro cur
      rfl
  | cons p ps ih =>
      intro cur
      have hsplit : ((p :: ps).map Payload.lines).flatten =
          p.header ++ blank :: (p.sample ++ (ps.map Payload.lines).flatten) := by
        simp [Payload.lines]
      rw [hsplit, loadLines_append p.content_header, loadLines, if_neg (by simp),
        if_neg (by simp [blank]), loadLines_append p.content_sample, List.nil_append, ih p.sample,
        ← List.flatten_append]
      rfl

/-- What the loader makes of the lines of the payloads. -/
theorem loadLines_payloads {ps : List Payload} (hne : ps ≠ []) :
    loadLines (ps.map Payload.lines).flatten [] false = (dumpBlocks ps).map bufferOf := by
  cases ps with
  | nil => exact absurd rfl hne
  | cons p ps =>
      have hsplit : ((p :: ps).map Payload.lines).flatten =
          p.header ++ blank :: (p.sample ++ (ps.map Payload.lines).flatten) := by
        simp [Payload.lines]
      rw [hsplit, dumpBlocks]
      by_cases hheader : p.header = []
      · rw [if_pos hheader, hheader, List.nil_append, List.nil_append, loadLines,
          if_pos (by simp [blank]),
          loadLines_start p.content_sample (by simp [Payload.sample]), loadLines_tail]
      · rw [if_neg hheader, loadLines_start p.content_header hheader, loadLines, if_neg (by simp),
          if_neg (by simp [blank]), loadLines_append p.content_sample, List.nil_append,
          loadLines_tail]
        rfl

/-- Blocks of lines that are not blank are loaded as one payload. -/
theorem loadLines_blocks {bs : List (List Text)} (h : ∀ b ∈ bs, Content b) (hne : bs.flatten ≠ []) :
    loadLines (getlines (fileBytes (bs.map bufferOf))) [] false = [bufferOf bs.flatten] := by
  have hcontent : Content bs.flatten := by
    intro l hl
    obtain ⟨b, hb, hlb⟩ := List.mem_flatten.mp hl
    exact h b hb l hlb
  rw [fileBytes_bufferOf, getlines_flatten fun l hl => (hcontent l hl).1]
  have hload := loadLines_start hcontent hne []
  rw [List.append_nil] at hload
  exact hload

theorem content_tailBlocks (ps : List Payload) : ∀ cur : List Text, Content cur →
    ∀ b ∈ tailBlocks cur ps, Content b := by
  induction ps with
  | nil =>
      intro cur hcur b hb
      obtain rfl : b = cur := by simpa [tailBlocks] using hb
      exact hcur
  | cons p ps ih =>
      intro cur hcur b hb
      rw [tailBlocks, List.mem_cons] at hb
      rcases hb with rfl | hb
      · exact hcur.append p.content_header
      · exact ih p.sample p.content_sample b hb

theorem content_dumpBlocks (ps : List Payload) : ∀ b ∈ dumpBlocks ps, Content b := by
  intro b hb
  cases ps with
  | nil => simp [dumpBlocks] at hb
  | cons p ps =>
      rw [dumpBlocks, List.mem_append] at hb
      rcases hb with hb | hb
      · split_ifs at hb with hheader
        · simp at hb
        · obtain rfl : b = p.header := by simpa using hb
          exact p.content_header
      · exact content_tailBlocks ps _ p.content_sample b hb

theorem flatten_tailBlocks (ps : List Payload) : ∀ cur : List Text,
    (tailBlocks cur ps).flatten = cur ++ (ps.map fun p => p.header ++ p.sample).flatten := by
  induction ps with
  | nil => simp [tailBlocks]
  | cons p ps ih =>
      intro cur
      rw [tailBlocks, List.flatten_cons, ih]
      simp

/-- No line is lost, whatever the payloads. -/
theorem flatten_dumpBlocks (ps : List Payload) :
    (dumpBlocks ps).flatten = (ps.map fun p => p.header ++ p.sample).flatten := by
  cases ps with
  | nil => rfl
  | cons p ps =>
      rw [dumpBlocks, List.flatten_append, flatten_tailBlocks]
      by_cases hheader : p.header = []
      · simp [hheader]
      · simp [hheader]

theorem flatten_dumpBlocks_ne_nil {ps : List Payload} (hne : ps ≠ []) :
    (dumpBlocks ps).flatten ≠ [] := by
  rw [flatten_dumpBlocks]
  cases ps with
  | nil => exact absurd rfl hne
  | cons p ps => simp [Payload.sample]

section Rounds

variable {w : Ring} {ids : List Nat} {ps : List Payload}

/-- **The first round**: every header but the first ends the payload before it. -/
theorem queue_first_round (h : Rep w ids) (hq : w.queue = ps.map Payload.buffer) (hne : ps ≠ [])
    (allowOverwrite : Bool) :
    ∃ ids', Rep (round allowOverwrite w) ids' ∧
      (round allowOverwrite w).queue = (dumpBlocks ps).map bufferOf := by
  obtain ⟨ids', h', hround⟩ := queue_round h allowOverwrite
  refine ⟨ids', h', ?_⟩
  have hlines : getlines (fileBytes w.queue) = (ps.map Payload.lines).flatten := by
    have hbuf : ps.map Payload.buffer = (ps.map Payload.lines).map bufferOf := by
      rw [List.map_map]
      rfl
    rw [hq, hbuf, fileBytes_bufferOf]
    apply getlines_flatten
    intro l hl
    obtain ⟨b, hb, hlb⟩ := List.mem_flatten.mp hl
    obtain ⟨p, -, rfl⟩ := List.mem_map.mp hb
    exact p.lines_isLine l hlb
  have hne' : w.queue ≠ [] := by
    rw [hq]
    simpa using hne
  rw [hround, if_neg hne', hlines, loadLines_payloads hne]

/-- A ring whose payloads have no blank line is loaded as one payload. -/
theorem queue_later_round (h : Rep w ids) {bs : List (List Text)} (hbs : ∀ b ∈ bs, Content b)
    (hne : bs.flatten ≠ []) (hq : w.queue = bs.map bufferOf) (allowOverwrite : Bool) :
    ∃ ids', Rep (round allowOverwrite w) ids' ∧
      (round allowOverwrite w).queue = [bufferOf bs.flatten] := by
  obtain ⟨ids', h', hround⟩ := queue_round h allowOverwrite
  refine ⟨ids', h', ?_⟩
  have hne' : w.queue ≠ [] := by
    rw [hq]
    intro hnil
    rw [List.map_eq_nil_iff] at hnil
    exact hne (by rw [hnil]; rfl)
  rw [hround, if_neg hne', hq, loadLines_blocks hbs hne]

/-- **From the second round on**, the ring holds one payload with all the lines. -/
theorem queue_round_round (h : Rep w ids) (hq : w.queue = ps.map Payload.buffer) (hne : ps ≠ [])
    (allowOverwrite : Bool) (n : Nat) :
    ∃ ids', Rep ((round allowOverwrite)^[n + 2] w) ids' ∧
      ((round allowOverwrite)^[n + 2] w).queue = [bufferOf (dumpBlocks ps).flatten] := by
  induction n with
  | zero =>
      obtain ⟨ids₁, h₁, hq₁⟩ := queue_first_round h hq hne allowOverwrite
      exact queue_later_round h₁ (content_dumpBlocks ps) (flatten_dumpBlocks_ne_nil hne) hq₁
        allowOverwrite
  | succ n ih =>
      obtain ⟨ids', h', hq'⟩ := ih
      rw [Function.iterate_succ_apply']
      have hcontent : ∀ b ∈ [(dumpBlocks ps).flatten], Content b := by
        intro b hb l hl
        obtain rfl : b = (dumpBlocks ps).flatten := by simpa using hb
        obtain ⟨b, hb, hlb⟩ := List.mem_flatten.mp hl
        exact content_dumpBlocks ps b hb l hlb
      have hsingle : [(dumpBlocks ps).flatten].flatten = (dumpBlocks ps).flatten := by simp
      obtain ⟨ids'', h'', hq''⟩ := queue_later_round h' hcontent
        (by rw [hsingle]; exact flatten_dumpBlocks_ne_nil hne) hq' allowOverwrite
      rw [hsingle] at hq''
      exact ⟨ids'', h'', hq''⟩

end Rounds

/-! ## Samples and headers -/

theorem stamp_not_header {l : Text} (h : isStamp l = true) : isHeaderLine l = false := by
  unfold isStamp at h
  unfold isHeaderLine
  cases hl : l.head? with
  | none => rfl
  | some c =>
      rw [hl] at h
      have hdollar : c ≠ '$' := by
        rintro rfl
        exact absurd h (by decide)
      have hbang : c ≠ '!' := by
        rintro rfl
        exact absurd h (by decide)
      simp [hdollar, hbang]

theorem Payload.sample_not_header (p : Payload) : ∀ l ∈ p.sample, isHeaderLine l = false := by
  intro l hl
  rcases List.mem_cons.mp hl with rfl | hl
  · exact stamp_not_header p.stamp_line
  · exact (p.row_lines l hl).2.1

theorem samplesOf_header {ls : List Text} (h : ∀ l ∈ ls, isHeaderLine l = true) (rest : List Text) :
    samplesOf (ls ++ rest) = samplesOf rest := by
  unfold samplesOf
  have hnil : ls.filter (fun l => !isHeaderLine l) = [] := by
    rw [List.filter_eq_nil_iff]
    intro l hl
    simp [h l hl]
  rw [List.filter_append, hnil, List.nil_append]

/-- Rows join the row before them. -/
theorem foldr_addLine_rows {rows : List Text} (h : ∀ l ∈ rows, isStamp l = false)
    {ss : List (List Text)} (hss : ∀ s ∈ ss.head?, s.head?.any isStamp = true) (l : Text) :
    (l :: rows).foldr addLine ss = (l :: rows) :: ss := by
  induction rows generalizing l with
  | nil =>
      cases ss with
      | nil => rfl
      | cons s ss =>
          show addLine l (s :: ss) = _
          rw [addLine, if_pos (hss s rfl)]
  | cons r rows ih =>
      have hr := h r List.mem_cons_self
      have ih := ih (fun l' hl' => h l' (List.mem_cons_of_mem _ hl')) r
      rw [List.foldr_cons, ih, addLine, if_neg (by simp [hr])]

/-- The samples that follow one another are found again. -/
theorem samplesOf_samples (ps : List Payload) :
    samplesOf (ps.map Payload.sample).flatten = ps.map Payload.sample := by
  have hall : (ps.map Payload.sample).flatten.filter (fun l => !isHeaderLine l) =
      (ps.map Payload.sample).flatten := by
    rw [List.filter_eq_self]
    intro l hl
    obtain ⟨s, hs, hl⟩ := List.mem_flatten.mp hl
    obtain ⟨p, -, rfl⟩ := List.mem_map.mp hs
    simp [p.sample_not_header l hl]
  unfold samplesOf
  rw [hall]
  clear hall
  induction ps with
  | nil => rfl
  | cons p ps ih =>
      rw [List.map_cons, List.flatten_cons, List.foldr_append, ih]
      apply foldr_addLine_rows fun l hl => (p.row_lines l hl).2.2
      intro s hs
      cases ps with
      | nil => simp at hs
      | cons q ps =>
          obtain rfl : q.sample = s := by simpa using hs
          simp [Payload.sample, q.stamp_line]

theorem samplesOf_sample (p : Payload) : samplesOf p.sample = [p.sample] := by
  simpa using samplesOf_samples [p]

/-- Lines of a header followed by lines of samples have their header first. -/
theorem no_late_header {hs ls : List Text} (hhs : ∀ l ∈ hs, isHeaderLine l = true)
    (hls : ∀ l ∈ ls, isHeaderLine l = false) :
    ∀ l ∈ (hs ++ ls).dropWhile isHeaderLine, l.head? ≠ some '$' := by
  have hdrop : (hs ++ ls).dropWhile isHeaderLine = ls.dropWhile isHeaderLine :=
    List.dropWhile_append_of_pos hhs
  intro l hl hdollar
  rw [hdrop] at hl
  have hheader := hls l ((List.dropWhile_sublist _).subset hl)
  simp [isHeaderLine, hdollar] at hheader

theorem Payload.contentLines_buffer (p : Payload) : contentLines p.buffer = p.header ++ p.sample := by
  have hlines : getlines p.buffer.bytes = p.lines := getlines_flatten p.lines_isLine
  have hkeep : ∀ ls : List Text, Content ls → ls.filter (· != blank) = ls := by
    intro ls h
    rw [List.filter_eq_self]
    intro l hl
    simpa using (h l hl).2
  rw [contentLines, hlines, Payload.lines, List.filter_append, List.filter_cons_of_neg (by simp),
    hkeep _ p.content_header, hkeep _ p.content_sample]

theorem lines_payloads (ps : List Payload) :
    (ps.map Payload.buffer).flatMap contentLines =
      (ps.map fun p => p.header ++ p.sample).flatten := by
  rw [List.flatMap_map, List.flatMap_def]
  congr 1
  apply List.map_congr_left
  intro p _
  exact p.contentLines_buffer

theorem samples_payloads (ps : List Payload) :
    (ps.map Payload.buffer).flatMap (fun sf => samplesOf (contentLines sf)) =
      ps.map Payload.sample := by
  induction ps with
  | nil => rfl
  | cons p ps ih =>
      rw [List.map_cons, List.flatMap_cons, ih, p.contentLines_buffer,
        samplesOf_header p.header_lines, samplesOf_sample]
      rfl

theorem lines_blocks {bs : List (List Text)} (h : ∀ b ∈ bs, Content b) :
    (bs.map bufferOf).flatMap contentLines = bs.flatten := by
  induction bs with
  | nil => rfl
  | cons b bs ih =>
      rw [List.map_cons, List.flatMap_cons, contentLines_bufferOf (h b List.mem_cons_self),
        ih fun b' hb' => h b' (List.mem_cons_of_mem _ hb'), List.flatten_cons]

theorem samples_blocks {bs : List (List Text)} (h : ∀ b ∈ bs, Content b) :
    (bs.map bufferOf).flatMap (fun sf => samplesOf (contentLines sf)) = bs.flatMap samplesOf := by
  induction bs with
  | nil => rfl
  | cons b bs ih =>
      rw [List.map_cons, List.flatMap_cons, contentLines_bufferOf (h b List.mem_cons_self),
        ih fun b' hb' => h b' (List.mem_cons_of_mem _ hb'), List.flatMap_cons]

/-- Blocks that keep the lines and the samples of the payloads, each with its header first. -/
theorem preserved_blocks {ps : List Payload} {bs : List (List Text)} (h : ∀ b ∈ bs, Content b)
    (hlines : bs.flatten = (ps.map fun p => p.header ++ p.sample).flatten)
    (hsamples : bs.flatMap samplesOf = ps.map Payload.sample)
    (hheaders : ∀ b ∈ bs, ∀ l ∈ b.dropWhile isHeaderLine, l.head? ≠ some '$') :
    Preserved (ps.map Payload.buffer) (bs.map bufferOf) := by
  refine ⟨?_, ?_, ?_⟩
  · rw [lines_blocks h, lines_payloads, hlines]
  · rw [samples_blocks h, samples_payloads, hsamples]
  · intro sf hsf
    obtain ⟨b, hb, rfl⟩ := List.mem_map.mp hsf
    unfold HeaderFirst
    rw [contentLines_bufferOf (h b hb)]
    exact hheaders b hb

/-! ## When all rounds keep the payloads -/

/-- A header that is not the first one stands behind a sample after one round. -/
theorem late_header {ps : List Payload} {p : Payload} (hp : p ∈ ps) :
    ∀ q : Payload, ∃ q' : Payload, q'.sample ++ p.header ∈ tailBlocks q.sample ps := by
  induction ps with
  | nil => simp at hp
  | cons r ps ih =>
      intro q
      rcases List.mem_cons.mp hp with rfl | hp
      · exact ⟨q, List.mem_cons_self⟩
      · obtain ⟨q', hq'⟩ := ih hp r
        exact ⟨q', List.mem_cons_of_mem _ hq'⟩

/-- Without headers the loader finds the samples again. -/
theorem tailBlocks_eq (ps : List Payload) (h : ∀ p ∈ ps, p.header = []) : ∀ cur : List Text,
    tailBlocks cur ps = cur :: ps.map Payload.sample := by
  induction ps with
  | nil =>
      intro cur
      rfl
  | cons p ps ih =>
      intro cur
      rw [tailBlocks, h p List.mem_cons_self, ih fun p' hp' => h p' (List.mem_cons_of_mem _ hp')]
      simp

/-- The lines of payloads of which only the first has a header. -/
theorem flatten_of_first_header {p : Payload} {ps : List Payload} (h : ∀ p' ∈ ps, p'.header = []) :
    ((p :: ps).map fun p => p.header ++ p.sample).flatten =
      p.header ++ ((p :: ps).map Payload.sample).flatten := by
  have htail : (ps.map fun p => p.header ++ p.sample) = ps.map Payload.sample := by
    apply List.map_congr_left
    intro p' hp'
    rw [h p' hp', List.nil_append]
  simp [htail]

section Preservation

variable {w : Ring} {ids : List Nat} {ps : List Payload}

/-- When only the first payload has a header, every round keeps the payloads. -/
theorem preserved_of_first_header (h : Rep w ids) (hq : w.queue = ps.map Payload.buffer)
    (hheader : ∀ p ∈ ps.tail, p.header = []) (allowOverwrite : Bool) (n : Nat) :
    Preserved w.queue ((round allowOverwrite)^[n] w).queue := by
  cases ps with
  | nil =>
      -- an empty ring stays empty
      have hempty : ∃ ids', Rep ((round allowOverwrite)^[n] w) ids' ∧
          ((round allowOverwrite)^[n] w).queue = [] := by
        induction n with
        | zero => exact ⟨ids, h, hq⟩
        | succ n ih =>
            obtain ⟨ids', h', hq'⟩ := ih
            rw [Function.iterate_succ_apply']
            obtain ⟨ids'', h'', hround⟩ := queue_round h' allowOverwrite
            rw [if_pos hq'] at hround
            exact ⟨ids'', h'', hround⟩
      obtain ⟨-, -, hq'⟩ := hempty
      rw [hq', hq]
      exact ⟨rfl, rfl, by simp⟩
  | cons p ps =>
      have htail : ∀ p' ∈ ps, p'.header = [] := hheader
      have hall : ∀ l ∈ ((p :: ps).map Payload.sample).flatten, isHeaderLine l = false := by
        intro l hl
        obtain ⟨s, hs, hl⟩ := List.mem_flatten.mp hl
        obtain ⟨p', -, rfl⟩ := List.mem_map.mp hs
        exact p'.sample_not_header l hl
      match n with
      | 0 =>
          refine ⟨rfl, rfl, ?_⟩
          intro sf hsf
          rw [Function.iterate_zero, id, hq] at hsf
          obtain ⟨p', -, rfl⟩ := List.mem_map.mp hsf
          unfold HeaderFirst
          rw [p'.contentLines_buffer]
          exact no_late_header p'.header_lines p'.sample_not_header
      | 1 =>
          obtain ⟨ids', -, hround⟩ := queue_first_round h hq (by simp) allowOverwrite
          rw [Function.iterate_one, hround, hq]
          refine preserved_blocks (content_dumpBlocks _) (flatten_dumpBlocks _) ?_ ?_
          · have hsamples : (ps.map Payload.sample).flatMap samplesOf = ps.map Payload.sample := by
              rw [List.flatMap_map, List.map_eq_flatMap, List.flatMap_def, List.flatMap_def]
              congr 1
              apply List.map_congr_left
              intro p' _
              exact samplesOf_sample p'
            have hhead : samplesOf p.header = [] := by
              simpa [samplesOf] using samplesOf_header p.header_lines []
            rw [dumpBlocks, tailBlocks_eq ps htail, List.flatMap_append, List.flatMap_cons, hsamples,
              samplesOf_sample]
            split_ifs
            · rfl
            · simp [hhead]
          · intro b hb
            rw [dumpBlocks, tailBlocks_eq ps htail, List.mem_append] at hb
            rcases hb with hb | hb
            · split_ifs at hb
              · simp at hb
              · obtain rfl : b = p.header := by simpa using hb
                have hfirst : ∀ l ∈ (p.header ++ []).dropWhile isHeaderLine, l.head? ≠ some '$' :=
                  no_late_header p.header_lines (by simp)
                rwa [List.append_nil] at hfirst
            · have hmem : b ∈ (p :: ps).map Payload.sample := hb
              obtain ⟨p', -, rfl⟩ := List.mem_map.mp hmem
              show ∀ l ∈ ([] ++ p'.sample).dropWhile isHeaderLine, l.head? ≠ some '$'
              exact no_late_header (by simp) p'.sample_not_header
      | n + 2 =>
          obtain ⟨ids', -, hround⟩ := queue_round_round h hq (by simp) allowOverwrite n
          rw [hround, hq]
          have hflat : (dumpBlocks (p :: ps)).flatten =
              p.header ++ ((p :: ps).map Payload.sample).flatten := by
            rw [flatten_dumpBlocks, flatten_of_first_header htail]
          show Preserved _ ([(dumpBlocks (p :: ps)).flatten].map bufferOf)
          refine preserved_blocks ?_ ?_ ?_ ?_
          · intro b hb l hl
            obtain rfl : b = (dumpBlocks (p :: ps)).flatten := by simpa using hb
            obtain ⟨b, hb, hlb⟩ := List.mem_flatten.mp hl
            exact content_dumpBlocks _ b hb l hlb
          · rw [List.flatten_singleton, flatten_dumpBlocks]
          · rw [List.flatMap_singleton, hflat, samplesOf_header p.header_lines, samplesOf_samples]
          · intro b hb
            obtain rfl : b = (dumpBlocks (p :: ps)).flatten := by simpa using hb
            rw [hflat]
            exact no_late_header p.header_lines hall

/-- **Saving and loading**: all rounds keep the lines and the samples of the ring and the headers at
the start of a payload, exactly when no payload but the first has a header. -/
theorem preserved_iff (h : Rep w ids) (hq : w.queue = ps.map Payload.buffer)
    (allowOverwrite : Bool) :
    (∀ n, Preserved w.queue ((round allowOverwrite)^[n] w).queue) ↔
      ∀ p ∈ ps.tail, p.header = [] := by
  constructor
  · intro hpres p hp
    by_contra hheader
    cases ps with
    | nil => simp at hp
    | cons q ps =>
        obtain ⟨ids', -, hround⟩ := queue_first_round h hq (by simp) allowOverwrite
        obtain ⟨q', hmem⟩ := late_header hp q
        have hfirst := (hpres 1).headers (bufferOf (q'.sample ++ p.header)) (by
          rw [Function.iterate_one, hround]
          apply List.mem_map_of_mem
          rw [dumpBlocks]
          exact List.mem_append_right _ hmem)
        unfold HeaderFirst at hfirst
        rw [contentLines_bufferOf (q'.content_sample.append p.content_header)] at hfirst
        -- the payload begins with the time stamp, so nothing of it is dropped
        have hdrop : (q'.sample ++ p.header).dropWhile isHeaderLine = q'.sample ++ p.header := by
          rw [Payload.sample, List.cons_append,
            List.dropWhile_cons_of_neg (by simp [stamp_not_header q'.stamp_line])]
        rw [hdrop] at hfirst
        obtain ⟨l, hs, hl⟩ : ∃ l ls, p.header = l :: ls := List.exists_cons_of_ne_nil hheader
        have hdollar := p.header_first l (by rw [hl]; rfl)
        exact hfirst l (List.mem_append_right _ (by rw [hl]; exact List.mem_cons_self)) hdollar
  · intro hheader n
    exact preserved_of_first_header h hq hheader allowOverwrite n

end Preservation

instance (l : Text) : Decidable (IsLine l) :=
  decidable_of_iff ('\n' ∉ l.dropLast ∧ l.getLast? = some '\n') <| by
    constructor
    · rintro ⟨hmem, hlast⟩
      exact ⟨l.dropLast, hmem, (List.dropLast_append_getLast? _ hlast).symm⟩
    · rintro ⟨t, ht, rfl⟩
      simpa using ht

/-- A first payload with a header. -/
def schemaPayload : Payload where
  header := ["$host a\n".toList, "!cpu user,E\n".toList]
  stamp := "1.5 7 a\n".toList
  rows := ["cpu 0 1\n".toList]
  isLine := by decide +kernel
  header_lines := by decide +kernel
  header_first := by decide +kernel
  stamp_line := by decide +kernel
  row_lines := by decide +kernel

/-- A payload without a header. -/
def samplePayload : Payload where
  header := []
  stamp := "2.5 7 a\n".toList
  rows := ["cpu 0 2\n".toList]
  isLine := by decide +kernel
  header_lines := by decide +kernel
  header_first := by decide +kernel
  stamp_line := by decide +kernel
  row_lines := by decide +kernel

/-- A ring with these payloads. -/
def ringOf (ps : List Payload) : Ring := Ring.ofPayloads (ps.map Payload.buffer)

theorem preserved_iff_schemaFirst :
    (ringOf [schemaPayload, samplePayload, samplePayload]).queue.length = 3 ∧
      ∀ n, Preserved (ringOf [schemaPayload, samplePayload, samplePayload]).queue
        ((round false)^[n] (ringOf [schemaPayload, samplePayload, samplePayload])).queue := by
  obtain ⟨ids, h⟩ := rep_ofPayloads ([schemaPayload, samplePayload, samplePayload].map
    Payload.buffer)
  have hq : (ringOf [schemaPayload, samplePayload, samplePayload]).queue =
      [schemaPayload, samplePayload, samplePayload].map Payload.buffer := by
    decide +kernel
  refine ⟨by rw [hq]; rfl, ?_⟩
  apply (preserved_iff h hq false).mpr
  intro p hp
  obtain rfl : p = samplePayload := by simpa using hp
  rfl

/-- The schema is written again behind the first sample: one round puts its header at the end of that
sample. -/
theorem not_preserved_schemaSecond :
    (ringOf [samplePayload, schemaPayload]).queue =
        [samplePayload, schemaPayload].map Payload.buffer ∧
      ¬ ∀ n, Preserved (ringOf [samplePayload, schemaPayload]).queue
        ((round false)^[n] (ringOf [samplePayload, schemaPayload])).queue := by
  refine ⟨by decide +kernel, ?_⟩
  intro h
  have hqueue : ((round false)^[1] (ringOf [samplePayload, schemaPayload])).queue =
      [bufferOf (samplePayload.sample ++ schemaPayload.header), bufferOf schemaPayload.sample] := by
    decide +kernel
  have hfirst := (h 1).headers (bufferOf (samplePayload.sample ++ schemaPayload.header)) (by
    rw [hqueue]
    exact List.mem_cons_self)
  exact hfirst "$host a\n".toList (by decide +kernel) (by decide +kernel)

end DumpFile
