/-
# The kind of a monitor payload

A monitor payload is a schema rotation, which announces itself by a `$`, or a sample.  Its kind is found out three
times, of AMQP bytes or of decoded text:

* `readHost`, the host parser, looks at the first line behind the leading blanks, and in a rotation at the second;
* `parseMonitorPayloadArchiveHint`, the peek of the consumer, looks for a time as well, in the first 4096 characters;
* `appendMonitorPayloadToArchive`, the archive writer, runs the host parser and then asks whether the very first
  byte is a `$`.

On ASCII the two forms of a payload are read alike (`parseHost_asText`).  The kinds agree exactly when a payload
that announces a rotation begins with its `$`, and the peek meets no number beyond the doubles (`kindsAgree_iff`).
-/
import HpcPerfStats.ArchiveRotation
import HpcPerfStats.FloatArith
import HpcPerfStats.LiveWorker
import HpcPerfStats.TailScan

namespace PayloadKind

open PyText FloatArith CodonWire TailScan

/-! ## The host parser -/

/-- A payload: an AMQP body, or decoded text. -/
inductive Payload where
  | bytes (raw : Bytes)
  | text (s : String)

/-- The exceptions: a `ValueError` with its message, or the `OverflowError` of `int`. -/
inductive PayloadError where
  | valueError (message : String)
  | overflowError
  deriving DecidableEq

/-- What the scans look for, in bytes or in characters. -/
structure Signs (α : Type) where
  blank : α → Bool
  newline : α
  dollar : α

def byteSigns : Signs UInt8 where
  blank := fun b => [32, 9, 10, 13, 11, 12].contains b
  newline := 10
  dollar := 36

def charSigns : Signs Char where
  blank := fun c => [' ', '\t', '\n', '\r', '\u000b', '\u000c'].contains c
  newline := '\n'
  dollar := '$'

/-- `_ARCHIVE_HINT_PEEK_BYTES`. -/
def archiveHintPeekBytes : ℕ := 4096

section Scan

variable {α : Type} [DecidableEq α]

/-- The first line behind the blanks, and whether it begins with a `$`; then it is followed by the second line. -/
def headerPrefix (signs : Signs α) (raw : List α) : Except PayloadError (Bool × List α) :=
  match raw.dropWhile signs.blank with
  | [] => .error (.valueError "Empty message body")
  | c :: rest =>
      let line := (c :: rest).takeWhile (· != signs.newline)
      if c = signs.dollar then
        match (c :: rest).dropWhile (· != signs.newline) with
        | [] => .error (.valueError "Malformed '$' message: missing host line")
        | nl :: behind => .ok (true, line ++ nl :: behind.takeWhile (· != signs.newline))
      else .ok (false, line)

/-- The beginning of a payload without its blanks, and whether it begins with a `$`. -/
def peekPrefix (signs : Signs α) (raw : List α) : Option (Bool × List α) :=
  match (raw.take archiveHintPeekBytes).dropWhile signs.blank with
  | [] => none
  | c :: rest => some (decide (c = signs.dollar), c :: rest)

end Scan

def readHeader : Payload → Except PayloadError (Bool × String)
  | .bytes raw => (headerPrefix byteSigns raw).map fun p => (p.1, decodeReplace p.2)
  | .text s => (headerPrefix charSigns s.toList).map fun p => (p.1, String.ofList p.2)

/-- The host field of the header. -/
def hostField (isDollar : Bool) (text : String) : Except PayloadError String :=
  if isDollar then
    match splitSepMax '\n' 2 text with
    | _ :: line :: _ =>
        match splitMax 2 line with
        | _ :: host :: _ => .ok host
        | _ => .error (.valueError "Malformed '$' message: host line missing field")
    | _ => .error (.valueError "Malformed '$' message: missing host line")
  else
    match splitMax 3 text with
    | _ :: _ :: host :: _ => .ok host
    | _ => .error (.valueError "Malformed message: not enough fields to get host")

/-- `parse_host_from_monitor_payload`, with the `is_dollar` that it goes by. -/
def readHost (message : Payload) : Except PayloadError (Bool × String) := do
  let (isDollar, text) ← readHeader message
  let host ← hostField isDollar text
  return (isDollar, host)

def parseHostFromMonitorPayload (message : Payload) : Except PayloadError String :=
  (readHost message).map Prod.snd

/-! ## The peek -/

/-- `_plausible_unix_seconds_token`.  The `ValueError`s of `float` and of `int` of a NaN are caught, the
`OverflowError` of `int` of an infinity is not. -/
def plausibleUnixSecondsToken (token : String) : Except PayloadError (Option ℤ) :=
  match (pyFloat token).map toDouble with
  | none => .ok none
  | some .nan => .ok none
  | some (.inf _) => .error .overflowError
  | some (.fin q) =>
      let ts := Int.tdiv q.num q.den
      if ts < ArchiveRotation.minPlausibleUnixSeconds then .ok none else .ok (some ts)

/-- The first field of a line. -/
def firstField (line : String) : String :=
  (splitMax 1 line).headD ""

/-- One line behind the `$`. -/
def lineSecond (line : String) : Except PayloadError (Option ℤ) :=
  match (lstrip line).toList with
  | [] => .ok none
  | c :: _ => if c.isDigit then plausibleUnixSecondsToken (firstField (lstrip line)) else .ok none

/-- The first plausible second of the lines. -/
def firstSecond : List String → Except PayloadError (Option ℤ)
  | [] => .ok none
  | line :: lines =>
      match lineSecond line with
      | .error e => .error e
      | .ok (some ts) => .ok (some ts)
      | .ok none => firstSecond lines

def peekText : Payload → Option (Bool × String)
  | .bytes raw => (peekPrefix byteSigns raw).map fun p => (p.1, decodeReplace p.2)
  | .text s => (peekPrefix charSigns s.toList).map fun p => (p.1, String.ofList p.2)

/-- `_peek_monitor_dollar_and_unix_second`. -/
def peekMonitorDollarAndUnixSecond (message : Payload) : Except PayloadError (Bool × Option ℤ) :=
  match peekText message with
  | none => .ok (false, none)
  | some (isDollar, text) =>
      let lines := splitSepMax '\n' 16 text
      if isDollar then (firstSecond lines.tail).map fun ts => (true, ts)
      else (plausibleUnixSecondsToken (firstField (lines.headD ""))).map fun ts => (false, ts)

/-- `parse_monitor_payload_archive_hint`: host, second and `$` flag. -/
def parseMonitorPayloadArchiveHint (message : Payload) : Except PayloadError (String × Option ℤ × Bool) := do
  let host ← parseHostFromMonitorPayload message
  let (isDollar, unixSecond) ← peekMonitorDollarAndUnixSecond message
  return (host, unixSecond, isDollar)

/-! ## The archive writer -/

/-- `_coerce_monitor_payload`. -/
def coerceMonitorPayload : Payload → Bytes
  | .bytes raw => raw
  | .text s => encodeUtf8 s

/-- `append_monitor_payload_to_archive`, up to where it rotates or appends. -/
def appendMonitorPayloadToArchive (message : Payload) : Except PayloadError (String × Bool) :=
  let payload := coerceMonitorPayload message
  if payload.isEmpty then .error (.valueError "Empty message body")
  else do
    let host ← parseHostFromMonitorPayload (.bytes payload)
    return (host, payload.head? == some byteSigns.dollar)

example : appendMonitorPayloadToArchive (.text "$\n1 c001.example.edu\n") = .ok ("c001.example.edu", true) := by
  decide +kernel

/-! ## Bytes and text -/

/-- The scans find the same in two alphabets. -/
structure Signs.Matches {α β : Type} (s : Signs α) (t : Signs β) (f : α → β) : Prop where
  blank : ∀ a, t.blank (f a) = s.blank a
  newline : ∀ a, f a = t.newline ↔ a = s.newline
  dollar : ∀ a, f a = t.dollar ↔ a = s.dollar

section Match

variable {α β : Type} {s : Signs α} {t : Signs β} {f : α → β}

theorem Signs.Matches.dropBlanks (h : s.Matches t f) (raw : List α) :
    (raw.map f).dropWhile t.blank = (raw.dropWhile s.blank).map f := by
  rw [List.dropWhile_map, show t.blank ∘ f = s.blank from funext h.blank]

variable [DecidableEq α] [DecidableEq β]

theorem Signs.Matches.bne_newline (h : s.Matches t f) : (fun b => b != t.newline) ∘ f = fun a => a != s.newline := by
  funext a
  rw [Function.comp, Bool.eq_iff_iff, bne_iff_ne, bne_iff_ne]
  exact not_congr (h.newline a)

theorem Signs.Matches.takeLine (h : s.Matches t f) (raw : List α) :
    (raw.map f).takeWhile (· != t.newline) = (raw.takeWhile (· != s.newline)).map f := by
  rw [List.takeWhile_map, h.bne_newline]

theorem Signs.Matches.dropLine (h : s.Matches t f) (raw : List α) :
    (raw.map f).dropWhile (· != t.newline) = (raw.dropWhile (· != s.newline)).map f := by
  rw [List.dropWhile_map, h.bne_newline]

/-- The header of a translated payload is the translated header. -/
theorem headerPrefix_map (h : s.Matches t f) (raw : List α) :
    headerPrefix t (raw.map f) = (headerPrefix s raw).map fun p => (p.1, p.2.map f) := by
  unfold headerPrefix
  rw [h.dropBlanks]
  cases raw.dropWhile s.blank with
  | nil => rfl
  | cons c rest =>
      have hline := h.takeLine (c :: rest)
      have hbehind := h.dropLine (c :: rest)
      rw [List.map_cons] at hline hbehind ⊢
      simp only
      rw [hline, hbehind]
      by_cases hc : c = s.dollar
      · rw [if_pos hc, if_pos ((h.dollar c).mpr hc)]
        cases (c :: rest).dropWhile (· != s.newline) with
        | nil => rfl
        | cons nl behind =>
            rw [List.map_cons]
            simp only [Except.map]
            rw [h.takeLine, List.map_append, List.map_cons]
      · rw [if_neg hc, if_neg (fun h' => hc ((h.dollar c).mp h'))]
        rfl

theorem peekPrefix_map (h : s.Matches t f) (raw : List α) :
    peekPrefix t (raw.map f) = (peekPrefix s raw).map fun p => (p.1, p.2.map f) := by
  unfold peekPrefix
  rw [← List.map_take, h.dropBlanks]
  cases (raw.take archiveHintPeekBytes).dropWhile s.blank with
  | nil => rfl
  | cons c rest =>
      rw [List.map_cons]
      simp only [Option.map_some, List.map_cons]
      rw [show decide (f c = t.dollar) = decide (c = s.dollar) from decide_eq_decide.mpr (h.dollar c)]

end Match

/-- The header is a part of the payload. -/
theorem headerPrefix_subset {α : Type} [DecidableEq α] {s : Signs α} {raw : List α} {p : Bool × List α}
    (h : headerPrefix s raw = .ok p) : ∀ a ∈ p.2, a ∈ raw := by
  have hsub : ∀ a ∈ raw.dropWhile s.blank, a ∈ raw := fun a ha => (List.dropWhile_sublist _).subset ha
  unfold headerPrefix at h
  cases hdrop : raw.dropWhile s.blank with
  | nil =>
      rw [hdrop] at h
      cases h
  | cons c rest =>
      rw [hdrop] at h hsub
      simp only at h
      split_ifs at h
      · cases hbehind : (c :: rest).dropWhile (· != s.newline) with
        | nil =>
            rw [hbehind] at h
            cases h
        | cons nl behind =>
            rw [hbehind] at h
            obtain rfl := Except.ok.inj h
            have hmem : ∀ a ∈ nl :: behind, a ∈ raw := fun a ha =>
              hsub a ((List.dropWhile_sublist _).subset (hbehind ▸ ha))
            intro a ha
            rcases List.mem_append.mp ha with ha | ha
            · exact hsub a ((List.takeWhile_sublist _).subset ha)
            · rcases List.mem_cons.mp ha with rfl | ha
              · exact hmem _ List.mem_cons_self
              · exact hmem a (List.mem_cons_of_mem _ ((List.takeWhile_sublist _).subset ha))
      · obtain rfl := Except.ok.inj h
        intro a ha
        have hline : a ∈ (c :: rest).takeWhile (· != s.newline) := ha
        exact hsub a ((List.takeWhile_sublist _).subset hline)

theorem peekPrefix_subset {α : Type} [DecidableEq α] {s : Signs α} {raw : List α} {p : Bool × List α}
    (h : peekPrefix s raw = some p) : ∀ a ∈ p.2, a ∈ raw := by
  unfold peekPrefix at h
  split at h
  · cases h
  · rename_i c rest hdrop
    obtain rfl := Option.some.inj h
    intro a ha
    rw [← hdrop] at ha
    exact List.mem_of_mem_take ((List.dropWhile_sublist _).subset ha)

/-- A payload of ASCII bytes. -/
structure AsciiPayload where
  bytes : Bytes
  ascii : ∀ b ∈ bytes, b < 128

def AsciiPayload.asBytes (p : AsciiPayload) : Payload :=
  .bytes p.bytes

/-- The text of the payload. -/
def AsciiPayload.str (p : AsciiPayload) : String :=
  decodeAsciiReplace p.bytes

def AsciiPayload.asText (p : AsciiPayload) : Payload :=
  .text p.str

/-- One byte decoded. -/
def decodeByte (b : UInt8) : Char :=
  if b < 128 then Char.ofNat b.toNat else '\ufffd'

theorem decodeByte_matches : byteSigns.Matches charSigns decodeByte := by
  have hall : ∀ n < 256, charSigns.blank (decodeByte (UInt8.ofNat n)) = byteSigns.blank (UInt8.ofNat n) ∧
      (decodeByte (UInt8.ofNat n) = charSigns.newline ↔ UInt8.ofNat n = byteSigns.newline) ∧
      (decodeByte (UInt8.ofNat n) = charSigns.dollar ↔ UInt8.ofNat n = byteSigns.dollar) := by
    decide +kernel
  have hbyte : ∀ b : UInt8, charSigns.blank (decodeByte b) = byteSigns.blank b ∧
      (decodeByte b = charSigns.newline ↔ b = byteSigns.newline) ∧
      (decodeByte b = charSigns.dollar ↔ b = byteSigns.dollar) := by
    intro b
    have h := hall b.toNat (UInt8.toNat_lt b)
    rwa [UInt8.ofNat_toNat] at h
  exact ⟨fun b => (hbyte b).1, fun b => (hbyte b).2.1, fun b => (hbyte b).2.2⟩

theorem AsciiPayload.toList_str (p : AsciiPayload) : p.str.toList = p.bytes.map decodeByte :=
  String.toList_ofList

/-- A part of the bytes is decoded byte by byte. -/
theorem AsciiPayload.decode_part (p : AsciiPayload) {part : Bytes} (h : ∀ b ∈ part, b ∈ p.bytes) :
    decodeReplace part = String.ofList (part.map decodeByte) :=
  decodeReplace_ascii fun b hb => p.ascii b (h b hb)

theorem readHeader_asText (p : AsciiPayload) : readHeader p.asText = readHeader p.asBytes := by
  unfold AsciiPayload.asText AsciiPayload.asBytes readHeader
  simp only
  rw [p.toList_str, headerPrefix_map decodeByte_matches]
  cases hheader : headerPrefix byteSigns p.bytes with
  | error e => rfl
  | ok q =>
      simp only [Except.map]
      rw [p.decode_part (headerPrefix_subset hheader)]

/-- **The host parser reads the two forms alike.** -/
theorem readHost_asText (p : AsciiPayload) : readHost p.asText = readHost p.asBytes := by
  unfold readHost
  rw [readHeader_asText]

theorem parseHost_asText (p : AsciiPayload) :
    parseHostFromMonitorPayload p.asText = parseHostFromMonitorPayload p.asBytes := by
  unfold parseHostFromMonitorPayload
  rw [readHost_asText]

theorem peek_asText (p : AsciiPayload) :
    peekMonitorDollarAndUnixSecond p.asText = peekMonitorDollarAndUnixSecond p.asBytes := by
  have htext : peekText p.asText = peekText p.asBytes := by
    unfold AsciiPayload.asText AsciiPayload.asBytes peekText
    simp only
    rw [p.toList_str, peekPrefix_map decodeByte_matches]
    cases hpeek : peekPrefix byteSigns p.bytes with
    | none => rfl
    | some q =>
        simp only [Option.map_some]
        rw [p.decode_part (peekPrefix_subset hpeek)]
  unfold peekMonitorDollarAndUnixSecond
  rw [htext]

theorem hint_asText (p : AsciiPayload) :
    parseMonitorPayloadArchiveHint p.asText = parseMonitorPayloadArchiveHint p.asBytes := by
  unfold parseMonitorPayloadArchiveHint
  rw [parseHost_asText, peek_asText]

theorem append_asText (p : AsciiPayload) :
    appendMonitorPayloadToArchive p.asText = appendMonitorPayloadToArchive p.asBytes := by
  have hbytes : coerceMonitorPayload p.asText = coerceMonitorPayload p.asBytes := encodeUtf8_decodeAscii p.ascii
  unfold appendMonitorPayloadToArchive
  rw [hbytes]

/-! ## Whether a payload is a rotation -/

/-- The archive writer rotates. -/
def ArchivedAsDollar (message : Payload) : Prop :=
  ∃ host, appendMonitorPayloadToArchive message = .ok (host, true)

/-- The host parser reads a rotation. -/
def HostAsDollar (message : Payload) : Prop :=
  ∃ host, readHost message = .ok (true, host)

/-- The peek hints at a rotation. -/
def PeekedAsDollar (message : Payload) : Prop :=
  ∃ host second, parseMonitorPayloadArchiveHint message = .ok (host, second, true)

/-- The two forms have one host, or are rejected alike, and each is of the same kind to all. -/
structure AsciiPayload.KindsAgree (p : AsciiPayload) : Prop where
  sameHost : parseHostFromMonitorPayload p.asBytes = parseHostFromMonitorPayload p.asText
  host : ∀ m ∈ [p.asBytes, p.asText], (ArchivedAsDollar m ↔ HostAsDollar m)
  peek : ∀ m ∈ [p.asBytes, p.asText], (ArchivedAsDollar m ↔ PeekedAsDollar m)

/-- A rotation is announced: the first line behind the blanks begins with a `$`, and the second has two fields. -/
def AsciiPayload.Announced (p : AsciiPayload) : Prop :=
  ∃ head tail, p.str.toList.dropWhile charSigns.blank = '$' :: (head ++ '\n' :: tail) ∧ '\n' ∉ head ∧
    2 ≤ (split (String.ofList (tail.takeWhile (· != '\n')))).length

def AsciiPayload.BeginsWithDollar (p : AsciiPayload) : Prop :=
  p.str.toList.head? = some '$'

/-- The line begins with a digit, and its first field is beyond the doubles. -/
def TooLarge (line : String) : Prop :=
  ∃ c rest x, (lstrip line).toList = c :: rest ∧ c.isDigit = true ∧
    pyFloat (firstField (lstrip line)) = some (.fin x) ∧ 2 ^ 1024 - 2 ^ 970 ≤ |x|

/-- The peek of a text that begins with its `$` meets a number beyond the doubles before any plausible second. -/
def AsciiPayload.Overflows (p : AsciiPayload) : Prop :=
  ∃ pre line post, (splitSepMax '\n' 16 (takeChars archiveHintPeekBytes p.str)).tail = pre ++ line :: post ∧
    (∀ l ∈ pre, lineSecond l = .ok none) ∧ TooLarge line

/-! ## The lines of the header -/

theorem dropWhile_bne_cons {α : Type} [DecidableEq α] {nl x : α} {l behind : List α}
    (h : l.dropWhile (· != nl) = x :: behind) : x = nl ∧ l = l.takeWhile (· != nl) ++ nl :: behind := by
  have hx : x = nl := by
    have hnot := List.head?_dropWhile_not (· != nl) l
    rw [h] at hnot
    simpa using hnot
  refine ⟨hx, ?_⟩
  rw [← hx, ← h, hx]
  exact List.takeWhile_append_dropWhile.symm

theorem notMem_takeWhile_bne {α : Type} [DecidableEq α] (nl : α) (l : List α) : nl ∉ l.takeWhile (· != nl) := by
  intro hmem
  have h := List.mem_takeWhile_imp hmem
  exact absurd rfl (bne_iff_ne.mp h)

/-- The text up to a newline, and from it on. -/
theorem takeWhile_bne_append {α : Type} [DecidableEq α] {nl : α} {l : List α} (h : nl ∉ l) (r : List α) :
    (l ++ nl :: r).takeWhile (· != nl) = l ∧ (l ++ nl :: r).dropWhile (· != nl) = nl :: r := by
  have hall : ∀ a ∈ l, (a != nl) = true := fun a ha => bne_iff_ne.mpr fun heq => h (heq ▸ ha)
  rw [List.takeWhile_append_of_pos hall, List.dropWhile_append_of_pos hall]
  simp

theorem splitSepMax_two {l r : List Char} (hl : '\n' ∉ l) (hr : '\n' ∉ r) :
    splitSepMax '\n' 2 (String.ofList (l ++ '\n' :: r)) = [String.ofList l, String.ofList r] := by
  obtain ⟨htake, hdrop⟩ := takeWhile_bne_append hl r
  have hend : r.dropWhile (· != '\n') = [] :=
    List.dropWhile_eq_nil_iff.mpr fun a ha => bne_iff_ne.mpr fun heq => hr (heq ▸ ha)
  unfold splitSepMax
  rw [String.toList_ofList, splitSepMaxChars, hdrop]
  simp only
  rw [htake, splitSepMaxChars, hend]
  rfl

/-- The header of a rotation: the line of the `$` and the line behind it. -/
theorem headerPrefix_dollar_iff {cs text : List Char} : headerPrefix charSigns cs = .ok (true, text) ↔
    ∃ head tail, cs.dropWhile charSigns.blank = '$' :: (head ++ '\n' :: tail) ∧ '\n' ∉ head ∧
      text = '$' :: (head ++ '\n' :: tail.takeWhile (· != '\n')) := by
  unfold headerPrefix
  constructor
  · intro h
    split at h
    · cases h
    · rename_i c rest hdrop
      split_ifs at h with hc
      · have hc : c = '$' := hc
        subst hc
        split at h
        · cases h
        · rename_i nl behind hline
          obtain ⟨rfl, hsplit⟩ := dropWhile_bne_cons hline
          have hcons : ('$' :: rest).takeWhile (· != '\n') = '$' :: rest.takeWhile (· != '\n') := rfl
          refine ⟨rest.takeWhile (· != '\n'), behind, ?_, notMem_takeWhile_bne _ _, ?_⟩
          · rw [hdrop, hsplit]
            exact congrArg (· ++ '\n' :: behind) hcons
          · exact (congrArg Prod.snd (Except.ok.inj h)).symm
      · exact absurd (congrArg Prod.fst (Except.ok.inj h)) Bool.false_ne_true
  · rintro ⟨head, tail, hdrop, hhead, rfl⟩
    have hdollar : '\n' ∉ '$' :: head := by
      intro hmem
      rcases List.mem_cons.mp hmem with h | h
      · exact absurd h (by decide)
      · exact hhead h
    obtain ⟨htake, hrest⟩ := takeWhile_bne_append hdollar tail
    rw [hdrop]
    simp only
    rw [if_pos (by rfl), ← List.cons_append]
    have hrest' : ('$' :: head ++ '\n' :: tail).dropWhile (· != charSigns.newline) = '\n' :: tail := hrest
    have htake' : ('$' :: head ++ '\n' :: tail).takeWhile (· != charSigns.newline) = '$' :: head := htake
    rw [hrest', htake']
    rfl

/-- What the host parser goes by is the first character behind the blanks. -/
theorem headerPrefix_fst {cs : List Char} {p : Bool × List Char} (h : headerPrefix charSigns cs = .ok p) :
    p.1 = true ↔ (cs.dropWhile charSigns.blank).head? = some '$' := by
  unfold headerPrefix at h
  cases hdrop : cs.dropWhile charSigns.blank with
  | nil =>
      rw [hdrop] at h
      cases h
  | cons c rest =>
      rw [hdrop] at h
      simp only at h
      rw [List.head?_cons, Option.some.injEq]
      split_ifs at h with hc
      · split at h
        · cases h
        · rw [← Except.ok.inj h]
          exact iff_of_true rfl hc
      · rw [← Except.ok.inj h]
        exact iff_of_false Bool.false_ne_true hc

theorem readHost_eq_ok {message : Payload} {p : Bool × String} (h : readHost message = .ok p) :
    ∃ text, readHeader message = .ok (p.1, text) ∧ hostField p.1 text = .ok p.2 := by
  unfold readHost at h
  cases hheader : readHeader message with
  | error e =>
      rw [hheader] at h
      cases h
  | ok q =>
      rw [hheader] at h
      cases hhost : hostField q.1 q.2 with
      | error e =>
          simp only [Except.bind, bind, hhost] at h
          cases h
      | ok host =>
          simp only [Except.bind, bind, hhost] at h
          obtain rfl := Except.ok.inj h
          exact ⟨q.2, rfl, hhost⟩

theorem readHost_of {message : Payload} {isDollar : Bool} {text host : String}
    (hheader : readHeader message = .ok (isDollar, text)) (hhost : hostField isDollar text = .ok host) :
    readHost message = .ok (isDollar, host) := by
  unfold readHost
  rw [hheader]
  simp only [Except.bind, bind, hhost]
  rfl

theorem readHeader_text {s text : String} {isDollar : Bool} (h : readHeader (.text s) = .ok (isDollar, text)) :
    ∃ cs, headerPrefix charSigns s.toList = .ok (isDollar, cs) ∧ text = String.ofList cs := by
  unfold readHeader at h
  simp only at h
  cases hheader : headerPrefix charSigns s.toList with
  | error e =>
      rw [hheader] at h
      cases h
  | ok q =>
      rw [hheader] at h
      obtain ⟨rfl, rfl⟩ := Prod.mk.inj (Except.ok.inj h)
      exact ⟨q.2, rfl, rfl⟩

/-- The host line of a rotation is accepted with two fields. -/
theorem hostField_dollar {l r : List Char} (hl : '\n' ∉ l) (hr : '\n' ∉ r) :
    (∃ host, hostField true (String.ofList (l ++ '\n' :: r)) = .ok host) ↔ 2 ≤ (split (String.ofList r)).length := by
  unfold hostField
  rw [if_pos rfl, splitSepMax_two hl hr]
  simp only
  have hsame : 2 ≤ (splitMax 2 (String.ofList r)).length ↔ 2 ≤ (split (String.ofList r)).length := by
    rcases splitMax_eq_split 2 (String.ofList r) with ⟨-, heq⟩ | ⟨hlen, rest, heq, -⟩
    · rw [heq]
    · rw [heq, List.length_append, List.length_take]
      omega
  rw [← hsame]
  cases splitMax 2 (String.ofList r) with
  | nil => exact iff_of_false (by rintro ⟨host, ⟨⟩⟩) (by decide)
  | cons a fields =>
      cases fields with
      | nil => exact iff_of_false (by rintro ⟨host, ⟨⟩⟩) (by rw [List.length_singleton]; decide)
      | cons host fields => exact iff_of_true ⟨host, rfl⟩ (by rw [List.length_cons, List.length_cons]; omega)

/-- **The host parser reads a rotation** exactly when one is announced. -/
theorem hostAsDollar_iff (p : AsciiPayload) : HostAsDollar p.asText ↔ p.Announced := by
  have hdollar : ∀ {head : List Char}, '\n' ∉ head → '\n' ∉ '$' :: head := by
    intro head hhead hmem
    rcases List.mem_cons.mp hmem with h | h
    · exact absurd h (by decide)
    · exact hhead h
  constructor
  · rintro ⟨host, h⟩
    obtain ⟨text, hheader, hhost⟩ := readHost_eq_ok h
    obtain ⟨cs, hscan, rfl⟩ := readHeader_text hheader
    obtain ⟨head, tail, hdrop, hhead, rfl⟩ := headerPrefix_dollar_iff.mp hscan
    exact ⟨head, tail, hdrop, hhead, (hostField_dollar (hdollar hhead) (notMem_takeWhile_bne _ _)).mp ⟨host, hhost⟩⟩
  · rintro ⟨head, tail, hdrop, hhead, hfields⟩
    obtain ⟨host, hhost⟩ := (hostField_dollar (hdollar hhead) (notMem_takeWhile_bne _ _)).mpr hfields
    have hscan := headerPrefix_dollar_iff.mpr ⟨head, tail, hdrop, hhead, rfl⟩
    refine ⟨host, readHost_of ?_ hhost⟩
    unfold AsciiPayload.asText readHeader
    simp only
    rw [hscan]
    rfl

/-- A payload that is accepted is a rotation to the host parser when its first character behind the blanks is a `$`. -/
theorem readHost_fst {s : String} {p : Bool × String} (h : readHost (.text s) = .ok p) :
    p.1 = true ↔ (s.toList.dropWhile charSigns.blank).head? = some '$' := by
  obtain ⟨text, hheader, -⟩ := readHost_eq_ok h
  obtain ⟨cs, hscan, -⟩ := readHeader_text hheader
  exact headerPrefix_fst hscan

theorem parseHost_eq_ok {message : Payload} {host : String} (h : parseHostFromMonitorPayload message = .ok host) :
    ∃ isDollar, readHost message = .ok (isDollar, host) := by
  unfold parseHostFromMonitorPayload at h
  cases hread : readHost message with
  | error e =>
      rw [hread] at h
      cases h
  | ok p =>
      rw [hread] at h
      obtain rfl := Except.ok.inj h
      exact ⟨p.1, rfl⟩

/-! ## The archive writer and the first byte -/

theorem AsciiPayload.head_bytes (p : AsciiPayload) :
    (p.bytes.head? == some byteSigns.dollar) = true ↔ p.BeginsWithDollar := by
  unfold AsciiPayload.BeginsWithDollar
  rw [p.toList_str, beq_iff_eq]
  cases p.bytes with
  | nil => exact iff_of_false (by rintro ⟨⟩) (by rintro ⟨⟩)
  | cons b rest =>
      rw [List.map_cons, List.head?_cons, List.head?_cons, Option.some.injEq, Option.some.injEq]
      exact (decodeByte_matches.dollar b).symm

theorem append_eq_ok (p : AsciiPayload) {host : String} {isDollar : Bool} :
    appendMonitorPayloadToArchive p.asText = .ok (host, isDollar) ↔
      parseHostFromMonitorPayload p.asText = .ok host ∧ (isDollar = true ↔ p.BeginsWithDollar) := by
  rw [append_asText, parseHost_asText, ← p.head_bytes, ← Bool.eq_iff_iff]
  unfold appendMonitorPayloadToArchive AsciiPayload.asBytes coerceMonitorPayload
  simp only
  by_cases hempty : p.bytes.isEmpty = true
  · rw [if_pos hempty, List.isEmpty_iff.mp hempty]
    exact iff_of_false (by rintro ⟨⟩) (by rintro ⟨⟨⟩, -⟩)
  · rw [if_neg hempty]
    cases parseHostFromMonitorPayload (.bytes p.bytes) with
    | error e => exact iff_of_false (by rintro ⟨⟩) (by rintro ⟨⟨⟩, -⟩)
    | ok host' =>
        simp only [Except.bind, bind, pure, Except.pure, Except.ok.injEq, Prod.mk.injEq]
        exact and_congr_right fun _ => eq_comm

/-- The archive writer and the live worker go by the first character. -/
theorem append_live (p : AsciiPayload) {host : String} {isDollar : Bool}
    (h : appendMonitorPayloadToArchive p.asText = .ok (host, isDollar)) : isDollar = startsWith "$" p.str := by
  rw [Bool.eq_iff_iff, ((append_eq_ok p).mp h).2]
  unfold AsciiPayload.BeginsWithDollar startsWith
  cases p.str.toList with
  | nil => exact iff_of_false (by rintro ⟨⟩) (by decide)
  | cons c rest =>
      rw [List.head?_cons, Option.some.injEq]
      show c = '$' ↔ (('$' == c) && List.isPrefixOf [] rest) = true
      rw [List.isPrefixOf_nil_left, Bool.and_true, beq_iff_eq]
      exact eq_comm

theorem AsciiPayload.BeginsWithDollar.dropBlanks {p : AsciiPayload} (h : p.BeginsWithDollar) :
    (p.str.toList.dropWhile charSigns.blank).head? = some '$' := by
  obtain ⟨rest, hrest⟩ := List.head?_eq_some_iff.mp h
  rw [hrest]
  rfl

theorem archivedAsDollar_iff (p : AsciiPayload) :
    ArchivedAsDollar p.asText ↔ HostAsDollar p.asText ∧ p.BeginsWithDollar := by
  constructor
  · rintro ⟨host, h⟩
    obtain ⟨hparse, hdollar⟩ := (append_eq_ok p).mp h
    obtain ⟨isDollar, hread⟩ := parseHost_eq_ok hparse
    have hbegins := hdollar.mp rfl
    have htrue : isDollar = true := (readHost_fst hread).mpr hbegins.dropBlanks
    exact ⟨⟨host, htrue ▸ hread⟩, hbegins⟩
  · rintro ⟨⟨host, h⟩, hbegins⟩
    refine ⟨host, (append_eq_ok p).mpr ⟨?_, iff_of_true rfl hbegins⟩⟩
    unfold parseHostFromMonitorPayload
    rw [h]
    rfl

/-! ## The peek -/

theorem firstField_head {s : String} {c : Char} {rest : List Char} (h : s.toList = c :: rest)
    (hc : isSpace c = false) : (firstField s).toList.head? = some c := by
  have hdrop : (c :: rest).dropWhile isSpace = c :: rest := List.dropWhile_cons_of_neg (by rw [hc]; decide)
  unfold firstField splitMax
  rw [h, splitMaxChars_succ, nextToken, hdrop]
  simp only [List.map_cons, List.headD_cons, String.toList_ofList]
  rw [List.takeWhile_cons_of_pos (by rw [hc]; rfl)]
  rfl

/-- A line raises when its number is beyond the doubles. -/
theorem lineSecond_error_iff {line : String} : (∃ e, lineSecond line = .error e) ↔ TooLarge line := by
  unfold lineSecond TooLarge
  cases hline : (lstrip line).toList with
  | nil => exact iff_of_false (by rintro ⟨e, ⟨⟩⟩) (by rintro ⟨c, rest, x, ⟨⟩, -⟩)
  | cons c rest =>
      simp only
      by_cases hc : c.isDigit = true
      · rw [if_pos hc]
        have hhead := firstField_head hline (isDigit_not_isSpace hc)
        unfold plausibleUnixSecondsToken
        cases hfloat : pyFloat (firstField (lstrip line)) with
        | none => exact iff_of_false (by rintro ⟨e, ⟨⟩⟩) (by rintro ⟨c, rest, x, -, -, ⟨⟩, -⟩)
        | some x =>
            obtain ⟨q, rfl⟩ := pyFloat_of_isDigit hhead hc hfloat
            rw [Option.map_some, toDouble, roundDouble]
            by_cases hbound : 2 ^ 1024 - 2 ^ 970 ≤ |q|
            · rw [if_pos hbound]
              exact iff_of_true ⟨_, rfl⟩ ⟨c, rest, q, rfl, hc, rfl, hbound⟩
            · rw [if_neg hbound]
              simp only
              refine iff_of_false ?_ ?_
              · rintro ⟨e, he⟩
                split_ifs at he
              · rintro ⟨c', rest', x, -, -, hx, hlarge⟩
                obtain rfl := PyFloat.fin.inj (Option.some.inj hx)
                exact hbound hlarge
      · rw [if_neg hc]
        refine iff_of_false (by rintro ⟨e, ⟨⟩⟩) ?_
        rintro ⟨c', rest', x, hcons, hdigit, -⟩
        obtain ⟨rfl, -⟩ := List.cons.inj hcons
        exact hc hdigit

/-- The scan of the lines raises at the first number beyond the doubles, unless a second ends it before. -/
theorem firstSecond_error_iff : ∀ {lines : List String}, (∃ e, firstSecond lines = .error e) ↔
    ∃ pre line post, lines = pre ++ line :: post ∧ (∀ l ∈ pre, lineSecond l = .ok none) ∧ TooLarge line := by
  intro lines
  induction lines with
  | nil => exact iff_of_false (by rintro ⟨e, ⟨⟩⟩) (by rintro ⟨pre, line, post, h, -⟩; simp at h)
  | cons line lines ih =>
      -- the line in question is the first, or behind a first line without a second
      have hcons : (∃ pre l post, line :: lines = pre ++ l :: post ∧ (∀ l ∈ pre, lineSecond l = .ok none) ∧
          TooLarge l) ↔ TooLarge line ∨ (lineSecond line = .ok none ∧ ∃ pre l post, lines = pre ++ l :: post ∧
            (∀ l ∈ pre, lineSecond l = .ok none) ∧ TooLarge l) := by
        constructor
        · rintro ⟨pre, l, post, heq, hpre, hl⟩
          cases pre with
          | nil =>
              obtain ⟨rfl, -⟩ := List.cons.inj heq
              exact Or.inl hl
          | cons l' pre =>
              obtain ⟨rfl, rfl⟩ := List.cons.inj heq
              obtain ⟨hfirst, hmore⟩ := List.forall_mem_cons.mp hpre
              exact Or.inr ⟨hfirst, pre, l, post, rfl, hmore, hl⟩
        · rintro (hl | ⟨hfirst, pre, l, post, rfl, hpre, hl⟩)
          · exact ⟨[], line, lines, rfl, by rintro l ⟨⟩, hl⟩
          · exact ⟨line :: pre, l, post, rfl, List.forall_mem_cons.mpr ⟨hfirst, hpre⟩, hl⟩
      rw [hcons, ← lineSecond_error_iff, firstSecond]
      cases hline : lineSecond line with
      | error e => exact iff_of_true ⟨e, rfl⟩ (Or.inl ⟨e, rfl⟩)
      | ok second =>
          cases second with
          | some ts =>
              refine iff_of_false (by rintro ⟨e, ⟨⟩⟩) ?_
              rintro (⟨e, ⟨⟩⟩ | ⟨h, -⟩)
              cases h
          | none =>
              simp only
              rw [ih]
              constructor
              · exact fun h => Or.inr ⟨trivial, h⟩
              · rintro (⟨e, ⟨⟩⟩ | ⟨-, h⟩)
                exact h

/-- The peek of a payload that begins with its `$`. -/
theorem peek_of_begins {p : AsciiPayload} (h : p.BeginsWithDollar) :
    (∃ ts, peekMonitorDollarAndUnixSecond p.asText = .ok (true, ts)) ↔ ¬p.Overflows := by
  obtain ⟨rest, hrest⟩ := List.head?_eq_some_iff.mp h
  have htext : peekText p.asText = some (true, takeChars archiveHintPeekBytes p.str) := by
    unfold AsciiPayload.asText peekText peekPrefix takeChars
    simp only
    rw [hrest]
    rfl
  unfold peekMonitorDollarAndUnixSecond AsciiPayload.Overflows
  rw [htext, ← firstSecond_error_iff]
  simp only [if_true]
  cases firstSecond (splitSepMax '\n' 16 (takeChars archiveHintPeekBytes p.str)).tail with
  | error e => exact iff_of_false (by rintro ⟨ts, ⟨⟩⟩) (fun h => h ⟨e, rfl⟩)
  | ok ts => exact iff_of_true ⟨ts, rfl⟩ (by rintro ⟨e, ⟨⟩⟩)

/-- A `$` that the peek finds is the first character behind the blanks. -/
theorem dropBlanks_of_peek {s : String} {ts : Option ℤ}
    (h : peekMonitorDollarAndUnixSecond (.text s) = .ok (true, ts)) :
    (s.toList.dropWhile charSigns.blank).head? = some '$' := by
  unfold peekMonitorDollarAndUnixSecond peekText peekPrefix at h
  simp only at h
  cases hdrop : (s.toList.take archiveHintPeekBytes).dropWhile charSigns.blank with
  | nil =>
      rw [hdrop] at h
      cases h
  | cons c rest =>
      rw [hdrop] at h
      simp only [Option.map_some] at h
      have hc : c = '$' := by
        by_contra hno
        have hsample : decide (c = charSigns.dollar) = false := decide_eq_false hno
        rw [hsample, if_neg Bool.false_ne_true] at h
        cases hsecond : plausibleUnixSecondsToken
            (firstField ((splitSepMax '\n' 16 (String.ofList (c :: rest))).headD "")) with
        | error e =>
            rw [hsecond] at h
            cases h
        | ok second =>
            rw [hsecond] at h
            cases h
      have hall : s.toList.dropWhile charSigns.blank = c :: rest ++ s.toList.drop archiveHintPeekBytes := by
        rw [← List.take_append_drop archiveHintPeekBytes s.toList, List.dropWhile_append, hdrop]
        simp
      rw [hall, hc]
      rfl

theorem hint_eq_ok {message : Payload} {host : String} {second : Option ℤ} {isDollar : Bool} :
    parseMonitorPayloadArchiveHint message = .ok (host, second, isDollar) ↔
      parseHostFromMonitorPayload message = .ok host ∧
        peekMonitorDollarAndUnixSecond message = .ok (isDollar, second) := by
  unfold parseMonitorPayloadArchiveHint
  cases parseHostFromMonitorPayload message with
  | error e => exact iff_of_false (by rintro ⟨⟩) (by rintro ⟨⟨⟩, -⟩)
  | ok host' =>
      cases peekMonitorDollarAndUnixSecond message with
      | error e => exact iff_of_false (by rintro ⟨⟩) (by rintro ⟨-, ⟨⟩⟩)
      | ok q =>
          obtain ⟨isDollar', second'⟩ := q
          simp only [Except.bind, bind, pure, Except.pure, Except.ok.injEq, Prod.mk.injEq]
          exact ⟨fun ⟨h1, h2, h3⟩ => ⟨h1, h3, h2⟩, fun ⟨h1, h2, h3⟩ => ⟨h1, h3, h2⟩⟩

theorem peekedAsDollar_iff (p : AsciiPayload) : PeekedAsDollar p.asText ↔
    HostAsDollar p.asText ∧ ∃ ts, peekMonitorDollarAndUnixSecond p.asText = .ok (true, ts) := by
  constructor
  · rintro ⟨host, second, h⟩
    obtain ⟨hparse, hpeek⟩ := hint_eq_ok.mp h
    obtain ⟨isDollar, hread⟩ := parseHost_eq_ok hparse
    have htrue : isDollar = true := (readHost_fst hread).mpr (dropBlanks_of_peek hpeek)
    exact ⟨⟨host, htrue ▸ hread⟩, second, hpeek⟩
  · rintro ⟨⟨host, hread⟩, second, hpeek⟩
    refine ⟨host, second, hint_eq_ok.mpr ⟨?_, hpeek⟩⟩
    unfold parseHostFromMonitorPayload
    rw [hread]
    rfl

/-! ## When the kinds agree -/

theorem kinds_asText (p : AsciiPayload) : (ArchivedAsDollar p.asBytes ↔ ArchivedAsDollar p.asText) ∧
    (HostAsDollar p.asBytes ↔ HostAsDollar p.asText) ∧ (PeekedAsDollar p.asBytes ↔ PeekedAsDollar p.asText) := by
  unfold ArchivedAsDollar HostAsDollar PeekedAsDollar
  rw [append_asText, readHost_asText, hint_asText]
  exact ⟨Iff.rfl, Iff.rfl, Iff.rfl⟩

/-- It is enough that the kinds of the text agree. -/
theorem AsciiPayload.kindsAgree_of_text {p : AsciiPayload} (hhost : ArchivedAsDollar p.asText ↔ HostAsDollar p.asText)
    (hpeek : ArchivedAsDollar p.asText ↔ PeekedAsDollar p.asText) : p.KindsAgree := by
  obtain ⟨harchive, hhost', hpeek'⟩ := kinds_asText p
  refine ⟨(parseHost_asText p).symm, ?_, ?_⟩
  · intro m hm
    simp only [List.mem_cons, List.not_mem_nil, or_false] at hm
    rcases hm with rfl | rfl
    · rw [harchive, hhost', hhost]
    · exact hhost
  · intro m hm
    simp only [List.mem_cons, List.not_mem_nil, or_false] at hm
    rcases hm with rfl | rfl
    · rw [harchive, hpeek', hpeek]
    · exact hpeek

/-- **The kinds agree** exactly when a payload that announces a rotation begins with its `$`, and no number beyond
the doubles stands where the peek looks for a second. -/
theorem kindsAgree_iff (p : AsciiPayload) :
    p.KindsAgree ↔ (p.Announced → p.BeginsWithDollar ∧ ¬p.Overflows) := by
  constructor
  · intro h hannounced
    have htext : p.asText ∈ [p.asBytes, p.asText] := List.mem_cons_of_mem _ List.mem_cons_self
    have harchived := (h.host _ htext).mpr ((hostAsDollar_iff p).mpr hannounced)
    have hbegins := ((archivedAsDollar_iff p).mp harchived).2
    have hpeeked := (h.peek _ htext).mp harchived
    exact ⟨hbegins, (peek_of_begins hbegins).mp ((peekedAsDollar_iff p).mp hpeeked).2⟩
  · intro h
    apply AsciiPayload.kindsAgree_of_text
    · rw [archivedAsDollar_iff]
      refine and_iff_left_of_imp fun hhost => ?_
      exact (h ((hostAsDollar_iff p).mp hhost)).1
    · rw [archivedAsDollar_iff, peekedAsDollar_iff]
      refine and_congr_right fun hhost => ?_
      obtain ⟨hbegins, hfits⟩ := h ((hostAsDollar_iff p).mp hhost)
      exact iff_of_true hbegins ((peek_of_begins hbegins).mpr hfits)

/-- A rotation behind a newline: the host parser and the peek take it for one, the archive writer for a sample. -/
def behindNewline : AsciiPayload where
  bytes := "\n$\n1 c001.example.edu\n".toList.map fun c => UInt8.ofNat c.toNat
  ascii := by decide +kernel

theorem not_kindsAgree : ¬∀ p : AsciiPayload, p.KindsAgree := by
  intro h
  have hhost : readHost behindNewline.asBytes = .ok (true, "c001.example.edu") := by decide +kernel
  have hsample : appendMonitorPayloadToArchive behindNewline.asBytes = .ok ("c001.example.edu", false) := by
    decide +kernel
  obtain ⟨host, harchived⟩ := ((h behindNewline).host _ List.mem_cons_self).mpr ⟨_, hhost⟩
  rw [hsample] at harchived
  exact absurd (congrArg Prod.snd (Except.ok.inj harchived)) Bool.false_ne_true

end PayloadKind
