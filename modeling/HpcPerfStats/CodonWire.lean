/-
# The wire format of the Codon workers

A parse worker gets its stats lines through a pipe, and its answer comes back through another.
Both directions use frames: a version byte, a kind or status byte, the length of the payload
in four bytes, and the payload.

* `encodeRequest`, `decodeRequest`: the lines joined by newlines, as UTF-8
* `encodeResponseOk`: a fingerprint as two 32-bit integers and two doubles, or the parsed
  rows as JSON
* `encodeResponseErr`: the text of an error
* `decodeResponse`: the answer, or the error raised again

A line with a newline at its end comes back as two lines, the second of them empty, and an
empty list comes back from the list of one empty line.  `feedLine_append_newline` and
`feedLines_flatMap` say that the kernel reads both alike.  What does not fit is a payload of
2^32 bytes: its length has no four-byte form and packing it raises `struct.error`.
`roundTrip_iff` is the whole statement.
-/
import HpcPerfStats.CodonFeed
import HpcPerfStats.JsonText
import Mathlib.Tactic.Ring

namespace CodonWire

open PyText JsonText CodonFeed

/-! ## Bytes -/

abbrev Bytes := List UInt8

/-- `s.encode("utf-8")`. -/
def encodeUtf8 (s : String) : Bytes :=
  s.toByteArray.data.toList

/-- `bs.decode("utf-8")`; `none` is a `UnicodeDecodeError`. -/
def decodeUtf8 (bs : Bytes) : Option String :=
  String.fromUTF8? ⟨bs.toArray⟩

/-- The byte may follow the first byte of a character of three or four bytes. -/
def mayFollow (first second : UInt8) : Bool :=
  if first = 0xE0 then 0xA0 ≤ second && second ≤ 0xBF
  else if first = 0xED then 0x80 ≤ second && second ≤ 0x9F
  else if first = 0xF0 then 0x90 ≤ second && second ≤ 0xBF
  else if first = 0xF4 then 0x80 ≤ second && second ≤ 0x8F
  else 0xE1 ≤ first && first ≤ 0xF3 && 0x80 ≤ second && second ≤ 0xBF

/-- How many bytes of an ill-formed text one replacement character stands for. -/
def illFormedLength : Bytes → ℕ
  | a :: b :: rest =>
      if mayFollow a b then
        if 0xF0 ≤ a ∧ rest.head?.any (fun c => 0x80 ≤ c && c ≤ 0xBF) = true then 3 else 2
      else 1
  | _ => 1

def replaceIllFormed : ℕ → Bytes → List Char
  | 0, _ => []
  | _, [] => []
  | fuel + 1, b :: bs =>
      match ByteArray.utf8DecodeChar? ⟨(b :: bs).toArray⟩ 0 with
      | some c => c :: replaceIllFormed fuel ((b :: bs).drop c.utf8Size)
      | none => '\ufffd' :: replaceIllFormed fuel ((b :: bs).drop (illFormedLength (b :: bs)))

/-- `bs.decode("utf-8", errors="replace")`. -/
def decodeReplace (bs : Bytes) : String :=
  match decodeUtf8 bs with
  | some s => s
  | none => String.ofList (replaceIllFormed bs.length bs)

/-- The last `k` bytes of a number, the most significant first. -/
def packBE : ℕ → ℕ → Bytes
  | 0, _ => []
  | k + 1, n => UInt8.ofNat (n / 256 ^ k) :: packBE k n

def unpackBE (bs : Bytes) : ℕ :=
  bs.foldl (fun acc b => acc * 256 + b.toNat) 0

/-- The signed number of 32 bits. -/
def toSigned (n : ℕ) : ℤ :=
  if n < 2 ^ 31 then n else n - 2 ^ 32

/-! ## Frames -/

/-- What the codec raises. -/
inductive WireError where
  | valueError (message : String)
  | runtimeError (message : String)
  | structError
  | unicodeDecodeError
  | jsonDecodeError
  deriving DecidableEq

/-- The kind of a request; any other text is a `ValueError` before anything is packed. -/
inductive Kind where
  | fp
  | parse
  deriving DecidableEq

def protoVer : UInt8 := 1

/-- `KIND_FP`, `KIND_PARSE`. -/
def Kind.byte : Kind → UInt8
  | .fp => 1
  | .parse => 2

def statusOk : UInt8 := 0
def statusErr : UInt8 := 1

/-- `_REQ_HDR.size`, `_RESP_HDR.size`. -/
def headerSize : ℕ := 6

/-- `_REQ_HDR.pack(PROTO_VER, tag, len(payload)) + payload`. -/
def packFrame (tag : UInt8) (payload : Bytes) : Except WireError Bytes :=
  if payload.length < 2 ^ 32 then .ok (protoVer :: tag :: packBE 4 payload.length ++ payload)
  else .error .structError

/-- The tag and the payload of a frame; `what` is the word for it in the errors. -/
def unpackFrame (what : String) (frame : Bytes) : Except WireError (UInt8 × Bytes) :=
  match frame with
  | ver :: tag :: a :: b :: c :: d :: rest =>
      if ver ≠ protoVer then
        .error (.runtimeError ("codon ipc version mismatch: " ++ toString ver.toNat))
      else if rest.length < unpackBE [a, b, c, d] then
        .error (.runtimeError ("codon ipc " ++ what ++ " body short"))
      else .ok (tag, rest.take (unpackBE [a, b, c, d]))
  | _ => .error (.valueError ("codon ipc " ++ what ++ " truncated"))

/-! ## Requests -/

/-- `"\n".join(lines)`. -/
def joinLines (lines : List String) : String :=
  String.ofList (List.intercalate ['\n'] (lines.map String.toList))

/-- `encode_request`. -/
def encodeRequest (kind : Kind) (lines : List String) : Except WireError Bytes :=
  packFrame kind.byte (encodeUtf8 (joinLines lines))

/-- The kind that a tag stands for. -/
def kindOfByte (tag : UInt8) : Except WireError Kind :=
  if tag = Kind.fp.byte then .ok .fp
  else if tag = Kind.parse.byte then .ok .parse
  else .error (.runtimeError ("codon ipc unknown kind=" ++ toString tag.toNat))

/-- The lines of a payload; an empty one holds none. -/
def linesOf (body : Bytes) : Except WireError (List String) :=
  if body = [] then .ok []
  else
    match decodeUtf8 body with
    | none => .error .unicodeDecodeError
    | some s => .ok (splitSep '\n' s)

/-- `decode_request`. -/
def decodeRequest (frame : Bytes) : Except WireError (Kind × List String) := do
  let (tag, body) ← unpackFrame "request" frame
  let kind ← kindOfByte tag
  let lines ← linesOf body
  .ok (kind, lines)

/-! ## Responses -/

/-- The eight bytes `struct` writes for a double. -/
structure FloatBits (F : Type) where
  bits : JsonFloat F → UInt64
  ofBits : UInt64 → JsonFloat F
  ofBits_bits : ∀ x, ofBits (bits x) = x

/-- The fingerprint of a file. -/
structure Fingerprint (F : Type) where
  rawStats : ℤ
  collapsedRows : ℤ
  valueSum : JsonFloat F
  procRows : JsonFloat F

/-- A row of the parsed statistics. -/
structure StatsRecord (F : Type) where
  time : JsonFloat F
  host : String
  jid : String
  typ : String
  dev : String
  event : String
  value : JsonFloat F
  wid : ℤ
  mult : JsonFloat F
  unit : String

variable {F : Type}

/-- The dictionary of a row. -/
def StatsRecord.toDict (r : StatsRecord F) : Json F :=
  .dict [("time", .float r.time), ("host", .str r.host), ("jid", .str r.jid), ("type", .str r.typ),
    ("dev", .str r.dev), ("event", .str r.event), ("value", .float r.value), ("wid", .int r.wid),
    ("mult", .float r.mult), ("unit", .str r.unit)]

/-- The fields of a process that are sent: an absent or negative one is left out. -/
def sentFields (p : Proc) : List (String × Json F) :=
  StatsParser.hostProcKeys.filterMap fun key =>
    match p.fields.lookup key with
    | some n => if n < 0 then none else some (key, .int n)
    | none => none

/-- The dictionary of a process. -/
def procDict (p : Proc) : Json F :=
  .dict ([("jid", Json.str p.jid), ("host", Json.str p.host), ("proc", Json.str p.proc)] ++ sentFields p)

/-- What a worker has computed. -/
inductive Outcome (F : Type) where
  | fp (fingerprint : Fingerprint F)
  | parse (stats : List (StatsRecord F)) (procs : List Proc)

def Outcome.kind : Outcome F → Kind
  | .fp _ => .fp
  | .parse _ _ => .parse

/-- The pair `(stats, procs)`, which JSON writes as a list. -/
def parseBody (stats : List (StatsRecord F)) (procs : List Proc) : Json F :=
  .list [.list (stats.map StatsRecord.toDict), .list (procs.map procDict)]

/-- What the parent gets. -/
inductive Reply (F : Type) where
  | fp (fingerprint : Fingerprint F)
  | parse (body : Json F)

/-- The reply that says what the worker has computed. -/
def Outcome.reply : Outcome F → Reply F
  | .fp fingerprint => .fp fingerprint
  | .parse stats procs => .parse (parseBody stats procs)

variable (fl : FloatText F) (fb : FloatBits F)

/-- `FP_STRUCT.pack`. -/
def packFingerprint (f : Fingerprint F) : Except WireError Bytes :=
  if -2 ^ 31 ≤ f.rawStats ∧ f.rawStats < 2 ^ 31
      ∧ -2 ^ 31 ≤ f.collapsedRows ∧ f.collapsedRows < 2 ^ 31 then
    .ok (packBE 4 (f.rawStats % 2 ^ 32).toNat ++ packBE 4 (f.collapsedRows % 2 ^ 32).toNat
      ++ packBE 8 (fb.bits f.valueSum).toNat ++ packBE 8 (fb.bits f.procRows).toNat)
  else .error .structError

/-- `FP_STRUCT.unpack`, of 24 bytes. -/
def unpackFingerprint (bs : Bytes) : Fingerprint F :=
  ⟨toSigned (unpackBE (bs.take 4)), toSigned (unpackBE ((bs.drop 4).take 4)),
    fb.ofBits (UInt64.ofNat (unpackBE ((bs.drop 8).take 8))),
    fb.ofBits (UInt64.ofNat (unpackBE ((bs.drop 16).take 8)))⟩

/-- `encode_response_ok`. -/
def encodeResponseOk (outcome : Outcome F) : Except WireError Bytes := do
  let payload ←
    match outcome with
    | .fp fingerprint => packFingerprint fb fingerprint
    | .parse stats procs => .ok (encodeUtf8 (dumps fl (parseBody stats procs)))
  packFrame statusOk payload

/-- `encode_response_err`. -/
def encodeResponseErr (message : String) : Except WireError Bytes :=
  packFrame statusErr (encodeUtf8 message)

/-- `decode_response`. -/
def decodeResponse (kind : Kind) (frame : Bytes) : Except WireError (Reply F) := do
  let (status, payload) ← unpackFrame "response" frame
  if status = statusErr then .error (.runtimeError (decodeReplace payload))
  else if status ≠ statusOk then
    .error (.runtimeError ("codon ipc unknown status=" ++ toString status.toNat))
  else
    match kind with
    | .fp =>
        if payload.length ≠ 24 then .error (.runtimeError "codon ipc fp payload size mismatch")
        else .ok (.fp (unpackFingerprint fb payload))
    | .parse =>
        match decodeUtf8 payload with
        | none => .error .unicodeDecodeError
        | some s =>
            match loads fl s with
            | none => .error .jsonDecodeError
            | some body => .ok (.parse body)

/-! ## Bytes are read back -/

theorem decodeUtf8_encodeUtf8 (s : String) : decodeUtf8 (encodeUtf8 s) = some s := by
  unfold decodeUtf8 encodeUtf8 String.fromUTF8?
  rw [Array.toArray_toList, dif_pos s.isValidUTF8]
  rfl

theorem decodeReplace_encodeUtf8 (s : String) : decodeReplace (encodeUtf8 s) = s := by
  unfold decodeReplace
  rw [decodeUtf8_encodeUtf8]

theorem encodeUtf8_eq_nil {s : String} (h : encodeUtf8 s = []) : s = "" := by
  have hdecode := decodeUtf8_encodeUtf8 s
  have hempty := decodeUtf8_encodeUtf8 ""
  rw [h] at hdecode
  exact Option.some.inj (hdecode.symm.trans hempty)

theorem length_packBE (k n : ℕ) : (packBE k n).length = k := by
  induction k with
  | zero => rfl
  | succ k ih => rw [packBE, List.length_cons, ih]

/-- The bytes of a number are read as the number. -/
theorem unpackBE_packBE (k n : ℕ) : unpackBE (packBE k n) = n % 256 ^ k := by
  have hgo : ∀ (k acc : ℕ), (packBE k n).foldl (fun acc b => acc * 256 + b.toNat) acc
      = acc * 256 ^ k + n % 256 ^ k := by
    intro k
    induction k with
    | zero =>
        intro acc
        rw [pow_zero, Nat.mod_one, Nat.mul_one]
        rfl
    | succ k ih =>
        intro acc
        have hbyte : (UInt8.ofNat (n / 256 ^ k)).toNat = n / 256 ^ k % 256 := rfl
        rw [packBE, List.foldl_cons, ih, hbyte, Nat.mod_pow_succ, pow_succ, Nat.add_mul]
        ring
  unfold unpackBE
  rw [hgo, Nat.zero_mul, Nat.zero_add]

/-! ## Frames are read back -/

theorem length_lt_of_packFrame {tag : UInt8} {payload frame : Bytes}
    (h : packFrame tag payload = .ok frame) : payload.length < 2 ^ 32 := by
  unfold packFrame at h
  split_ifs at h with hlen
  exact hlen

/-- **A packed frame is unpacked.** -/
theorem unpackFrame_packFrame {tag : UInt8} {payload frame : Bytes} (what : String)
    (h : packFrame tag payload = .ok frame) : unpackFrame what frame = .ok (tag, payload) := by
  have hlen := length_lt_of_packFrame h
  unfold packFrame at h
  rw [if_pos hlen] at h
  have hsize : unpackBE (packBE 4 payload.length) = payload.length := by
    rw [unpackBE_packBE]
    exact Nat.mod_eq_of_lt hlen
  rw [← Except.ok.inj h]
  show (if payload.length < unpackBE (packBE 4 payload.length) then
      Except.error (WireError.runtimeError ("codon ipc " ++ what ++ " body short"))
    else .ok (tag, payload.take (unpackBE (packBE 4 payload.length)))) = _
  rw [hsize, if_neg (Nat.lt_irrefl _), List.take_length]

/-! ## Lines are read back -/

/-- The text holds no newline but perhaps at its end. -/
def OneNewline (line : String) : Prop :=
  '\n' ∉ line.toList.dropLast

instance (line : String) : Decidable (OneNewline line) :=
  inferInstanceAs (Decidable (¬ _))

theorem splitSepChars_append_cons (sep : Char) (cs ds : List Char) :
    splitSepChars sep (cs ++ sep :: ds) = splitSepChars sep cs ++ splitSepChars sep ds := by
  have hsep : splitSepChars sep (sep :: ds) = [] :: splitSepChars sep ds := by
    rw [splitSepChars, if_pos rfl]
  rw [splitSepChars_append hsep, List.append_nil]

/-- The parts of joined lines are the parts of the lines. -/
theorem splitSep_joinLines (line : String) (lines : List String) :
    splitSep '\n' (joinLines (line :: lines)) = (line :: lines).flatMap (splitSep '\n') := by
  have hchars : splitSepChars '\n' (List.intercalate ['\n'] ((line :: lines).map String.toList))
      = (line :: lines).flatMap fun l => splitSepChars '\n' l.toList := by
    induction lines generalizing line with
    | nil => simp [List.intercalate]
    | cons next lines ih =>
        rw [List.map_cons, List.map_cons, List.intercalate_cons_cons, List.append_assoc,
          List.singleton_append, splitSepChars_append_cons, ← List.map_cons, ih]
        rfl
  unfold joinLines splitSep
  rw [String.toList_ofList, hchars, List.map_flatMap]

/-- The lines of a request as they come back: none from an empty payload. -/
theorem linesOf_joinLines (lines : List String) : linesOf (encodeUtf8 (joinLines lines))
    = .ok (if joinLines lines = "" then [] else lines.flatMap (splitSep '\n')) := by
  unfold linesOf
  by_cases hempty : joinLines lines = ""
  · rw [if_pos (by rw [hempty]; rfl), if_pos hempty]
  · rw [if_neg fun hnil => hempty (encodeUtf8_eq_nil hnil), if_neg hempty, decodeUtf8_encodeUtf8]
    cases lines with
    | nil => exact absurd rfl hempty
    | cons line lines =>
        dsimp only
        rw [splitSep_joinLines]

theorem decodeRequest_encodeRequest {kind : Kind} {lines : List String} {frame : Bytes}
    (h : encodeRequest kind lines = .ok frame) :
    decodeRequest frame = .ok (kind, if joinLines lines = "" then []
      else lines.flatMap (splitSep '\n')) := by
  have hkind : kindOfByte kind.byte = .ok kind := by
    cases kind with
    | fp => rfl
    | parse => rfl
  unfold decodeRequest
  rw [unpackFrame_packFrame "request" h]
  show ((kindOfByte kind.byte).bind fun kind =>
    (linesOf (encodeUtf8 (joinLines lines))).bind fun lines => .ok (kind, lines)) = _
  rw [hkind, linesOf_joinLines]
  rfl

example : ((encodeRequest .parse ["a\r\n", "", "b"]).bind decodeRequest).toOption
    = some (.parse, ["a\r", "", "", "b"]) := by
  decide +kernel

/-! ## The kernel reads the lines alike -/

theorem toList_append_newline (s : String) : (s ++ "\n").toList = s.toList ++ ['\n'] := by
  rw [String.toList_append]
  rfl

theorem rstrip_append_newline (s : String) : rstrip (s ++ "\n") = rstrip s := by
  apply String.toList_injective
  rw [toList_rstrip, toList_rstrip, toList_append_newline, List.rdropWhile_concat_pos _ _ _ rfl]

theorem split_append_newline (s : String) : split (s ++ "\n") = split s := by
  rw [← split_rstrip, rstrip_append_newline, split_rstrip]

theorem startsWith_append_newline {p : String} (s : String)
    (hp : (p.toList.all fun c => !isSpace c) = true) : startsWith p (s ++ "\n") = startsWith p s := by
  rw [← startsWith_rstrip (s ++ "\n") hp, rstrip_append_newline, startsWith_rstrip s hp]

/-- A newline behind a line changes nothing for the kernel. -/
theorem feedLine_append_newline (startIdx : ℤ) (k : Feed) (s : String) :
    k.feedLine startIdx (s ++ "\n") = k.feedLine startIdx s := by
  cases hs : s.toList with
  | nil =>
      -- a newline alone is a blank, and no line is begun by a blank
      have hhead : (s ++ "\n").toList.head? = some '\n' := by
        rw [toList_append_newline, hs]
        rfl
      rw [feedLine_of_isSpace hhead rfl, Feed.feedLine, hs]
      rfl
  | cons c cs =>
      have hhead : (s ++ "\n").toList.head? = s.toList.head? := by
        rw [toList_append_newline, hs]
        rfl
      unfold Feed.feedLine Feed.feedRow Feed.feedHeader Feed.feedSchema
      rw [hhead, split_append_newline, startsWith_append_newline s (by decide)]

theorem feedLine_empty (startIdx : ℤ) (k : Feed) : k.feedLine startIdx "" = .ok k := rfl

/-- The parts of a line are read as the line. -/
theorem feedLine_splitSep {line : String} (hline : OneNewline line) (startIdx : ℤ) (k : Feed) :
    (splitSep '\n' line).foldlM (Feed.feedLine startIdx) k = k.feedLine startIdx line := by
  rcases List.eq_nil_or_concat line.toList with hnil | ⟨front, last, hfront⟩
  · have hempty : line = "" := String.toList_injective hnil
    subst hempty
    rfl
  · have hline' : '\n' ∉ front := by
      unfold OneNewline at hline
      rwa [hfront, List.concat_eq_append, List.dropLast_concat] at hline
    by_cases hlast : last = '\n'
    · subst hlast
      have hs : line = String.ofList front ++ "\n" := by
        apply String.toList_injective
        rw [toList_append_newline, String.toList_ofList, hfront, List.concat_eq_append]
      have hsplit : splitSep '\n' line = [String.ofList front, ""] := by
        unfold splitSep
        rw [hfront, List.concat_eq_append, splitSepChars_append_cons,
          TokenText.splitSepChars_self hline']
        rfl
      rw [hsplit, hs, feedLine_append_newline, List.foldlM_cons]
      cases k.feedLine startIdx (String.ofList front) with
      | error e => rfl
      | ok k' => rfl
    · have hself : '\n' ∉ line.toList := by
        rw [hfront, List.concat_eq_append, List.mem_append, List.mem_singleton]
        rintro (hmem | heq)
        · exact hline' hmem
        · exact hlast heq.symm
      have hsplit : splitSep '\n' line = [line] := by
        unfold splitSep
        rw [TokenText.splitSepChars_self hself, List.map_singleton, String.ofList_toList]
      rw [hsplit, List.foldlM_cons]
      cases k.feedLine startIdx line with
      | error e => rfl
      | ok k' => rfl

/-- The parts of all lines are read as the lines. -/
theorem feedLines_flatMap {lines : List String} (hlines : ∀ line ∈ lines, OneNewline line)
    (startIdx : ℤ) (k : Feed) :
    (lines.flatMap (splitSep '\n')).foldlM (Feed.feedLine startIdx) k
      = lines.foldlM (Feed.feedLine startIdx) k := by
  induction lines generalizing k with
  | nil => rfl
  | cons line lines ih =>
      have hline := hlines line List.mem_cons_self
      have hrest := fun l hl => hlines l (List.mem_cons_of_mem line hl)
      rw [List.flatMap_cons, List.foldlM_append, feedLine_splitSep hline, List.foldlM_cons]
      congr 1
      funext k'
      exact ih hrest k'

/-- Lines that join to the empty text are at most one empty line. -/
theorem feedLines_of_joinLines_empty {lines : List String} (h : joinLines lines = "")
    (startIdx : ℤ) : feedLinesFull lines startIdx = .ok Feed.init := by
  rcases lines with _ | ⟨line, _ | ⟨next, lines⟩⟩
  · rfl
  · have hline : line = "" := by
      apply String.toList_injective
      have htext := congrArg String.toList h
      simpa [joinLines, List.intercalate] using htext
    subst hline
    rfl
  · -- a newline stands between two lines
    have htext := congrArg String.toList h
    unfold joinLines at htext
    rw [String.toList_ofList, List.map_cons, List.map_cons, List.intercalate_cons_cons] at htext
    simp at htext

/-- **The lines of a request mean to the kernel what the lines sent mean.** -/
theorem feedLinesFull_decoded {lines : List String} (hlines : ∀ line ∈ lines, OneNewline line)
    (startIdx : ℤ) :
    feedLinesFull (if joinLines lines = "" then [] else lines.flatMap (splitSep '\n')) startIdx
      = feedLinesFull lines startIdx := by
  by_cases hempty : joinLines lines = ""
  · rw [if_pos hempty, feedLines_of_joinLines_empty hempty]
    rfl
  · rw [if_neg hempty]
    exact feedLines_flatMap hlines startIdx Feed.init

/-! ## Responses are read back -/

theorem toSigned_mod {n : ℤ} (hlow : -2 ^ 31 ≤ n) (hhigh : n < 2 ^ 31) :
    toSigned (unpackBE (packBE 4 (n % 2 ^ 32).toNat)) = n := by
  have hnat : (n % 2 ^ 32).toNat % 256 ^ 4 = (n % 2 ^ 32).toNat := by
    apply Nat.mod_eq_of_lt
    omega
  rw [unpackBE_packBE, hnat]
  unfold toSigned
  split_ifs with h
  · omega
  · omega

theorem ofNat_unpackBE (bits : UInt64) : UInt64.ofNat (unpackBE (packBE 8 bits.toNat)) = bits := by
  have hlt : bits.toNat % 256 ^ 8 = bits.toNat := Nat.mod_eq_of_lt bits.toNat_lt
  rw [unpackBE_packBE, hlt, UInt64.ofNat_toNat]

/-- The integers of a fingerprint have 32 bits. -/
def Fingerprint.Fits (f : Fingerprint F) : Prop :=
  -2 ^ 31 ≤ f.rawStats ∧ f.rawStats < 2 ^ 31 ∧ -2 ^ 31 ≤ f.collapsedRows ∧ f.collapsedRows < 2 ^ 31

theorem unpackFingerprint_append {a b c d : Bytes} (ha : a.length = 4) (hb : b.length = 4)
    (hc : c.length = 8) (hd : d.length = 8) :
    unpackFingerprint fb (a ++ b ++ c ++ d) = ⟨toSigned (unpackBE a), toSigned (unpackBE b),
      fb.ofBits (UInt64.ofNat (unpackBE c)), fb.ofBits (UInt64.ofNat (unpackBE d))⟩ := by
  have h4 : (a ++ b ++ c ++ d).drop 4 = b ++ c ++ d := by
    rw [List.append_assoc, List.append_assoc, List.drop_left' ha, List.append_assoc]
  have h8 : (a ++ b ++ c ++ d).drop 8 = c ++ d := by
    rw [List.append_assoc, List.drop_left' (by rw [List.length_append, ha, hb])]
  have h16 : (a ++ b ++ c ++ d).drop 16 = d := by
    rw [List.drop_left' (by rw [List.length_append, List.length_append, ha, hb, hc])]
  unfold unpackFingerprint
  rw [h4, h8, h16, List.append_assoc, List.append_assoc, List.take_left' ha, List.append_assoc,
    List.take_left' hb, List.take_left' hc, List.take_of_length_le (by omega)]

theorem packFingerprint_of_fits {f : Fingerprint F} (h : f.Fits) :
    ∃ bs, packFingerprint fb f = .ok bs ∧ bs.length = 24 ∧ unpackFingerprint fb bs = f := by
  refine ⟨_, if_pos h, ?_, ?_⟩
  · simp only [List.length_append, length_packBE]
  · obtain ⟨hraw, hraw', hcol, hcol'⟩ := h
    rw [unpackFingerprint_append fb (length_packBE 4 _) (length_packBE 4 _) (length_packBE 8 _)
      (length_packBE 8 _), toSigned_mod hraw hraw', toSigned_mod hcol hcol', ofNat_unpackBE, ofNat_unpackBE,
      fb.ofBits_bits, fb.ofBits_bits]

theorem fits_of_packFingerprint {f : Fingerprint F} {bs : Bytes}
    (h : packFingerprint fb f = .ok bs) : f.Fits := by
  unfold packFingerprint at h
  split_ifs at h with hfits
  exact hfits

/-- The keys of the sent fields, in the order of the table. -/
theorem sentFields_sublist (p : Proc) :
    ((sentFields p : List (String × Json F)).map Prod.fst).Sublist StatsParser.hostProcKeys := by
  unfold sentFields
  induction StatsParser.hostProcKeys with
  | nil => exact List.Sublist.slnil
  | cons key keys ih =>
      rw [List.filterMap_cons]
      split
      · exact ih.cons key
      · rename_i q hq
        have hkey : q.1 = key := by
          split at hq
          · split_ifs at hq
            rw [← Option.some.inj hq]
          · cases hq
        rw [List.map_cons, hkey]
        exact ih.cons_cons key

/-- The sent fields are integers. -/
theorem keysDistinct_sentFields (p : Proc) {q : String × Json F} (hq : q ∈ sentFields p) :
    q.2.KeysDistinct := by
  obtain ⟨key, -, hkey⟩ := List.mem_filterMap.mp hq
  split at hkey
  · split_ifs at hkey
    rw [← Option.some.inj hkey]
    exact trivial
  · cases hkey

theorem keysDistinct_procDict (p : Proc) : (procDict p : Json F).KeysDistinct := by
  have hnames : (["jid", "host", "proc"] ++ StatsParser.hostProcKeys).Nodup := by decide
  constructor
  · rw [List.map_append]
    exact hnames.sublist ((List.Sublist.refl _).append (sentFields_sublist p))
  · rw [membersDistinct_iff]
    intro q hq
    rcases List.mem_append.mp hq with hq | hq
    · simp only [List.mem_cons, List.not_mem_nil, or_false] at hq
      rcases hq with rfl | rfl | rfl
      · exact trivial
      · exact trivial
      · exact trivial
    · exact keysDistinct_sentFields p hq

theorem keysDistinct_toDict (r : StatsRecord F) : r.toDict.KeysDistinct := by
  constructor
  · show ["time", "host", "jid", "type", "dev", "event", "value", "wid", "mult", "unit"].Nodup
    decide
  · simp [membersDistinct, Json.KeysDistinct]

theorem keysDistinct_parseBody (stats : List (StatsRecord F)) (procs : List Proc) :
    (parseBody stats procs).KeysDistinct := by
  have hstats : itemsDistinct (stats.map StatsRecord.toDict) := by
    rw [itemsDistinct_iff]
    intro v hv
    obtain ⟨r, -, rfl⟩ := List.mem_map.mp hv
    exact keysDistinct_toDict r
  have hprocs : itemsDistinct (procs.map (procDict (F := F))) := by
    rw [itemsDistinct_iff]
    intro v hv
    obtain ⟨p, -, rfl⟩ := List.mem_map.mp hv
    exact keysDistinct_procDict p
  exact ⟨hstats, hprocs, trivial⟩

/-- What a worker has computed has a frame. -/
def Outcome.Fits : Outcome F → Prop
  | .fp fingerprint => fingerprint.Fits
  | .parse stats procs => (encodeUtf8 (dumps fl (parseBody stats procs))).length < 2 ^ 32

theorem packFrame_of_lt (tag : UInt8) {payload : Bytes} (h : payload.length < 2 ^ 32) :
    ∃ frame, packFrame tag payload = .ok frame :=
  ⟨_, if_pos h⟩

/-- What a worker has computed, and what the parent decodes. -/
theorem decodeResponse_of_fits {outcome : Outcome F} (h : outcome.Fits fl) :
    ∃ frame, encodeResponseOk fl fb outcome = .ok frame
      ∧ decodeResponse fl fb outcome.kind frame = .ok outcome.reply := by
  cases outcome with
  | fp fingerprint =>
      obtain ⟨bs, hbs, hlen, hunpack⟩ := packFingerprint_of_fits fb h
      obtain ⟨frame, hframe⟩ := packFrame_of_lt statusOk (show bs.length < 2 ^ 32 by omega)
      refine ⟨frame, ?_, ?_⟩
      · show (packFingerprint fb fingerprint).bind _ = _
        rw [hbs]
        exact hframe
      · unfold decodeResponse
        rw [unpackFrame_packFrame "response" hframe]
        show (if bs.length ≠ 24 then _ else Except.ok (Reply.fp (unpackFingerprint fb bs))) = _
        rw [if_neg (not_not_intro hlen), hunpack]
        rfl
  | parse stats procs =>
      obtain ⟨frame, hframe⟩ := packFrame_of_lt statusOk h
      refine ⟨frame, hframe, ?_⟩
      unfold decodeResponse
      rw [unpackFrame_packFrame "response" hframe]
      show (match decodeUtf8 (encodeUtf8 (dumps fl (parseBody stats procs))) with
        | none => Except.error WireError.unicodeDecodeError
        | some s =>
            match loads fl s with
            | none => .error .jsonDecodeError
            | some body => .ok (Reply.parse body)) = _
      rw [decodeUtf8_encodeUtf8]
      dsimp only
      rw [loads_dumps fl _ (keysDistinct_parseBody stats procs)]
      rfl

theorem fits_of_encodeResponseOk {outcome : Outcome F} {frame : Bytes}
    (h : encodeResponseOk fl fb outcome = .ok frame) : outcome.Fits fl := by
  cases outcome with
  | fp fingerprint =>
      obtain ⟨bs, hbs, -⟩ := StatsParser.bind_ok h
      exact fits_of_packFingerprint fb hbs
  | parse stats procs => exact length_lt_of_packFrame h

theorem frame_of_encodeResponseOk {outcome : Outcome F} {frame : Bytes}
    (h : encodeResponseOk fl fb outcome = .ok frame) :
    ∃ payload, packFrame statusOk payload = .ok frame := by
  cases outcome with
  | fp fingerprint =>
      obtain ⟨bs, -, hframe⟩ := StatsParser.bind_ok h
      exact ⟨bs, hframe⟩
  | parse stats procs => exact ⟨_, h⟩

/-- The text of an error is raised again. -/
theorem decodeResponse_err {message : String} {frame : Bytes}
    (h : encodeResponseErr message = .ok frame) (kind : Kind) :
    decodeResponse fl fb kind frame = .error (.runtimeError message) := by
  unfold decodeResponse
  rw [unpackFrame_packFrame "response" h]
  show Except.error (WireError.runtimeError (decodeReplace (encodeUtf8 message))) = _
  rw [decodeReplace_encodeUtf8]

/-- **Frames are read back.**  The lines of a request come back with the same meaning, the
rows of a response and the text of an error as they were, exactly when what is sent fits. -/
theorem roundTrip_iff :
    (∀ (kind : Kind) (lines : List String) (startIdx : ℤ), (∀ line ∈ lines, OneNewline line) →
      ((∃ frame ls, encodeRequest kind lines = .ok frame ∧ decodeRequest frame = .ok (kind, ls)
          ∧ feedLinesFull ls startIdx = feedLinesFull lines startIdx)
        ↔ (encodeUtf8 (joinLines lines)).length < 2 ^ 32))
    ∧ (∀ outcome : Outcome F,
      (∃ frame, encodeResponseOk fl fb outcome = .ok frame
          ∧ decodeResponse fl fb outcome.kind frame = .ok outcome.reply)
        ↔ outcome.Fits fl)
    ∧ ∀ (kind : Kind) (message : String),
      (∃ frame, encodeResponseErr message = .ok frame
          ∧ decodeResponse fl fb kind frame = .error (.runtimeError message))
        ↔ (encodeUtf8 message).length < 2 ^ 32 := by
  refine ⟨?_, ?_, ?_⟩
  · intro kind lines startIdx hlines
    constructor
    · rintro ⟨frame, ls, hframe, -⟩
      exact length_lt_of_packFrame hframe
    · intro hlen
      obtain ⟨frame, hframe⟩ := packFrame_of_lt kind.byte hlen
      exact ⟨frame, _, hframe, decodeRequest_encodeRequest hframe,
        feedLinesFull_decoded hlines startIdx⟩
  · intro outcome
    constructor
    · rintro ⟨frame, hframe, -⟩
      exact fits_of_encodeResponseOk fl fb hframe
    · exact decodeResponse_of_fits fl fb
  · intro kind message
    constructor
    · rintro ⟨frame, hframe, -⟩
      exact length_lt_of_packFrame hframe
    · intro hlen
      obtain ⟨frame, hframe⟩ := packFrame_of_lt statusErr hlen
      exact ⟨frame, hframe, decodeResponse_err fl fb hframe kind⟩

/-- Three floats. -/
inductive SampleFloat where
  | zero
  | one
  | oneAndHalf
  deriving DecidableEq

def sampleText : FloatText SampleFloat where
  repr
    | .zero => ['0', '.', '0']
    | .one => ['1', '.', '0']
    | .oneAndHalf => ['1', '.', '5']
  ofText cs :=
    if cs = ['1', '.', '0'] then .one else if cs = ['1', '.', '5'] then .oneAndHalf else .zero
  repr_form := by
    intro x
    cases x with
    | zero => exact ⟨⟨['0'], ['.', '0'], []⟩, by decide⟩
    | one => exact ⟨⟨['1'], ['.', '0'], []⟩, by decide⟩
    | oneAndHalf => exact ⟨⟨['1'], ['.', '5'], []⟩, by decide⟩
  ofText_repr := by
    intro x
    cases x with
    | zero => rfl
    | one => rfl
    | oneAndHalf => rfl

def sampleBits : FloatBits SampleFloat where
  bits
    | .fin .zero => 0
    | .fin .one => 0x3FF0000000000000
    | .fin .oneAndHalf => 0x3FF8000000000000
    | .inf false => 0x7FF0000000000000
    | .inf true => 0xFFF0000000000000
    | .nan => 0x7FF8000000000000
  ofBits n :=
    if n = 0 then .fin .zero
    else if n = 0x3FF0000000000000 then .fin .one
    else if n = 0x3FF8000000000000 then .fin .oneAndHalf
    else if n = 0x7FF0000000000000 then .inf false
    else if n = 0xFFF0000000000000 then .inf true
    else .nan
  ofBits_bits := by
    intro x
    rcases x with (_ | _ | _) | (_ | _) | _
    all_goals decide

/-- A sample, an empty line and a row with a carriage return and a newline at its end. -/
def sampleLines : List String :=
  ["!cpu user,E\n", "", "1710000001 7 hosta", "cpu 0 5\r\n"]

def sampleRow : StatsRecord SampleFloat :=
  ⟨.fin .one, "hosta", "7", "cpu", "0", "us\"er\n", .nan, 64, .fin .oneAndHalf, "#"⟩

def sampleOutcome : Outcome SampleFloat :=
  .parse [sampleRow] [⟨"7", "hosta", "a/1/0/0", [("uid", 1001), ("threads", -1)]⟩]

theorem roundTrip_iff_sample :
    (∃ frame ls, encodeRequest .parse sampleLines = .ok frame
        ∧ decodeRequest frame = .ok (.parse, ls)
        ∧ feedLinesFull ls 0 = feedLinesFull sampleLines 0)
    ∧ (∃ frame, encodeResponseOk sampleText sampleBits sampleOutcome = .ok frame
        ∧ decodeResponse sampleText sampleBits .parse frame = .ok sampleOutcome.reply)
    ∧ ∃ frame, encodeResponseErr "ValueError: é" = .ok frame
        ∧ decodeResponse sampleText sampleBits .parse frame
          = .error (.runtimeError "ValueError: é") := by
  have hall := roundTrip_iff sampleText sampleBits
  refine ⟨(hall.1 .parse sampleLines 0 (by decide)).mpr (by decide +kernel),
    (hall.2.1 sampleOutcome).mpr ?_, (hall.2.2 .parse _).mpr (by decide +kernel)⟩
  show (encodeUtf8 (dumps sampleText (parseBody _ _))).length < 2 ^ 32
  decide +kernel

/-! ## A request that does not fit -/

theorem length_le_size_utf8Encode (cs : List Char) : cs.length ≤ cs.utf8Encode.size := by
  induction cs with
  | nil => exact Nat.zero_le _
  | cons c cs ih =>
      have hc : 0 < [c].utf8Encode.size := by
        rw [List.utf8Encode_singleton, List.size_toByteArray, String.length_utf8EncodeChar]
        exact Char.utf8Size_pos c
      rw [List.utf8Encode_cons, ByteArray.size_append, List.length_cons]
      omega

/-- A text has at least as many bytes as characters. -/
theorem length_le_length_encodeUtf8 (cs : List Char) :
    cs.length ≤ (encodeUtf8 (String.ofList cs)).length :=
  length_le_size_utf8Encode cs

/-- **A line of 2^32 characters.**  Its length has no four-byte form, so nothing is sent. -/
theorem not_all_requests_read :
    ¬ ∀ (kind : Kind) (lines : List String) (startIdx : ℤ), (∀ line ∈ lines, OneNewline line) →
      ∃ frame ls, encodeRequest kind lines = .ok frame ∧ decodeRequest frame = .ok (kind, ls)
        ∧ feedLinesFull ls startIdx = feedLinesFull lines startIdx := by
  intro hall
  have hline : OneNewline (String.ofList (List.replicate (2 ^ 32) 'a')) := by
    unfold OneNewline
    rw [String.toList_ofList]
    intro hmem
    exact absurd (List.eq_of_mem_replicate ((List.dropLast_subset _) hmem)) (by decide)
  obtain ⟨frame, ls, hframe, -⟩ := hall .parse [String.ofList (List.replicate (2 ^ 32) 'a')] 0
    (by
      intro line hmem
      rw [List.mem_singleton.mp hmem]
      exact hline)
  have hlong := length_le_length_encodeUtf8 (List.replicate (2 ^ 32) 'a')
  have hjoin : joinLines [String.ofList (List.replicate (2 ^ 32) 'a')]
      = String.ofList (List.replicate (2 ^ 32) 'a') := by
    unfold joinLines
    rw [List.map_singleton, String.toList_ofList, List.intercalate_singleton]
  have hshort := length_lt_of_packFrame hframe
  rw [hjoin] at hshort
  rw [List.length_replicate] at hlong
  omega

end CodonWire
