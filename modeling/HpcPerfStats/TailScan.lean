/-
# Headers from the tail of a file

The last header of a stats file, and the last few headers, are found without reading the file forward: its bytes
are snapshotted in blocks from the end on, and each block is split at newlines with the open line of the block
behind it.  A forward scan reads the lines with `readline` and decodes them as ASCII.

* `AsciiFile`: the bytes of a stats file
* `lastInPieces_eq`, `collectPieces_eq`: both tail readers go through the closed lines of the blocks
* `scansAgree`: for every size of the blocks they find what a forward scan finds
* `last_eq_statsFile`, `tail_eq_statsFile`: they are the headers of the decoded text
* `parseLast_load`: text mode, which takes a carriage return for a line break, loads the same last header from a
  file without one
-/
import HpcPerfStats.BlockLines
import HpcPerfStats.CodonWire
import HpcPerfStats.IngestStart

namespace TailScan

open PyText StatsParser IngestStart CodonWire BlockLines

/-! ## Files -/

/-- A stats file of ASCII bytes. -/
structure AsciiFile where
  bytes : Bytes
  ascii : ∀ b ∈ bytes, b < 128

def newline : UInt8 := 10

/-- `raw.decode("ascii", "replace")`. -/
def decodeAsciiReplace (raw : Bytes) : String :=
  String.ofList (raw.map fun b => if b < 128 then Char.ofNat b.toNat else '\ufffd')

/-- The time token, the job id and the host. -/
abbrev Identity := String × String × String

/-! ## Forward -/

/-- `iter_stats_file_lines`. -/
def iterStatsFileLines (f : AsciiFile) : List String :=
  (linesOf newline f.bytes).map decodeAsciiReplace

/-- `parse_last_timestamp_line`. -/
def parseLastTimestampLine (lines : List String) : Option Identity :=
  lines.reverse.findSome? fun line => if line = "" then none else lineIdentity line

/-- The line without the newline at its end. -/
def chomp (line : String) : String :=
  if line.toList.getLast? = some '\n' then String.ofList line.toList.dropLast else line

/-- A line that begins with a digit, without its newline. -/
def headerLine (line : String) : Option String :=
  if digitLeading line then some (chomp line) else none

/-- The last header lines of a forward scan, newest first. -/
def forwardTimestampLines (f : AsciiFile) (maxLines : ℤ) : List String :=
  ((iterStatsFileLines f).filterMap headerLine).reverse.take maxLines.toNat

/-! ## Backward -/

/-- `max(4096, int(tail_read_bytes))`. -/
def chunkSize (tailReadBytes : ℤ) : ℕ :=
  (max 4096 tailReadBytes).toNat

/-- The blocks that are snapshotted under the lock. -/
def pieces (f : AsciiFile) (tailReadBytes : ℤ) : List (ℕ × Bytes) :=
  blocksBack (chunkSize tailReadBytes) f.bytes f.bytes.length f.bytes.length

/-- The decoded line of a part, where it begins with a digit. -/
def rawHeaderLine (raw : Bytes) : Option String :=
  if raw = [] then none
  else
    let line := decodeReplace raw
    if digitLeading line then some line else none

def rawIdentity (raw : Bytes) : Option Identity :=
  (rawHeaderLine raw).bind fun line => digitLineIdentity (lstrip line)

/-- The loop of `parse_last_timestamp_line_streaming`. -/
def lastInPieces : Bytes → List (ℕ × Bytes) → Option Identity
  | _, [] => none
  | carry, (offset, rawBlock) :: rest =>
      let parts := (rawBlock ++ carry).splitOn newline
      match (if 0 < offset then parts.tail else parts).reverse.findSome? rawIdentity with
      | some parsed => some parsed
      | none => lastInPieces (if 0 < offset then parts.headD [] else []) rest

/-- `parse_last_timestamp_line_streaming`. -/
def parseLastTimestampLineStreaming (f : AsciiFile) (tailReadBytes : ℤ) : Option Identity :=
  if f.bytes.length = 0 then none else lastInPieces [] (pieces f tailReadBytes)

/-- The loop of `_collect_tail_timestamp_lines` over the parts of a block. -/
def collectParts (maxLines : ℤ) : List String → List Bytes → List String
  | collected, [] => collected
  | collected, raw :: parts =>
      if maxLines ≤ collected.length then collected
      else
        match rawHeaderLine raw with
        | none => collectParts maxLines collected parts
        | some line => collectParts maxLines (collected ++ [line]) parts

/-- The loop of `_collect_tail_timestamp_lines` over the blocks. -/
def collectPieces (maxLines : ℤ) : List String → Bytes → List (ℕ × Bytes) → List String
  | collected, _, [] => collected
  | collected, carry, (offset, rawBlock) :: rest =>
      if maxLines ≤ collected.length then collected
      else
        let parts := (rawBlock ++ carry).splitOn newline
        collectPieces maxLines
          (collectParts maxLines collected (if 0 < offset then parts.tail else parts).reverse)
          (if 0 < offset then parts.headD [] else []) rest

/-- `_collect_tail_timestamp_lines`. -/
def collectTailTimestampLines (f : AsciiFile) (tailReadBytes maxLines : ℤ) : List String :=
  if f.bytes.length = 0 ∨ maxLines ≤ 0 then [] else collectPieces maxLines [] [] (pieces f tailReadBytes)

/-! ## The blocks are the file -/

theorem chunkSize_pos (tailReadBytes : ℤ) : 0 < chunkSize tailReadBytes := by
  unfold chunkSize
  omega

theorem closedLines_pieces (f : AsciiFile) (tailReadBytes : ℤ) (hsize : f.bytes.length ≠ 0) :
    closedLines newline [] (pieces f tailReadBytes) = (f.bytes.splitOn newline).reverse := by
  unfold pieces
  rw [closedLines_blocksBack (chunkSize_pos tailReadBytes) newline f.bytes _ _ _ le_rfl
    (Nat.pos_of_ne_zero hsize), List.take_length, List.append_nil]

theorem lastInPieces_eq (rest : List (ℕ × Bytes)) : ∀ carry : Bytes,
    lastInPieces carry rest = (closedLines newline carry rest).findSome? rawIdentity := by
  induction rest with
  | nil =>
      intro carry
      rfl
  | cons piece rest ih =>
      intro carry
      obtain ⟨offset, rawBlock⟩ := piece
      rw [lastInPieces, closedLines]
      split_ifs with hoffset
      · rw [List.findSome?_append, ih]
        cases List.findSome? rawIdentity _ <;> rfl
      · rw [List.findSome?_append, ih]
        cases List.findSome? rawIdentity _ <;> rfl

theorem collectParts_eq {maxLines : ℤ} (parts : List Bytes) : ∀ collected : List String,
    (collected.length : ℤ) ≤ maxLines →
    collectParts maxLines collected parts
      = (collected ++ parts.filterMap rawHeaderLine).take maxLines.toNat := by
  induction parts with
  | nil =>
      intro collected hlen
      rw [collectParts, List.filterMap_nil, List.append_nil, List.take_of_length_le (by omega)]
  | cons raw parts ih =>
      intro collected hlen
      rw [collectParts]
      split_ifs with hfull
      · rw [List.take_append_of_le_length (by omega), List.take_of_length_le (by omega)]
      · cases hraw : rawHeaderLine raw with
        | none => rw [List.filterMap_cons_none hraw]; exact ih collected hlen
        | some line =>
            rw [List.filterMap_cons_some hraw]
            dsimp only
            rw [ih _ (by rw [List.length_append, List.length_singleton]; omega), List.append_assoc]
            rfl

theorem collectPieces_eq {maxLines : ℤ} (hmax : 0 ≤ maxLines) (rest : List (ℕ × Bytes)) :
    ∀ (collected : List String) (carry : Bytes), (collected.length : ℤ) ≤ maxLines →
    collectPieces maxLines collected carry rest
      = (collected ++ (closedLines newline carry rest).filterMap rawHeaderLine).take maxLines.toNat := by
  induction rest with
  | nil =>
      intro collected carry hlen
      rw [collectPieces, closedLines, List.filterMap_nil, List.append_nil,
        List.take_of_length_le (by omega)]
  | cons piece rest ih =>
      intro collected carry hlen
      obtain ⟨offset, rawBlock⟩ := piece
      rw [collectPieces]
      by_cases hfull : maxLines ≤ collected.length
      · rw [if_pos hfull, List.take_append_of_le_length (by omega), List.take_of_length_le (by omega)]
      · rw [if_neg hfull]
        dsimp only
        have hlen' : ∀ parts, ((collectParts maxLines collected parts).length : ℤ) ≤ maxLines := by
          intro parts
          rw [collectParts_eq parts collected hlen, List.length_take]
          omega
        -- what is cut off once stays cut off
        have htake : ∀ parts later : List Bytes,
            (collectParts maxLines collected parts ++ later.filterMap rawHeaderLine).take maxLines.toNat
              = (collected ++ (parts ++ later).filterMap rawHeaderLine).take maxLines.toNat := by
          intro parts later
          rw [collectParts_eq parts collected hlen, List.filterMap_append, ← List.append_assoc]
          generalize collected ++ parts.filterMap rawHeaderLine = front
          rw [List.take_append, List.take_append, List.take_take, Nat.min_self, List.length_take]
          congr 2
          omega
        rw [ih _ _ (hlen' _), closedLines]
        split_ifs
        · rw [htake]
        · rw [htake]

/-! ## Decoding -/

theorem utf8EncodeChar_ascii : ∀ n < 128, String.utf8EncodeChar (Char.ofNat n) = [UInt8.ofNat n] := by
  decide

theorem encodeUtf8_decodeAscii {raw : Bytes} (hascii : ∀ b ∈ raw, b < 128) :
    encodeUtf8 (decodeAsciiReplace raw) = raw := by
  unfold encodeUtf8 decodeAsciiReplace
  rw [String.toByteArray_ofList]
  induction raw with
  | nil => rfl
  | cons b raw ih =>
      have hb : b < 128 := hascii b List.mem_cons_self
      have hraw := ih fun b' hb' => hascii b' (List.mem_cons_of_mem b hb')
      rw [List.map_cons, if_pos hb, List.utf8Encode_cons, List.utf8Encode_singleton,
        utf8EncodeChar_ascii b.toNat (UInt8.lt_iff_toNat_lt.mp hb), UInt8.ofNat_toNat, ByteArray.data_append,
        Array.toList_append, hraw]
      rfl

/-- On ASCII bytes the two codecs agree. -/
theorem decodeReplace_ascii {raw : Bytes} (hascii : ∀ b ∈ raw, b < 128) :
    decodeReplace raw = decodeAsciiReplace raw := by
  rw [← decodeReplace_encodeUtf8 (decodeAsciiReplace raw), encodeUtf8_decodeAscii hascii]

theorem decodeAscii_newline (raw : Bytes) :
    (decodeAsciiReplace (raw ++ [newline])).toList = (decodeAsciiReplace raw).toList ++ ['\n'] := by
  unfold decodeAsciiReplace
  rw [String.toList_ofList, String.toList_ofList, List.map_append]
  rfl

/-! ## The newline behind a line -/

theorem isSpace_newline : ∀ c ∈ ['\n'], isSpace c = true := by
  intro c hc
  rw [List.mem_singleton.mp hc]
  rfl

section Newline

variable {line line' : String} (hline : line'.toList = line.toList ++ ['\n'])

include hline

theorem toList_lstrip_newline :
    (lstrip line').toList = if (lstrip line).toList = [] then [] else (lstrip line).toList ++ ['\n'] := by
  rw [toList_lstrip, toList_lstrip, hline, dropWhile_isSpace_append isSpace_newline]

theorem digitLeading_newline : digitLeading line' = digitLeading line := by
  unfold digitLeading
  rw [toList_lstrip_newline hline]
  cases (lstrip line).toList <;> rfl

theorem lineIdentity_newline : lineIdentity line' = lineIdentity line := by
  have hsplit : split (lstrip line') = split (lstrip line) := by
    unfold split
    rw [toList_lstrip, toList_lstrip, splitChars_dropWhile, splitChars_dropWhile, hline,
      splitChars_append isSpace_newline]
  unfold lineIdentity digitLineIdentity
  rw [digitLeading_newline hline, hsplit]

theorem chomp_newline : chomp line' = line := by
  unfold chomp
  rw [hline, List.getLast?_concat, if_pos rfl, List.dropLast_concat, String.ofList_toList]

end Newline

theorem lineIdentity_empty : lineIdentity "" = none := by
  unfold lineIdentity
  rw [if_neg]
  decide

theorem headerLine_empty : headerLine "" = none := by
  unfold headerLine
  rw [if_neg]
  decide

theorem chomp_of_notMem {line : String} (h : '\n' ∉ line.toList) : chomp line = line := by
  unfold chomp
  rw [if_neg]
  intro hlast
  exact h (List.mem_of_getLast? hlast)

theorem ofNat_eq_newline : ∀ n < 128, Char.ofNat n = '\n' → n = 10 := by
  decide

theorem newline_notMem_decode {raw : Bytes} (h : newline ∉ raw) : '\n' ∉ (decodeAsciiReplace raw).toList := by
  unfold decodeAsciiReplace
  rw [String.toList_ofList]
  intro hmem
  obtain ⟨b, hb, hchar⟩ := List.mem_map.mp hmem
  split_ifs at hchar with hascii
  · have hten := ofNat_eq_newline b.toNat (UInt8.lt_iff_toNat_lt.mp hascii) hchar
    have hnewline : b = newline := UInt8.toNat_inj.mp hten
    rw [hnewline] at hb
    exact h hb
  · revert hchar
    decide

theorem headerLine_newline {raw : Bytes} (h : newline ∉ raw) :
    headerLine (decodeAsciiReplace (raw ++ [newline])) = headerLine (decodeAsciiReplace raw) := by
  unfold headerLine
  rw [digitLeading_newline (decodeAscii_newline raw), chomp_newline (decodeAscii_newline raw),
    chomp_of_notMem (newline_notMem_decode h)]

/-! ## A part of the file -/

section Parts

variable {f : AsciiFile} {part : Bytes} (hpart : part ∈ f.bytes.splitOn newline)

include hpart

theorem decodeReplace_part : decodeReplace part = decodeAsciiReplace part :=
  decodeReplace_ascii fun b hb => f.ascii b (mem_of_mem_splitOn f.bytes hpart b hb).1

theorem newline_notMem_part : newline ∉ part := by
  intro hmem
  exact (mem_of_mem_splitOn f.bytes hpart newline hmem).2 rfl

theorem rawHeaderLine_part : rawHeaderLine part = headerLine (decodeAsciiReplace part) := by
  unfold rawHeaderLine headerLine
  by_cases hempty : part = []
  · rw [if_pos hempty, hempty, if_neg]
    decide
  · rw [if_neg hempty]
    dsimp only
    rw [decodeReplace_part hpart, chomp_of_notMem (newline_notMem_decode (newline_notMem_part hpart))]

theorem rawIdentity_part : rawIdentity part = lineIdentity (decodeAsciiReplace part) := by
  unfold rawIdentity lineIdentity
  rw [rawHeaderLine_part hpart]
  unfold headerLine
  rw [chomp_of_notMem (newline_notMem_decode (newline_notMem_part hpart))]
  split_ifs
  · exact Option.bind_some _ _
  · exact Option.bind_none _

end Parts

/-! ## The two scans -/

/-- The tail reader goes through the parts of the file. -/
theorem streaming_eq_parts (f : AsciiFile) (tailReadBytes : ℤ) :
    parseLastTimestampLineStreaming f tailReadBytes
      = ((f.bytes.splitOn newline).filterMap rawIdentity).reverse.head? := by
  unfold parseLastTimestampLineStreaming
  split_ifs with hsize
  · rw [List.length_eq_zero_iff.mp hsize]
    rfl
  · rw [lastInPieces_eq, closedLines_pieces f tailReadBytes hsize, ← List.head?_filterMap, List.filterMap_reverse]

theorem collect_eq_parts (f : AsciiFile) (tailReadBytes maxLines : ℤ) :
    collectTailTimestampLines f tailReadBytes maxLines
      = ((f.bytes.splitOn newline).filterMap rawHeaderLine).reverse.take maxLines.toNat := by
  unfold collectTailTimestampLines
  split_ifs with hnone
  · rcases hnone with hsize | hmax
    · rw [List.length_eq_zero_iff.mp hsize]
      exact List.take_nil.symm
    · rw [Int.toNat_of_nonpos hmax, List.take_zero]
  · obtain ⟨hsize, hmax⟩ := not_or.mp hnone
    rw [collectPieces_eq (by omega) _ _ _ (by rw [List.length_nil]; omega), closedLines_pieces f tailReadBytes hsize,
      List.nil_append, List.filterMap_reverse]

theorem filterMap_rawIdentity (f : AsciiFile) : (f.bytes.splitOn newline).filterMap rawIdentity
    = (f.bytes.splitOn newline).filterMap fun raw => lineIdentity (decodeAsciiReplace raw) :=
  List.filterMap_congr fun _ hpart => rawIdentity_part hpart

theorem filterMap_rawHeaderLine (f : AsciiFile) : (f.bytes.splitOn newline).filterMap rawHeaderLine
    = (f.bytes.splitOn newline).filterMap fun raw => headerLine (decodeAsciiReplace raw) :=
  List.filterMap_congr fun _ hpart => rawHeaderLine_part hpart

/-- The last header. -/
theorem parseLast_eq (f : AsciiFile) (tailReadBytes : ℤ) :
    parseLastTimestampLineStreaming f tailReadBytes = parseLastTimestampLine (iterStatsFileLines f) := by
  have hblank : (fun line => if line = "" then none else lineIdentity line) = lineIdentity := by
    funext line
    split_ifs with hline
    · rw [hline, lineIdentity_empty]
    · rfl
  have hlines := filterMap_linesOf newline (fun raw => lineIdentity (decodeAsciiReplace raw))
    lineIdentity_empty (fun line _ => lineIdentity_newline (decodeAscii_newline line)) f.bytes
  rw [streaming_eq_parts, filterMap_rawIdentity, ← hlines]
  unfold parseLastTimestampLine iterStatsFileLines
  rw [hblank, ← List.head?_filterMap, List.filterMap_reverse, List.filterMap_map, Function.comp_def]

/-- The last headers. -/
theorem collectTail_eq (f : AsciiFile) (tailReadBytes maxLines : ℤ) :
    collectTailTimestampLines f tailReadBytes maxLines = forwardTimestampLines f maxLines := by
  have hlines := filterMap_linesOf newline (fun raw => headerLine (decodeAsciiReplace raw))
    headerLine_empty (fun raw hraw => headerLine_newline hraw) f.bytes
  rw [collect_eq_parts, filterMap_rawHeaderLine, ← hlines]
  unfold forwardTimestampLines iterStatsFileLines
  rw [List.filterMap_map, Function.comp_def]

/-- What the tail readers owe a forward scan of the file. -/
structure ScansAgree (f : AsciiFile) (tailReadBytes maxLines : ℤ) : Prop where
  last : parseLastTimestampLineStreaming f tailReadBytes = parseLastTimestampLine (iterStatsFileLines f)
  tail : collectTailTimestampLines f tailReadBytes maxLines = forwardTimestampLines f maxLines

/-- **The tail readers find what a forward scan finds**, whatever the size of the blocks. -/
theorem scansAgree (f : AsciiFile) (tailReadBytes maxLines : ℤ) : ScansAgree f tailReadBytes maxLines :=
  ⟨parseLast_eq f tailReadBytes, collectTail_eq f tailReadBytes maxLines⟩

/-! ## The decoded text -/

def AsciiFile.toStatsFile (f : AsciiFile) : StatsFile :=
  ⟨decodeAsciiReplace f.bytes⟩

theorem splitSepChars_decode (raw : Bytes) : splitSepChars '\n' (decodeAsciiReplace raw).toList
    = (raw.splitOn newline).map fun part => (decodeAsciiReplace part).toList := by
  induction raw with
  | nil => rfl
  | cons b raw ih =>
      have hcons : ∀ part : Bytes, (decodeAsciiReplace (b :: part)).toList
          = (decodeAsciiReplace [b]).toList ++ (decodeAsciiReplace part).toList := by
        intro part
        unfold decodeAsciiReplace
        rw [String.toList_ofList, String.toList_ofList, String.toList_ofList, List.map_cons, List.map_cons,
          List.map_nil, List.singleton_append]
      obtain ⟨c, hc⟩ : ∃ c, (decodeAsciiReplace [b]).toList = [c] := ⟨_, String.toList_ofList⟩
      rw [hcons, hc, List.singleton_append, splitSepChars, List.splitOn_cons_eq_if_modifyHead, ih]
      by_cases hb : b = newline
      · subst hb
        obtain rfl : '\n' = c := List.singleton_inj.mp hc
        rw [if_pos rfl, if_pos (beq_self_eq_true newline), List.map_cons]
        rfl
      · have hne : c ≠ '\n' := by
          intro heq
          have hraw : newline ∉ [b] := fun hmem => hb (List.mem_singleton.mp hmem).symm
          refine newline_notMem_decode hraw ?_
          rw [hc, heq]
          exact List.mem_singleton_self _
        rw [if_neg hne, if_neg (fun h => hb (beq_iff_eq.mp h))]
        cases hparts : raw.splitOn newline with
        | nil => exact absurd hparts (List.splitOn_ne_nil newline raw)
        | cons part parts =>
            rw [List.map_cons, List.modifyHead_cons, List.map_cons, hcons part, hc, List.singleton_append]

theorem lines_toStatsFile (f : AsciiFile) :
    f.toStatsFile.lines = (f.bytes.splitOn newline).map decodeAsciiReplace := by
  unfold StatsFile.lines AsciiFile.toStatsFile splitSep
  rw [splitSepChars_decode, List.map_map]
  refine List.map_congr_left fun raw _ => ?_
  exact String.ofList_toList

/-- The last header is that of the decoded text. -/
theorem last_eq_statsFile (f : AsciiFile) (tailReadBytes : ℤ) :
    parseLastTimestampLineStreaming f tailReadBytes = f.toStatsFile.parseLastTimestampLine := by
  have hdigit : lineIdentity = fun line => if digitLeading line then lineIdentity line else none := by
    funext line
    unfold lineIdentity
    split_ifs <;> rfl
  have hfilter : ∀ lines : List String,
      (lines.filter digitLeading).filterMap lineIdentity = lines.filterMap lineIdentity := by
    intro lines
    rw [List.filterMap_filter, ← hdigit]
  rw [streaming_eq_parts, filterMap_rawIdentity]
  unfold StatsFile.parseLastTimestampLine
  rw [← List.head?_filterMap, ← hfilter, tailLines_filter, List.filterMap_reverse, hfilter, lines_toStatsFile,
    List.filterMap_map, Function.comp_def]

/-- The last headers are those of the decoded text. -/
theorem tail_eq_statsFile (f : AsciiFile) (tailReadBytes maxLines : ℤ) :
    collectTailTimestampLines f tailReadBytes maxLines
      = f.toStatsFile.collectTailTimestampLines maxLines.toNat := by
  have hfilter : f.toStatsFile.lines.filter digitLeading = (f.bytes.splitOn newline).filterMap rawHeaderLine := by
    rw [lines_toStatsFile, ← List.filterMap_eq_filter, List.filterMap_map]
    refine List.filterMap_congr fun part hpart => ?_
    rw [rawHeaderLine_part hpart, headerLine, chomp_of_notMem (newline_notMem_decode (newline_notMem_part hpart)),
      Function.comp_apply, Option.guard]
  rw [collect_eq_parts, ← hfilter]
  unfold StatsFile.collectTailTimestampLines
  rw [tailLines_filter]

/-! ## The lines of a loaded file -/

def carriageReturn : UInt8 := 13

/-- What text mode makes of the line breaks. -/
def universalNewlines : Bytes → Bytes
  | [] => []
  | b :: bs =>
      if b = carriageReturn then
        -- of the two bytes of a line break the second one stays
        if bs.head? = some newline then universalNewlines bs else newline :: universalNewlines bs
      else b :: universalNewlines bs

/-- `load_stats_file_lines`. -/
def loadStatsFileLines (f : AsciiFile) : List String :=
  (linesOf newline (universalNewlines f.bytes)).map decodeAsciiReplace

/-- In a file without carriage returns the last loaded header is the one the tail reader finds. -/
theorem parseLast_load (f : AsciiFile) (tailReadBytes : ℤ) (h : carriageReturn ∉ f.bytes) :
    parseLastTimestampLine (loadStatsFileLines f) = parseLastTimestampLineStreaming f tailReadBytes := by
  have hsame : ∀ bytes : Bytes, carriageReturn ∉ bytes → universalNewlines bytes = bytes := by
    intro bytes hbytes
    induction bytes with
    | nil => rw [universalNewlines]
    | cons b bytes ih =>
        rw [List.mem_cons, not_or] at hbytes
        rw [universalNewlines, if_neg (Ne.symm hbytes.1), ih hbytes.2]
  unfold loadStatsFileLines
  rw [hsame f.bytes h]
  exact (parseLast_eq f tailReadBytes).symm

end TailScan
