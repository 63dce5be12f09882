/-
# Names of daily tars

The raw files of one calendar day go to one tar, `<tgz_archive_dir>/YYYY-MM-DD.tar`
(`_daily_tar_path_for_date`), and the day is read back from its name (`calendar_date_from_daily_tar_path`).
`calendarDateFromDailyTarPath_dailyTarPathForDate` is the round trip: a tar has one day, and a day one tar.

The directory of the archive is one that `normpath` leaves as it is.  A date has a year of four digits, and
`strptime` reads digits of ASCII.
-/
import HpcPerfStats.TokenText

namespace DailyTarPaths

open PyText TokenText

/-! ## Dates -/

def isLeap (year : ℕ) : Bool := year % 4 == 0 && (year % 100 != 0 || year % 400 == 0)

def daysInMonth (year month : ℕ) : ℕ :=
  if month = 2 then if isLeap year then 29 else 28
  else if month = 4 ∨ month = 6 ∨ month = 9 ∨ month = 11 then 30
  else 31

/-- `datetime.date`. -/
structure Date where
  year : ℕ
  month : ℕ
  day : ℕ
  valid : (1000 ≤ year ∧ year < 10000) ∧ (1 ≤ month ∧ month ≤ 12) ∧ 1 ≤ day ∧ day ≤ daysInMonth year month
  deriving DecidableEq

/-- `date(year, month, day)`; `none` is a `ValueError`. -/
def Date.of (year month day : ℕ) : Option Date :=
  if h : (1000 ≤ year ∧ year < 10000) ∧ (1 ≤ month ∧ month ≤ 12) ∧ 1 ≤ day ∧ day ≤ daysInMonth year month then
    some ⟨year, month, day, h⟩
  else none

/-- `date.toordinal`. -/
def Date.toordinal (d : Date) : ℕ :=
  let before := d.year - 1
  365 * before + before / 4 - before / 100 + before / 400 +
    ((List.range (d.month - 1)).map fun m => daysInMonth d.year (m + 1)).sum + d.day

/-- Two digits. -/
def twoDigits (n : ℕ) : String := if n < 10 then "0" ++ toString n else toString n

/-- `date.isoformat`, and `strftime("%Y-%m-%d")`. -/
def Date.isoformat (d : Date) : String := toString d.year ++ "-" ++ twoDigits d.month ++ "-" ++ twoDigits d.day

/-- A field of `strptime`: so many digits. -/
def readField (lengths : List ℕ) (text : String) : Option ℕ :=
  if text.toList.length ∈ lengths ∧ text.toList.all Char.isDigit = true then digits text.toList else none

/-- `strptime(text, "%Y-%m-%d").date()`; `none` is a `ValueError`. -/
def strptime (text : String) : Option Date :=
  match splitSep '-' text with
  | [year, month, day] => do
      let year ← readField [4] year
      let month ← readField [1, 2] month
      let day ← readField [1, 2] day
      Date.of year month day
  | _ => none

/-! ## Paths -/

/-- `os.path.basename`. -/
def basename (path : String) : String := (splitSep '/' path).getLastD ""

/-- `_daily_tar_path_for_date`. -/
def dailyTarPathForDate (tgzArchiveDir : String) (d : Date) : String :=
  tgzArchiveDir ++ "/" ++ (d.isoformat ++ ".tar")

/-- `calendar_date_from_daily_tar_path`. -/
def calendarDateFromDailyTarPath (tarPath : String) : Option Date :=
  let base := basename tarPath
  if ".tar".toList.isSuffixOf base.toList then strptime (takeChars (base.toList.length - 4) base) else none

/-- `daily_tar_path_for_stats_path`, for a file of this date. -/
def dailyTarPath (tgzArchiveDir : String) (fileDate : Option Date) : Option String :=
  if tgzArchiveDir = "" then none else fileDate.map (dailyTarPathForDate tgzArchiveDir)

/-- The components that `os.path.normpath` keeps, the last one first. -/
def normComps (rooted : Bool) : List String → List String → List String
  | kept, [] => kept
  | kept, comp :: comps =>
      if comp = "" ∨ comp = "." then normComps rooted kept comps
      else if comp ≠ ".." ∨ (rooted = false ∧ kept = []) ∨ kept.head? = some ".." then
        normComps rooted (comp :: kept) comps
      else normComps rooted kept.tail comps

/-- `os.path.normpath`. -/
def normpath (path : String) : String :=
  let slashes := path.toList.takeWhile (· = '/')
  let root := if slashes.length = 2 then "//" else if slashes = [] then "" else "/"
  let norm := root ++ "/".intercalate (normComps (root != "") [] (splitSep '/' path)).reverse
  if norm = "" then "." else norm

/-- `date.fromisoformat` of ten characters, without its form for weeks; `none` is a `ValueError`. -/
def fromisoformat (text : String) : Option Date :=
  match splitSep '-' text with
  | [year, month, day] => do
      let year ← readField [4] year
      let month ← readField [2] month
      let day ← readField [2] day
      Date.of year month day
  | _ => none

/-- `day_token_from_day_close_identity`. -/
def dayTokenFromDayCloseIdentity (identity : String) : Option String :=
  let base := basename (strip identity)
  let base := if ".tar".toList.isSuffixOf base.toList then takeChars (base.toList.length - 4) base else base
  if base.toList.length < 10 then none else (fromisoformat (takeChars 10 base)).map Date.isoformat

/-! ## A date is read back -/

theorem isDigit_twoDigits {n : ℕ} {c : Char} (hc : c ∈ (twoDigits n).toList) : c.isDigit = true := by
  unfold twoDigits at hc
  split_ifs at hc
  · rw [String.toList_append, List.mem_append] at hc
    rcases hc with hzero | hdigit
    · rw [show "0".toList = ['0'] from rfl, List.mem_singleton] at hzero
      rw [hzero]
      rfl
    · exact isDigit_of_mem_toString hdigit
  · exact isDigit_of_mem_toString hc

theorem digits_twoDigits (n : ℕ) : digits (twoDigits n).toList = some n := by
  have hdigits : ∀ c ∈ (twoDigits n).toList, c.isDigit = true := fun c hc => isDigit_twoDigits hc
  have hne : (twoDigits n).toList ≠ [] := by
    unfold twoDigits
    split_ifs
    · rw [String.toList_append]
      exact List.cons_ne_nil _ _
    · exact toString_ne_nil n
  rw [digits_eq hne hdigits]
  unfold twoDigits
  split_ifs
  · rw [String.toList_append, show "0".toList = ['0'] from rfl, List.singleton_append, Nat.ofDigitChars_cons]
    exact congrArg some (ofDigitChars_toString n)
  · rw [ofDigitChars_toString]

theorem length_toString_le_iff {n k : ℕ} (hk : 0 < k) : (toString n).toList.length ≤ k ↔ n < 10 ^ k := by
  rw [Nat.toString_eq_ofList_toDigits, String.toList_ofList]
  exact Nat.length_toDigits_le_iff (by decide) hk

theorem length_toString_pos (n : ℕ) : 0 < (toString n).toList.length :=
  List.length_pos_iff.mpr (toString_ne_nil n)

theorem length_year (d : Date) : (toString d.year).toList.length = 4 := by
  obtain ⟨⟨hlow, hhigh⟩, -⟩ := d.valid
  have hle := (length_toString_le_iff (n := d.year) (k := 4) (by decide)).mpr (by omega)
  have hlt := (length_toString_le_iff (n := d.year) (k := 3) (by decide)).not.mpr (by omega)
  omega

theorem length_twoDigits {n : ℕ} (hn : n < 100) : (twoDigits n).toList.length = 2 := by
  have hpos := length_toString_pos n
  unfold twoDigits
  split_ifs with hsmall
  · have hle := (length_toString_le_iff (n := n) (k := 1) (by decide)).mpr (by omega)
    rw [String.toList_append, List.length_append, show "0".toList.length = 1 from rfl]
    omega
  · have hle := (length_toString_le_iff (n := n) (k := 2) (by decide)).mpr (by omega)
    have hlt := (length_toString_le_iff (n := n) (k := 1) (by decide)).not.mpr (by omega)
    omega

theorem readField_eq {lengths : List ℕ} {text : String} {n : ℕ} (hlength : text.toList.length ∈ lengths)
    (hdigit : ∀ c ∈ text.toList, c.isDigit = true) (hn : digits text.toList = some n) :
    readField lengths text = some n := by
  unfold readField
  rw [if_pos ⟨hlength, List.all_eq_true.mpr hdigit⟩, hn]

theorem not_mem_of_isDigit {sep : Char} (hsep : sep.isDigit = false) {text : String}
    (h : ∀ c ∈ text.toList, c.isDigit = true) : sep ∉ text.toList := by
  intro hmem
  rw [h sep hmem] at hsep
  cases hsep

theorem Date.of_eq (d : Date) : Date.of d.year d.month d.day = some d := by
  unfold Date.of
  rw [dif_pos d.valid]

theorem daysInMonth_le (year month : ℕ) : daysInMonth year month ≤ 31 := by
  unfold daysInMonth
  split_ifs
  all_goals omega

/-- The text of a date as `ledBy` writes it. -/
theorem isoformat_eq (d : Date) :
    d.isoformat = toString d.year ++ ledBy '-' [twoDigits d.month, twoDigits d.day] := by
  apply String.toList_injective
  simp only [Date.isoformat, ledBy, String.toList_append]
  simp

/-- **A date is read back from its text.** -/
theorem strptime_isoformat (d : Date) : strptime d.isoformat = some d := by
  obtain ⟨-, ⟨-, hmonth⟩, -, hday⟩ := d.valid
  have hday' := hday.trans (daysInMonth_le d.year d.month)
  have hyear : ∀ c ∈ (toString d.year).toList, c.isDigit = true := fun c hc => isDigit_of_mem_toString hc
  have htwo : ∀ n, ∀ c ∈ (twoDigits n).toList, c.isDigit = true := fun n c hc => isDigit_twoDigits hc
  have hsplit : splitSep '-' d.isoformat = [toString d.year, twoDigits d.month, twoDigits d.day] := by
    rw [isoformat_eq]
    refine splitSep_append_ledBy (not_mem_of_isDigit rfl hyear) ?_
    intro u hu
    rcases List.mem_cons.mp hu with rfl | hu
    · exact not_mem_of_isDigit rfl (htwo d.month)
    · rw [List.mem_singleton.mp hu]
      exact not_mem_of_isDigit rfl (htwo d.day)
  have hread : digits (toString d.year).toList = some d.year := by
    rw [digits_eq (toString_ne_nil _) hyear, ofDigitChars_toString]
  unfold strptime
  rw [hsplit]
  dsimp only
  rw [readField_eq (by rw [length_year]; decide) hyear hread,
    readField_eq (by rw [length_twoDigits (by omega)]; decide) (htwo d.month) (digits_twoDigits d.month),
    readField_eq (by rw [length_twoDigits (by omega)]; decide) (htwo d.day) (digits_twoDigits d.day)]
  exact d.of_eq

/-! ## A tar has one day -/

/-- The last part of a path. -/
theorem basename_append {dir name : String} (hname : '/' ∉ name.toList) : basename (dir ++ "/" ++ name) = name := by
  have hlast : ∀ cs : List Char, (splitSepChars '/' (cs ++ '/' :: name.toList)).getLast? = some name.toList := by
    intro cs
    have hrest : splitSepChars '/' ('/' :: name.toList) = [] :: [name.toList] := by
      rw [splitSepChars, if_pos rfl, splitSepChars_self hname]
    rw [splitSepChars_append hrest cs, List.getLast?_append]
    rfl
  unfold basename splitSep
  rw [List.getLastD_eq_getLast?, List.getLast?_map, String.toList_append, String.toList_append, List.append_assoc]
  rw [show "/".toList ++ name.toList = '/' :: name.toList from rfl, hlast dir.toList]
  exact String.ofList_toList

theorem slash_not_mem_isoformat (d : Date) : '/' ∉ (d.isoformat ++ ".tar").toList := by
  have hyear : '/' ∉ (toString d.year).toList := not_mem_of_isDigit rfl fun c hc => isDigit_of_mem_toString hc
  have htwo : ∀ n, '/' ∉ (twoDigits n).toList := fun n => not_mem_of_isDigit rfl fun c hc => isDigit_twoDigits hc
  rw [Nat.toString_eq_ofList_toDigits, String.toList_ofList] at hyear
  simp [Date.isoformat, hyear, htwo]

/-- **The day of a tar** is the day that it was named after. -/
theorem calendarDateFromDailyTarPath_dailyTarPathForDate (dir : String) (d : Date) :
    calendarDateFromDailyTarPath (dailyTarPathForDate dir d) = some d := by
  unfold calendarDateFromDailyTarPath dailyTarPathForDate
  rw [basename_append (slash_not_mem_isoformat d)]
  have hsuffix : ".tar".toList.isSuffixOf (d.isoformat ++ ".tar").toList = true := by
    rw [List.isSuffixOf_iff_suffix, String.toList_append]
    exact List.suffix_append _ _
  have htake : takeChars ((d.isoformat ++ ".tar").toList.length - 4) (d.isoformat ++ ".tar") = d.isoformat := by
    apply String.toList_injective
    unfold takeChars
    rw [String.toList_ofList, String.toList_append, List.length_append, show ".tar".toList.length = 4 from rfl,
      Nat.add_sub_cancel, List.take_left]
  dsimp only
  rw [if_pos hsuffix, htake, strptime_isoformat]

/-- Two days have two tars. -/
theorem dailyTarPathForDate_injective (dir : String) : Function.Injective (dailyTarPathForDate dir) := by
  intro d e heq
  have hd := calendarDateFromDailyTarPath_dailyTarPathForDate dir d
  rw [heq, calendarDateFromDailyTarPath_dailyTarPathForDate, Option.some.injEq] at hd
  exact hd.symm

/-- The key of a day names one day. -/
theorem isoformat_injective : Function.Injective Date.isoformat := by
  intro d e heq
  have hd := strptime_isoformat d
  rw [heq, strptime_isoformat, Option.some.injEq] at hd
  exact hd.symm

end DailyTarPaths
