import Lftp.Ports.FtpListInfo
import Lftp.Verified.Calendar

/-!
# Listings of Windows NT and OS/2

What such servers print for a file, and what `ParseFtpLongList_NT` and
`ParseFtpLongList_OS2` make of the line. The time zone is a fixed offset.

* `parse_nt`: the NT parser reads every field of a printed line, the hour as `readHour`.
* `parseFtpLongListOS2_error`: the OS/2 parser finds an error in every line.
* `readsBack_iff`: the formats and hours for which the file is read back.
-/

namespace Lftp.Ports.FtpListInfo

open Lftp.Verified Lftp.Ports.FileSets

/-! ## Printed lines -/

/-- A file or a directory, which has no size, of a DOS-style listing. -/
structure DosFile where
  stamp : Stamp
  size : Option Nat
  name : Bytes
  year_lt : stamp.year < 2070
  size_lt : ∀ n ∈ size, n < 2 ^ 63
  name_ne : name ≠ []
  name_space : name.head? ≠ some (ch ' ')
  name_nul : 0 ∉ name

/-- The formats: NT with 24 or 12 hours, and OS/2. -/
inductive DosFormat
  | nt24
  | nt12
  | os2
deriving DecidableEq

namespace DosFile

variable (f : DosFile)

/-- `MM-DD-YY` -/
def dateText : Bytes :=
  pad2 f.stamp.month ++ ch '-' :: (pad2 f.stamp.day ++ ch '-' :: pad2 (f.stamp.year % 100))

/-- `HH:MM` -/
def clockText (hour : Nat) : Bytes := pad2 hour ++ ch ':' :: pad2 f.stamp.minute

/-- The hour on a clock with 12 hours. -/
def hour12 : Nat := if f.stamp.hour % 12 = 0 then 12 else f.stamp.hour % 12

def meridiem : Bytes := if f.stamp.hour < 12 then bytes "AM" else bytes "PM"

/-- A field with blanks on its left. -/
def field (width : Nat) (s : Bytes) : Bytes := s.leftpad width (ch ' ')

/-- The directory mark or the size in a line of NT, with the blanks around it. -/
def markNT : Bytes :=
  match f.size with
  | none => bytes "       <DIR>          "
  | some n => ch ' ' :: (field 20 (decimal n) ++ bytes " ")

def textNT (clock : Bytes) : Bytes :=
  f.dateText ++ (bytes "  " ++ (clock ++ (f.markNT ++ f.name)))

/-- The size and the directory mark in a line of OS/2. -/
def markOS2 : Bytes :=
  match f.size with
  | none => field 18 (bytes "0") ++ field 13 (bytes "DIR")
  | some n => field 18 (decimal n) ++ field 13 []

def textOS2 : Bytes :=
  f.markOS2 ++ (bytes "  " ++ (f.dateText ++ (bytes "  " ++
    (f.clockText f.stamp.hour ++ (bytes "  " ++ f.name)))))

/-- The line of a file. -/
def text : DosFormat → Bytes
  | .nt24 => f.textNT (f.clockText f.stamp.hour)
  | .nt12 => f.textNT (f.clockText f.hour12 ++ f.meridiem)
  | .os2 => f.textOS2

end DosFile

/-- The parser for a format. -/
def dosParser (env : Env) : DosFormat → LineParser
  | .nt24 | .nt12 => parseFtpLongListNT env
  | .os2 => parseFtpLongListOS2 env

/-! ## Faithful parsing -/

/-- `mktime_from_tz` is exact: the time zone is `offset` seconds ahead. -/
def ExactClock (env : Env) (offset : Int) : Prop :=
  ∀ (t : Stamp) (sec : Nat), sec < 60 →
    env.mktimeFromTz ⟨sec, t.minute, t.hour, t.day, (t.month : Int) - 1, (t.year : Int) - 1900, -1⟩
      = t.seconds + sec - offset

/-- A parsed file is the one meant, with its time to the minute. -/
structure IsDosFile (f : DosFile) (offset : Int) (fi : FileInfo) : Prop where
  name : fi.knows .name = true ∧ fi.name = f.name
  type : fi.knows .type = true ∧
    fi.filetype = if f.size.isSome then FileType.normal else FileType.directory
  size : ∀ n ∈ f.size, fi.knows .size = true ∧ fi.size = n
  date : fi.knows .date = true ∧
    f.stamp.seconds - offset ≤ fi.date.ts ∧ fi.date.ts < f.stamp.seconds - offset + 60

/-- The line is read back without an error. -/
def ReadsBack (env : Env) (offset : Int) (format : DosFormat) (f : DosFile) : Prop :=
  ∃ fi, dosParser env format (f.text format) = some (some fi) ∧ IsDosFile f offset fi

/-- NT, and not noon or midnight on a clock with 12 hours. -/
def Reliable (f : DosFile) : DosFormat → Prop
  | .nt24 => True
  | .nt12 => f.stamp.hour % 12 ≠ 0
  | .os2 => False

/-! ## Words of a line -/

section

variable (f : DosFile)

theorem dateText_word : ∀ c ∈ f.dateText, blanks.contains c = false := by
  have hMonth : f.stamp.month < 100 := lt_of_le_of_lt f.stamp.month_le (by decide)
  have hDay : f.stamp.day < 100 := lt_trans f.stamp.day_lt (by decide)
  have hYear : f.stamp.year % 100 < 100 := Nat.mod_lt _ (by decide)
  intro c hc
  simp only [DosFile.dateText, List.mem_append, List.mem_cons] at hc
  rcases hc with hc | rfl | hc | rfl | hc
  · exact not_blank_of_isDigit (isDigit_pad2 hMonth c hc)
  · rfl
  · exact not_blank_of_isDigit (isDigit_pad2 hDay c hc)
  · rfl
  · exact not_blank_of_isDigit (isDigit_pad2 hYear c hc)

theorem clockText_word {hour : Nat} (h : hour < 100) :
    ∀ c ∈ f.clockText hour, blanks.contains c = false := by
  have hMinute : f.stamp.minute < 100 := lt_trans f.stamp.minute_lt (by decide)
  intro c hc
  simp only [DosFile.clockText, List.mem_append, List.mem_cons] at hc
  rcases hc with hc | rfl | hc
  · exact not_blank_of_isDigit (isDigit_pad2 h c hc)
  · rfl
  · exact not_blank_of_isDigit (isDigit_pad2 hMinute c hc)

theorem scanTriple_dateText :
    scanTriple (ch '-') f.dateText
      = some ((f.stamp.month : Int), (f.stamp.day : Int), ((f.stamp.year % 100 : Nat) : Int)) := by
  have hMonth : f.stamp.month < 100 := lt_of_le_of_lt f.stamp.month_le (by decide)
  have hDay : f.stamp.day < 100 := lt_trans f.stamp.day_lt (by decide)
  have hYear : f.stamp.year % 100 < 100 := Nat.mod_lt _ (by decide)
  have hLast := scanWidth_pad2 hYear []
  have hLit (s : Bytes) : scanLit [ch '-'] (ch '-' :: s) = some s := scanLit_append [ch '-'] s
  rw [List.append_nil] at hLast
  unfold scanTriple DosFile.dateText
  simp only [Option.bind_eq_bind, scanWidth_pad2 hMonth, hLit, scanWidth_pad2 hDay, hLast,
    Option.bind_some]

theorem scanClock_clockText {hour : Nat} (h : hour < 100) (am : Bytes) :
    scanClock (f.clockText hour ++ am) = some ((hour : Int), (f.stamp.minute : Int), am) := by
  have hMinute : f.stamp.minute < 100 := lt_trans f.stamp.minute_lt (by decide)
  have hLit (s : Bytes) : scanLit [ch ':'] (ch ':' :: s) = some s := scanLit_append [ch ':'] s
  unfold scanClock DosFile.clockText
  simp only [List.append_assoc, List.cons_append, Option.bind_eq_bind, scanWidth_pad2 h, hLit,
    scanWidth_pad2 hMinute, Option.bind_some]

theorem fullYear_mod : fullYear ((f.stamp.year % 100 : Nat) : Int) = f.stamp.year := by
  have hGe := f.stamp.year_ge
  have hLt := f.year_lt
  unfold fullYear
  split <;> omega

/-! ## The NT parser -/

/-- What a directory mark or a size says. -/
def readMark (word : Bytes) (fi : FileInfo) : Option FileInfo :=
  if word = bytes "<DIR>" then some (fi.setType .directory)
  else (scanLong word).map fun (size, _) => (fi.setType .normal).setSize size

/-- The type and the size that are meant. -/
def marked (fi : FileInfo) : FileInfo :=
  match f.size with
  | none => fi.setType .directory
  | some n => (fi.setType .normal).setSize n

theorem scanLong_decimal {n : Nat} (h : n < 2 ^ 63) : scanLong (decimal n) = some ((n : Int), []) := by
  have hScan : scanInt (decimal n) = some ((n : Int), []) := by
    have hAll := scanInt_decimal n (r := []) (by rintro _ ⟨⟩)
    rwa [List.append_nil] at hAll
  have hClamp : clamp n = n := by
    unfold clamp
    omega
  unfold scanLong
  simp only [hScan, Option.map_some, hClamp]

theorem readMark_decimal {n : Nat} (h : n < 2 ^ 63) (fi : FileInfo) :
    readMark (decimal n) fi = some ((fi.setType .normal).setSize n) := by
  have hNe : decimal n ≠ bytes "<DIR>" := by
    intro hEq
    have hDigit := isDigit_of_mem_decimal n (ch '<') (by rw [hEq]; decide)
    exact absurd hDigit (by decide)
  unfold readMark
  rw [if_neg hNe, scanLong_decimal h]
  rfl

/-- The mark is a word between blanks. -/
theorem markNT_word : ∃ pad word trail,
    f.markNT = ch ' ' :: (pad ++ (word ++ ch ' ' :: trail)) ∧
      (∀ c ∈ pad, blanks.contains c = true) ∧ word ≠ [] ∧
      (∀ c ∈ word, blanks.contains c = false) ∧ (∀ c ∈ trail, c = ch ' ') ∧
      ∀ fi, readMark word fi = some (marked f fi) := by
  cases hSize : f.size with
  | none =>
      refine ⟨bytes "      ", bytes "<DIR>", bytes "         ", ?_, forall_of_all (by decide),
        by decide, forall_of_all (by decide), forall_of_all (by decide), fun fi => ?_⟩
      · unfold DosFile.markNT
        rw [hSize]
        rfl
      · unfold marked
        rw [hSize]
        rfl
  | some n =>
      refine ⟨List.replicate (20 - (decimal n).length) (ch ' '), decimal n, [], ?_, blank_replicate,
        decimal_ne_nil n, fun c hc => not_blank_of_isDigit (isDigit_of_mem_decimal n c hc),
        nofun, fun fi => ?_⟩
      · unfold DosFile.markNT DosFile.field
        rw [hSize]
        dsimp only
        rw [List.leftpad, List.append_assoc]
        rfl
      · unfold marked
        rw [hSize]
        exact readMark_decimal (f.size_lt n hSize) fi

theorem restName_padded {trail name : Bytes} (hTrail : ∀ c ∈ trail, c = ch ' ') (hNe : name ≠ [])
    (hSpace : name.head? ≠ some (ch ' ')) : restName (trail ++ name) = some name := by
  have hAll : ∀ c ∈ trail, decide (c = ch ' ') = true := fun c hc => decide_eq_true (hTrail c hc)
  have hName : name.dropWhile (· = ch ' ') = name := by
    cases name with
    | nil => rfl
    | cons c name =>
        exact List.dropWhile_cons_of_neg (by simpa using hSpace)
  have hRest : strtokRest (trail ++ name) = some (trail ++ name) :=
    if_neg fun hNil => hNe (List.append_eq_nil_iff.mp hNil).2
  unfold restName
  simp only [hRest, Option.bind_eq_bind, Option.bind_some, List.dropWhile_append_of_pos hAll, hName,
    if_neg hNe]

/-- The hour that the parser takes: noon becomes midnight, and midnight stays noon. -/
def readHour (hour : Nat) (am : Bytes) : Int :=
  if am.head? = some (ch 'P') then (if (hour : Int) + 12 = 24 then 0 else hour + 12) else hour

/-- The date of a printed line, with another hour. -/
def stampTm (hour : Int) : Tm :=
  ⟨30, f.stamp.minute, hour, f.stamp.day, (f.stamp.month : Int) - 1, (f.stamp.year : Int) - 1900, -1⟩

theorem parse_nt (env : Env) {hour : Nat} (hHour : hour < 100) {am : Bytes}
    (hAm : ∀ c ∈ am, blanks.contains c = false) :
    parseFtpLongListNT env (f.textNT (f.clockText hour ++ am))
      = some (some (setName (marked f
          (blankInfo.setDate (env.mktimeFromTz (stampTm f (readHour hour am))) 30)) f.name)) := by
  obtain ⟨pad, word, trail, hMark, hPad, hNe, hWord, hTrail, hRead⟩ := markNT_word f
  have hClock : ∀ c ∈ f.clockText hour ++ am, blanks.contains c = false := by
    intro c hc
    rcases List.mem_append.mp hc with hc | hc
    · exact clockText_word f hHour c hc
    · exact hAm c hc
  have hLine : f.textNT (f.clockText hour ++ am) = f.dateText ++ ch ' ' :: (bytes " " ++
      ((f.clockText hour ++ am) ++ ch ' ' :: (pad ++ (word ++ ch ' ' :: (trail ++ f.name))))) := by
    unfold DosFile.textNT
    rw [hMark]
    simp only [List.append_assoc, List.cons_append]
    rfl
  have hDate (rest : Bytes) : strtok blanks (f.dateText ++ ch ' ' :: rest) = some (f.dateText, rest) :=
    strtok_append (by unfold DosFile.dateText pad2; nofun) (dateText_word f) rfl rest
  have hTime (rest : Bytes) : strtok blanks (bytes " " ++ ((f.clockText hour ++ am) ++ ch ' ' :: rest))
      = some (f.clockText hour ++ am, rest) :=
    strtok_word (forall_of_all (by decide)) (by unfold DosFile.clockText pad2; nofun) hClock rfl rest
  have hSize (rest : Bytes) : strtok blanks (pad ++ (word ++ ch ' ' :: rest)) = some (word, rest) :=
    strtok_word hPad hNe hWord rfl rest
  have hFile := hRead (blankInfo.setDate (env.mktimeFromTz (stampTm f (readHour hour am))) 30)
  unfold readMark stampTm readHour at hFile
  unfold parseFtpLongListNT stampTm readHour
  rw [hLine]
  simp only [hDate, Option.bind_eq_bind, Option.bind_some, scanTriple_dateText, hTime,
    scanClock_clockText f hHour, hSize, fullYear_mod, hFile,
    restName_padded hTrail f.name_ne f.name_space]

/-! ## What is read back -/

theorem isDosFile_marked (offset time : Int) :
    IsDosFile f offset (setName (marked f (blankInfo.setDate time 30)) f.name)
      ↔ f.stamp.seconds - offset ≤ time ∧ time < f.stamp.seconds - offset + 60 := by
  have hDate : (setName (marked f (blankInfo.setDate time 30)) f.name).date.ts = time := by
    unfold marked
    cases f.size <;> rfl
  constructor
  · intro h
    have hTime := h.date.2
    rwa [hDate] at hTime
  · intro h
    rw [← hDate] at h
    unfold marked at h ⊢
    cases hSize : f.size with
    | none =>
        rw [hSize] at h
        exact ⟨⟨by simp, rfl⟩, ⟨by simp, by rw [hSize]; rfl⟩, by simp [hSize], by simp, h⟩
    | some n =>
        rw [hSize] at h
        refine ⟨⟨by simp, rfl⟩, ⟨by simp, by rw [hSize]; rfl⟩, fun m hm => ?_, by simp, h⟩
        rw [hSize] at hm
        cases hm
        exact ⟨by simp, rfl⟩

variable {f} {env : Env} {offset : Int}

/-- The time that `mktime_from_tz` gives for another hour of the day. -/
theorem ExactClock.atHour (h : ExactClock env offset) {hour : Nat} (hHour : hour < 24) :
    env.mktimeFromTz (stampTm f hour)
      = f.stamp.seconds + ((hour : Int) - f.stamp.hour) * 3600 + 30 - offset := by
  have hTime := h (f.stamp.atHour hour hHour) 30 (by decide)
  rw [f.stamp.seconds_atHour hHour] at hTime
  exact hTime

/-- A line of NT is read back where the hour that is read is the one printed. -/
theorem readsBack_nt (h : ExactClock env offset) {format : DosFormat} {hour taken : Nat}
    {am : Bytes} (hParser : dosParser env format = parseFtpLongListNT env)
    (hText : f.text format = f.textNT (f.clockText hour ++ am)) (hHour : hour < 100)
    (hAm : ∀ c ∈ am, blanks.contains c = false) (hRead : readHour hour am = taken)
    (hTaken : taken < 24) : ReadsBack env offset format f ↔ taken = f.stamp.hour := by
  have hParse := parse_nt f env hHour hAm
  rw [← hText, ← hParser, hRead, h.atHour hTaken] at hParse
  have hIff := isDosFile_marked f offset
    (f.stamp.seconds + ((taken : Int) - f.stamp.hour) * 3600 + 30 - offset)
  have hExists : ReadsBack env offset format f ↔ IsDosFile f offset (setName (marked f
      (blankInfo.setDate (f.stamp.seconds + ((taken : Int) - f.stamp.hour) * 3600 + 30 - offset) 30))
      f.name) := by
    unfold ReadsBack
    rw [hParse]
    constructor
    · rintro ⟨fi, hFi, hIs⟩
      cases hFi
      exact hIs
    · exact fun hIs => ⟨_, rfl, hIs⟩
  rw [hExists, hIff]
  omega

/-- The hour that is read of a line with a clock of 12 hours. -/
theorem readHour_hour12 (f : DosFile) :
    readHour f.hour12 f.meridiem
      = ((if f.stamp.hour % 12 = 0 then 12 - f.stamp.hour else f.stamp.hour : Nat) : Int) := by
  have hLt := f.stamp.hour_lt
  unfold readHour DosFile.hour12 DosFile.meridiem
  by_cases hAm : f.stamp.hour < 12
  · rw [if_pos hAm, if_neg (by decide)]
    congr 1
    split <;> omega
  · rw [if_neg hAm, if_pos (by decide)]
    split <;> split <;> omega

/-- With 24 hours every line of NT is read back. -/
theorem readsBack_nt24 (h : ExactClock env offset) (f : DosFile) : ReadsBack env offset .nt24 f := by
  have hLt := f.stamp.hour_lt
  have hText : f.text .nt24 = f.textNT (f.clockText f.stamp.hour ++ []) := by
    rw [List.append_nil]
    rfl
  exact (readsBack_nt h rfl hText (by omega) nofun rfl hLt).mpr rfl

/-- With 12 hours noon is taken for midnight, and midnight for noon. -/
theorem readsBack_nt12 (h : ExactClock env offset) (f : DosFile) :
    ReadsBack env offset .nt12 f ↔ f.stamp.hour % 12 ≠ 0 := by
  have hLt := f.stamp.hour_lt
  have hMeridiem : ∀ c ∈ f.meridiem, blanks.contains c = false := by
    unfold DosFile.meridiem
    split <;> exact forall_of_all (by decide)
  have hHour : f.hour12 < 100 := by
    unfold DosFile.hour12
    split <;> omega
  rw [readsBack_nt h rfl rfl hHour hMeridiem (readHour_hour12 f) (by split <;> omega)]
  split <;> omega

end

/-! ## The OS/2 parser -/

/-- `sscanf` never returns 3 for two directives. -/
theorem parseFtpLongListOS2_error (env : Env) (line : Bytes) : parseFtpLongListOS2 env line = none := by
  have hConversions (t : Bytes) :
      (if (scanClock t).isSome = true then 2 else if (scanWidth 2 t).isSome = true then 1 else 0) ≠ 3 := by
    split
    · nofun
    · split <;> nofun
  unfold parseFtpLongListOS2
  simp [hConversions]

theorem not_readsBack_os2 (env : Env) (offset : Int) (f : DosFile) :
    ¬ ReadsBack env offset .os2 f := by
  rintro ⟨fi, hParse, -⟩
  have hError : parseFtpLongListOS2 env (f.text .os2) = some (some fi) := hParse
  rw [parseFtpLongListOS2_error] at hError
  cases hError

/-- A DOS-style line is read back exactly when it is of NT and its hour is not noon or midnight
on a clock with 12 hours. -/
theorem dos_readsBack_iff (env : Env) (offset : Int) (h : ExactClock env offset)
    (format : DosFormat) (f : DosFile) : ReadsBack env offset format f ↔ Reliable f format := by
  cases format with
  | nt24 => exact iff_of_true (readsBack_nt24 h f) trivial
  | nt12 => exact readsBack_nt12 h f
  | os2 => exact iff_of_false (not_readsBack_os2 env offset f) id

/-! ## A clock -/

/-- A clock that knows the calendar. -/
def civilClock (offset : Int) : Env where
  now := ⟨0, 0, 0, 1, 0, 70, 0⟩
  mktimeFromUtc tm := tm.sec
  mktimeFromTz tm :=
    (((daysBefore (tm.year + 1900).toNat (tm.mon + 1).toNat + (tm.mday - 1)) * 24 + tm.hour) * 60
      + tm.min) * 60 + tm.sec - offset

theorem exactClock_civilClock (offset : Int) : ExactClock (civilClock offset) offset := by
  intro t sec _
  have hDay := t.day_pos
  have hYear : ((t.year : Int) - 1900 + 1900).toNat = t.year := by omega
  have hMonth : ((t.month : Int) - 1 + 1).toNat = t.month := by omega
  have hSub : ((t.day - 1 : Nat) : Int) = (t.day : Int) - 1 := by omega
  unfold civilClock Stamp.seconds Stamp.days
  dsimp only
  rw [hYear, hMonth, Int.natCast_add, hSub]

/-- A directory of the thirteenth of July 1998. -/
def aix (hour : Nat) (h : hour < 24) : DosFile where
  stamp := ⟨1998, 7, 13, hour, 6, by decide, by decide, by decide, by decide, by decide, h, by decide⟩
  size := none
  name := bytes "aix"
  year_lt := (by decide : 1998 < 2070)
  size_lt := nofun
  name_ne := by decide
  name_space := by decide
  name_nul := by decide

theorem dos_readsBack_evening :
    ReadsBack (civilClock 3600) 3600 .nt12 (aix 21 (by decide)) :=
  (dos_readsBack_iff _ _ (exactClock_civilClock 3600) .nt12 (aix 21 (by decide))).mpr
    (by change 21 % 12 ≠ 0; decide)

/-- Noon is taken for midnight, and a line of OS/2 for an error. -/
theorem not_dos_readsBack : ExactClock (civilClock 0) 0 ∧
    ¬ ReadsBack (civilClock 0) 0 .nt12 (aix 12 (by decide)) ∧
    ¬ ReadsBack (civilClock 0) 0 .os2 (aix 21 (by decide)) := by
  refine ⟨exactClock_civilClock 0, ?_, not_readsBack_os2 _ _ _⟩
  rw [readsBack_nt12 (exactClock_civilClock 0)]
  exact fun h => h rfl

end Lftp.Ports.FtpListInfo
