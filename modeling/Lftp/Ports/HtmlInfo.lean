import Lftp.Ports.HtmlText
import Lftp.Ports.LongList
import Lftp.Ports.UrlPassword
import Lftp.Verified.Formats

/-!
# File information in HTML listings

`file_info` and the formats of the line behind a link. Each format clears the record, but for
`is_directory`, and leaves in it what it has read even when it does not match.

A format has no value where it would use memory that nobody has written: the year or time of a line
that ends before it.

* `Info.Fits`: no text is longer than its array.
* `Format.Safe`: whatever the line is, the record that a format leaves fits.
-/

namespace Lftp.Ports.HtmlDir

open Lftp.Verified
open Lftp.Ports.FtpListInfo (Tm clamp guessYear monthNames parseMonth parsePerms parseYearOrTime
  sameNoCase scanLong toInt)
open Lftp.Ports.FileSets (noDate)
open Lftp.Ports.HtmlText (beginsNoCase isAlnum)
open Lftp.Ports.UrlPassword (strstr)

/-! ## The record -/

/-- `file_info` -/
structure Info where
  size : Int
  year : Int
  month : Int
  day : Int
  hour : Int
  minute : Int
  second : Int
  symLink : Option Bytes
  isSymLink : Bool
  isDirectory : Bool
  monthName : Bytes
  sizeStr : Bytes
  perms : Bytes
  user : Bytes
  group : Bytes
  nlink : Int
  date : Int
  datePrec : Int

namespace Info

/-- A record whose `is_directory` is known. -/
def new (isDirectory : Bool) : Info :=
  ⟨-1, -1, -1, 0, -1, -1, -1, none, false, isDirectory, [], [], [], [], [], 0, noDate, -1⟩

/-- `clear` leaves `is_directory` as it is. -/
def clear (info : Info) : Info := new info.isDirectory

/-- `validate` -/
def validate (info : Info) : Bool × Info :=
  let info :=
    -- server's y2000 problem
    if info.year ≠ -1 then
      if info.year < 37 then { info with year := info.year + 2000 }
      else if info.year < 100 then { info with year := info.year + 1900 }
      else info
    else info
  (!(info.day < 1 || 31 < info.day || info.hour < -1 || 23 < info.hour || info.minute < -1
    || 59 < info.minute || (info.month = -1 && !info.monthName.head?.any isAlnum)), info)

end Info

/-- `%lld` of `printf`. -/
def lld (n : Int) : Bytes := (if n < 0 then [ch '-'] else []) ++ decimal n.natAbs

/-- `snprintf` into an array of `size` bytes. -/
def printed (size : Nat) (s : Bytes) : Bytes := s.take (size - 1)

/-- `is_ascii_digit` of the first byte. -/
def startsDigit (s : Bytes) : Bool := s.head?.any isDigit

/-- The variables of a format: the record, and the local array that is looked at, when it was
written. -/
structure Scanned where
  info : Info
  text : Option Bytes

/-! ## The places of a format -/

section Places

variable (n : Int) (w : Bytes) (v : Scanned)

def putSize : Scanned := { v with info := { v.info with size := clamp n } }
def putYear : Scanned := { v with info := { v.info with year := toInt n } }
def putMonth : Scanned := { v with info := { v.info with month := toInt n } }
def putDay : Scanned := { v with info := { v.info with day := toInt n } }
def putHour : Scanned := { v with info := { v.info with hour := toInt n } }
def putMinute : Scanned := { v with info := { v.info with minute := toInt n } }
def putSecond : Scanned := { v with info := { v.info with second := toInt n } }
def putNlink : Scanned := { v with info := { v.info with nlink := toInt n } }
def putMonthName : Scanned := { v with info := { v.info with monthName := w } }
def putSizeStr : Scanned := { v with info := { v.info with sizeStr := w } }
def putPerms : Scanned := { v with info := { v.info with perms := w } }
def putUser : Scanned := { v with info := { v.info with user := w } }
def putGroup : Scanned := { v with info := { v.info with group := w } }

/-- An array that is not looked at. -/
def putNowhere (_ : Bytes) : Scanned := v

def putText : Scanned := { v with text := some w }

end Places

open Directive

/-- `%2d:%2d` -/
def clockFormat : List (Directive Scanned) := [digits 2 putHour, lit (ch ':'), digits 2 putMinute]

/-- The places, when nothing was written yet. -/
def Info.fresh (info : Info) : Scanned := ⟨info, none⟩

/-- A format: whether it matches, and the record. -/
abbrev Format := Info → Option (Bool × Info)

/-! ## Apache -/

/-- What the size of `apache` may begin with. -/
def sizeLike (s : Bytes) : Bool := s.head? = some (ch '-') || startsDigit s

/-- `try_apache_listing`: `DD-Mon-YYYY hh:mm size` -/
def tryApacheListing (str : Bytes) : Format := fun info =>
  let (n, v) := sscanf str ([digits 2 putDay, lit (ch '-'), word 3 putMonthName, lit (ch '-'),
    digits 4 putYear, space] ++ clockFormat ++ [space, word 30 putSizeStr]) info.clear.fresh
  some (n = 6 && sizeLike v.info.sizeStr, v.info)

/-- `try_apache_listing_iso`: `YYYY-MM-DD hh:mm size` -/
def tryApacheListingIso (str : Bytes) : Format := fun info =>
  let (n, v) := sscanf str ([digits 4 putYear, lit (ch '-'), digits 2 putMonth, lit (ch '-'),
    digits 2 putDay, space] ++ clockFormat ++ [space, word 30 putSizeStr]) info.clear.fresh
  if n = 6 ∧ sizeLike v.info.sizeStr then
    some (true, { v.info with month := v.info.month - 1 })
  else some (false, v.info)

/-- `try_apache_listing_unusual`: `size DD-Mon-YYYY` -/
def tryApacheListingUnusual (str : Bytes) : Format := fun info =>
  let (n, v) := sscanf str [word 30 putSizeStr, space, digits 2 putDay, lit (ch '-'),
    word 3 putMonthName, lit (ch '-'), int putYear] info.clear.fresh
  some (n = 4 && sizeLike v.info.sizeStr, v.info)

/-! ## Proxies -/

/-- `%3s %3s %d %2d:%2d:%2d %4d %30s` -/
def weekDayFormat : List (Directive Scanned) :=
  [word 3 fun _ v => v, space, word 3 putMonthName, space, int putDay, space] ++ clockFormat
    ++ [lit (ch ':'), digits 2 putSecond, space, digits 4 putYear, space, word 30 putSizeStr]

/-- `try_netscape_proxy` -/
def tryNetscapeProxy (str : Bytes) : Format := fun info =>
  let (n, v) := sscanf str ([int putSize, space, word 6 putText, space, word 3 fun _ v => v, space,
    word 3 putMonthName, space, int putDay, space] ++ clockFormat
      ++ [lit (ch ':'), digits 2 putSecond, space, digits 4 putYear]) info.clear.fresh
  if n = 9 then
    let sizeUnit := v.text.getD []
    if sameNoCase sizeUnit (bytes "bytes") || sameNoCase sizeUnit (bytes "byte") then
      some (true, { v.info with sizeStr := printed 32 (lld v.info.size) })
    else
      some (true, { v.info with sizeStr := printed 32 (lld v.info.size ++ sizeUnit), size := -1 })
  else
    -- what the first format has read stays
    let (n, v) := sscanf str weekDayFormat v
    if n = 7 ∨ (n = 8 ∧ !startsDigit v.info.sizeStr) then
      some (true, { v.info with
        sizeStr := bytes "-"
        isSymLink := v.info.isSymLink || !v.info.isDirectory })
    else some (false, v.info)

/-- `try_squid_eplf` -/
def trySquidEplf (str : Bytes) : Format := fun info =>
  let (n, v) := sscanf str weekDayFormat info.clear.fresh
  some (n = 8, v.info)

/-- `try_mini_proxy` -/
def tryMiniProxy (buf : Bytes) : Format := fun info =>
  let (n, v) := sscanf buf [int putMonth, lit (ch '/'), int putDay, lit (ch '/'), int putYear, space,
    int putHour, lit (ch ':'), int putMinute, space, word 2 putText, space, word 30 putSizeStr]
    info.clear.fresh
  if n = 7 then
    let info := v.info
    let info :=
      if sameNoCase (v.text.getD []) (bytes "PM") then
        let hour := toInt (info.hour + 12)
        { info with hour := if hour = 24 then 0 else hour }
      else info
    let info :=
      if startsDigit info.sizeStr then info
      else { info with
        isDirectory := info.isDirectory || sameNoCase info.sizeStr (bytes "<dir>")
        sizeStr := bytes "-" }
    some (true, { info with month := toInt (info.month - 1) })
  else some (false, v.info)

/-! ## Lines of `ls` -/

/-- `parse_year_or_time` of a local array; the third byte is looked at in any case. -/
def yearOrTime (text : Option Bytes) : Option (Option (Int × Int × Int)) :=
  match text with
  | none => none
  | some t => if t.length < 2 then none else some (parseYearOrTime t [])

/-- `%11s %d %31s %31s %lld %3s %2d %5s`, or without a group. -/
def lsFormat (group : Bool) : List (Directive Scanned) :=
  [word 11 putPerms, space, int putNlink, space, word 31 putUser, space]
    ++ (if group then [word 31 putGroup, space] else [])
    ++ [int putSize, space, word 3 putMonthName, space, digits 2 putDay, space, word 5 putText]

/-- The lines that `try_apache_unixlike` and `try_wwwoffle_ftp` know. A symbolic link has the target
`symLink`, where there is one. -/
def tryLs (buf : Bytes) (symLink : Option Bytes) : Format := fun info =>
  let (n, v) := sscanf buf (lsFormat true) info.clear.fresh
  let (n, v) :=
    -- bsd-like listing without group?
    if n = 4 then sscanf buf (lsFormat false) { v with info := { v.info with group := [] } }
    else (n, v)
  let info := v.info
  if n < 7 then some (false, info)
  else if (parsePerms (info.perms.drop 1)).isNone then some (false, info)
  else
    match parseMonth info.monthName with
    | none => some (false, { info with month := -1 })
    | some month =>
      let info := { info with month := month }
      (yearOrTime v.text).map fun t => match t with
        | none => (false, info)
        | some (year, hour, minute) =>
          let info := { info with
            year := year, hour := hour, minute := minute, sizeStr := printed 32 (lld info.size) }
          if info.perms.head? = some (ch 'd') then (true, { info with isDirectory := true })
          else if info.perms.head? = some (ch 'l') then
            (true, { info with isSymLink := true, symLink := symLink })
          else (true, info)

/-- What is behind the first `needle`. -/
def textBehind (needle s : Bytes) : Option Bytes :=
  (strstr needle (cstr s)).map fun i => (cstr s).drop (i + needle.length)

/-- `try_apache_unixlike`; the target of a symbolic link is in the text of the anchor. -/
def tryApacheUnixlike (buf anchor : Bytes) : Format := tryLs buf (textBehind (bytes " -> ") anchor)

/-- `try_wwwoffle_ftp`; the target is in the text behind the anchor. -/
def tryWwwoffleFtp (buf ext : Bytes) : Format := tryLs buf (textBehind (bytes "-&gt; ") ext)

/-- `try_squid_ftp`: `Mon DD (YYYY or hh:mm) [size]` -/
def trySquidFtp (str strWithTags : Bytes) : Format := fun info =>
  let (n, v) := sscanf str [word 3 putMonthName, space, digits 2 putDay, space, word 5 putText, space,
    word 30 putSizeStr] info.clear.fresh
  let info := v.info
  if n < 3 then some (false, info)
  else
    let info := if startsDigit info.sizeStr then info else { info with sizeStr := bytes "-" }
    (yearOrTime v.text).map fun t => match t with
      | none => (false, info)
      | some (year, hour, minute) =>
        let info := { info with year := year, hour := hour, minute := minute }
        if (parseMonth info.monthName).isNone then (false, info)
        else
          match textBehind (bytes " -> <A HREF=\"") strWithTags with
          | none => (true, info)
          | some symLink =>
            (true, { info with
              isSymLink := true
              symLink :=
                if ch '"' ∈ symLink then
                  some (cstr (percentDecode (symLink.takeWhile (· ≠ ch '"'))))
                else none })

/-! ## Other servers -/

/-- The text between `needle` and the next `<`, and what begins there. -/
def cell (needle s : Bytes) : Option (Bytes × Bytes) :=
  match textBehind needle s with
  | none => none
  | some next =>
    if ch '<' ∈ next then some (next.takeWhile (· ≠ ch '<'), next.dropWhile (· ≠ ch '<')) else none

/-- `try_lighttpd_listing` -/
def tryLighttpdListing (strWithTags : Bytes) : Format := fun info =>
  let info := info.clear
  let (info, s) :=
    if strWithTags.head? = some (ch '/') then
      ({ info with isDirectory := true }, strWithTags.drop 1)
    else (info, strWithTags)
  match cell (bytes "\"m\">") s with
  | none => some (false, info)
  | some (datetime, s) =>
    match cell (bytes "\"s\">") s with
    | none => some (false, info)
    | some (size, _) =>
      let (n, v) := sscanf datetime ([digits 4 putYear, lit (ch '-'), word 3 putMonthName,
        lit (ch '-'), digits 2 putDay, space] ++ clockFormat ++ [lit (ch ':'), digits 2 putSecond])
        info.fresh
      if n ≠ 6 then some (false, v.info)
      else
        some (true,
          if startsDigit size then { v.info with sizeStr := printed 32 size } else v.info)

/-- The set of `%*[]`: small letters, digits, a slash and a dash. -/
def isMime (c : UInt8) : Bool :=
  (97 ≤ c.toNat && c.toNat ≤ 122) || isDigit c || c = ch '/' || c = ch '-'

/-- `try_roxen`: `[size] {kb/Mb} application/octet-stream YYYY-MM-DD` or `directory YYYY-MM-DD`, on the
next line -/
def tryRoxen (str : Bytes) : Format := fun info =>
  let info := info.clear
  let behind := if str.head? = some (ch '\n') then str.drop 1 else str
  if ch '\n' ∉ behind then some (false, info)
  else
    let line := behind.dropWhile (· ≠ ch '\n')
    let date := [digits 4 putYear, lit (ch '-'), digits 2 putMonth, lit (ch '-'), digits 2 putDay]
    let (n, v) := sscanf line ([word 26 putSizeStr, space, word 5 putText, space, among isMime,
      space] ++ date) info.fresh
    let sizeMod := v.text.getD []
    if n = 5 ∧ ((bytes "byte").isPrefixOf sizeMod ∨ sizeMod = bytes "kb" ∨ sizeMod = bytes "Mb"
        ∨ sizeMod = bytes "Gb") then
      some (true, { v.info with sizeStr := printed 32 (v.info.sizeStr ++ sizeMod) })
    else
      let v := { v with info := { v.info with sizeStr := bytes "-" } }
      let (n, v) := sscanf line ([space] ++ (bytes "directory").map lit ++ [space] ++ date) v
      if n = 3 then some (true, { v.info with isDirectory := true }) else some (false, v.info)

/-- `try_csm_proxy` -/
def tryCsmProxy (str : Bytes) : Format := fun info =>
  let start := [int putSize, space, word 3 putMonthName, space, int putDay, space]
  let (n, v) := sscanf str (start ++ clockFormat ++ [word 32 putText]) info.clear.fresh
  let (status, additional, info) :=
    if 5 ≤ n then (true, if n = 6 then v.text else none, v.info)
    else
      -- try to match year instead of hour:minute
      let (n, v) := sscanf str (start ++ [digits 4 putYear, word 32 putText])
        v.info.clear.fresh
      (decide (4 ≤ n), if n = 5 then v.text else none, v.info)
  if !status then some (false, info)
  else
    let info := { info with sizeStr := printed 32 (lld info.size) }
    match additional with
    | none => some (true, info)
    | some text =>
      if beginsNoCase (bytes "Symbolic Link") text then some (true, { info with isSymLink := true })
      else if beginsNoCase (bytes "Directory") text then
        some (true, { info with isDirectory := true })
      else some (false, info)

/-! ## The arrays -/

/-- No text is longer than its array, which also holds a NUL. -/
def Info.Fits (info : Info) : Prop :=
  info.monthName.length < 32 ∧ info.sizeStr.length < 32 ∧ info.perms.length < 12
    ∧ info.user.length < 32 ∧ info.group.length < 32

theorem Info.fits_clear (info : Info) : info.clear.Fits := by
  refine ⟨?_, ?_, ?_, ?_, ?_⟩ <;> exact Nat.zero_lt_succ _

theorem Info.Fits.withSizeStr {info : Info} (h : info.Fits) {s : Bytes} (hs : s.length < 32) :
    { info with sizeStr := s }.Fits :=
  ⟨h.1, hs, h.2.2⟩

theorem length_printed (s : Bytes) : (printed 32 s).length < 32 :=
  Nat.lt_succ_of_le (List.length_take_le 31 s)

section Keeps

/-- The record of a format fits. -/
def ArraysFit (v : Scanned) : Prop := v.info.Fits

variable {width : Nat} {put : Int → Scanned → Scanned}

@[simp] theorem keeps_space : Directive.space.Keeps ArraysFit := trivial

@[simp] theorem keeps_lit (c : UInt8) : (lit c).Keeps ArraysFit := trivial

@[simp] theorem keeps_among (p : UInt8 → Bool) : (among p).Keeps ArraysFit := trivial

@[simp] theorem keeps_monthName (h : width < 32) : (word width putMonthName).Keeps ArraysFit :=
  fun _ _ hw hv => ⟨Nat.lt_of_le_of_lt hw h, hv.2⟩

@[simp] theorem keeps_sizeStr (h : width < 32) : (word width putSizeStr).Keeps ArraysFit :=
  fun _ _ hw hv => Info.Fits.withSizeStr hv (Nat.lt_of_le_of_lt hw h)

@[simp] theorem keeps_perms (h : width < 12) : (word width putPerms).Keeps ArraysFit :=
  fun _ _ hw hv => ⟨hv.1, hv.2.1, Nat.lt_of_le_of_lt hw h, hv.2.2.2⟩

@[simp] theorem keeps_user (h : width < 32) : (word width putUser).Keeps ArraysFit :=
  fun _ _ hw hv => ⟨hv.1, hv.2.1, hv.2.2.1, Nat.lt_of_le_of_lt hw h, hv.2.2.2.2⟩

@[simp] theorem keeps_group (h : width < 32) : (word width putGroup).Keeps ArraysFit :=
  fun _ _ hw hv => ⟨hv.1, hv.2.1, hv.2.2.1, hv.2.2.2.1, Nat.lt_of_le_of_lt hw h⟩

@[simp] theorem keeps_text : (word width putText).Keeps ArraysFit := fun _ _ _ hv => hv

@[simp] theorem keeps_unused : (word width fun _ v => v).Keeps ArraysFit := fun _ _ _ hv => hv

/-- A number is put into no array. -/
def Arrayless (put : Int → Scanned → Scanned) : Prop := ∀ n v, ArraysFit v → ArraysFit (put n v)

@[simp] theorem keeps_int (h : Arrayless put) : (int put).Keeps ArraysFit := h

@[simp] theorem keeps_digits (h : Arrayless put) : (digits width put).Keeps ArraysFit := h

@[simp] theorem arrayless_size : Arrayless putSize := fun _ _ h => h
@[simp] theorem arrayless_year : Arrayless putYear := fun _ _ h => h
@[simp] theorem arrayless_month : Arrayless putMonth := fun _ _ h => h
@[simp] theorem arrayless_day : Arrayless putDay := fun _ _ h => h
@[simp] theorem arrayless_hour : Arrayless putHour := fun _ _ h => h
@[simp] theorem arrayless_minute : Arrayless putMinute := fun _ _ h => h
@[simp] theorem arrayless_second : Arrayless putSecond := fun _ _ h => h
@[simp] theorem arrayless_nlink : Arrayless putNlink := fun _ _ h => h

theorem fits_scanned {format : List (Directive Scanned)} {s : Bytes} {v : Scanned}
    (h : ∀ d ∈ format, d.Keeps ArraysFit) (hv : v.info.Fits) : (sscanf s format v).2.info.Fits :=
  sscanf_keeps h s hv

theorem fits_sscanf {format : List (Directive Scanned)} {s : Bytes} {v v' : Scanned} {n : Nat}
    (hScan : sscanf s format v = (n, v')) (h : ∀ d ∈ format, d.Keeps ArraysFit)
    (hv : v.info.Fits) : v'.info.Fits := by
  have hFits := fits_scanned (s := s) h hv
  rw [hScan] at hFits
  exact hFits

end Keeps

/-- Whatever the text is, a format leaves a record that fits. -/
def Format.Safe (format : Format) : Prop :=
  ∀ info matched info', format info = some (matched, info') → info'.Fits

section Safe

variable (str ext : Bytes)

theorem tryApacheListing_safe : Format.Safe (tryApacheListing str) := by
  intro info matched info' h
  unfold tryApacheListing at h
  split at h
  next n v hScan =>
    obtain ⟨-, rfl⟩ := Prod.mk.inj (Option.some.inj h)
    exact fits_sscanf hScan (by simp [clockFormat]) info.fits_clear

theorem tryApacheListingIso_safe : Format.Safe (tryApacheListingIso str) := by
  intro info matched info' h
  unfold tryApacheListingIso at h
  split at h
  next n v hScan =>
    have hFits : v.info.Fits := fits_sscanf hScan (by simp [clockFormat]) info.fits_clear
    split at h <;> obtain ⟨-, rfl⟩ := Prod.mk.inj (Option.some.inj h) <;> exact hFits

theorem tryApacheListingUnusual_safe : Format.Safe (tryApacheListingUnusual str) := by
  intro info matched info' h
  unfold tryApacheListingUnusual at h
  split at h
  next n v hScan =>
    obtain ⟨-, rfl⟩ := Prod.mk.inj (Option.some.inj h)
    exact fits_sscanf hScan (by simp) info.fits_clear

theorem tryNetscapeProxy_safe : Format.Safe (tryNetscapeProxy str) := by
  intro info matched info' h
  unfold tryNetscapeProxy at h
  split at h
  next n v hScan =>
    have hFits : v.info.Fits := fits_sscanf hScan (by simp [clockFormat]) info.fits_clear
    by_cases hNine : n = 9
    · rw [if_pos hNine] at h
      dsimp only at h
      split at h <;> obtain ⟨-, rfl⟩ := Prod.mk.inj (Option.some.inj h) <;>
        exact hFits.withSizeStr (length_printed _)
    · rw [if_neg hNine] at h
      split at h
      next n' v' hAgain =>
        have hFits' : v'.info.Fits :=
          fits_sscanf hAgain (by simp [weekDayFormat, clockFormat]) hFits
        split at h <;> obtain ⟨-, rfl⟩ := Prod.mk.inj (Option.some.inj h)
        · exact hFits'.withSizeStr (by decide)
        · exact hFits'

theorem trySquidEplf_safe : Format.Safe (trySquidEplf str) := by
  intro info matched info' h
  unfold trySquidEplf at h
  split at h
  next n v hScan =>
    obtain ⟨-, rfl⟩ := Prod.mk.inj (Option.some.inj h)
    exact fits_sscanf hScan (by simp [weekDayFormat, clockFormat]) info.fits_clear

theorem tryMiniProxy_safe : Format.Safe (tryMiniProxy str) := by
  intro info matched info' h
  unfold tryMiniProxy at h
  split at h
  next n v hScan =>
    have hFits : v.info.Fits := fits_sscanf hScan (by simp) info.fits_clear
    by_cases hSeven : n = 7
    · rw [if_pos hSeven] at h
      obtain ⟨-, rfl⟩ := Prod.mk.inj (Option.some.inj h)
      have hSize (later : Info) (hLater : later.Fits) : (if startsDigit later.sizeStr then later
          else { later with
            isDirectory := later.isDirectory || sameNoCase later.sizeStr (bytes "<dir>")
            sizeStr := bytes "-" }).Fits := by
        split
        · exact hLater
        · exact hLater.withSizeStr (by decide)
      exact hSize _ (by split <;> exact hFits)
    · rw [if_neg hSeven] at h
      obtain ⟨-, rfl⟩ := Prod.mk.inj (Option.some.inj h)
      exact hFits

theorem tryLs_safe (symLink : Option Bytes) : Format.Safe (tryLs str symLink) := by
  intro info matched info' h
  unfold tryLs at h
  split at h
  next n v hScan =>
    have hFits : v.info.Fits := by
      refine fits_sscanf hScan ?_ info.fits_clear
      simp [lsFormat]
    have hGroup : ({ v.info with group := [] } : Info).Fits :=
      ⟨hFits.1, hFits.2.1, hFits.2.2.1, hFits.2.2.2.1, Nat.zero_lt_succ _⟩
    split at h
    next n' v' hAgain =>
      have hFits' : v'.info.Fits := by
        split at hAgain
        · exact fits_sscanf hAgain (by simp [lsFormat]) hGroup
        · cases hAgain
          exact hFits
      have hPrinted := hFits'.withSizeStr (length_printed (lld v'.info.size))
      dsimp only at h
      split at h
      · cases h
        exact hFits'
      · split at h
        · cases h
          exact hFits'
        · split at h
          · cases h
            exact hFits'
          · obtain ⟨t, -, hEnd⟩ := Option.map_eq_some_iff.mp h
            split at hEnd
            · cases hEnd
              exact hFits'
            · split at hEnd
              · cases hEnd
                exact hPrinted
              · split at hEnd <;> cases hEnd <;> exact hPrinted

theorem trySquidFtp_safe : Format.Safe (trySquidFtp str ext) := by
  intro info matched info' h
  unfold trySquidFtp at h
  split at h
  next n v hScan =>
    have hFits : v.info.Fits := fits_sscanf hScan (by simp) info.fits_clear
    dsimp only at h
    by_cases hThree : n < 3
    · rw [if_pos hThree] at h
      cases h
      exact hFits
    · rw [if_neg hThree] at h
      have hSize : (if startsDigit v.info.sizeStr then v.info
          else { v.info with sizeStr := bytes "-" }).Fits := by
        split
        · exact hFits
        · exact hFits.withSizeStr (by decide)
      generalize (if startsDigit v.info.sizeStr then v.info
          else { v.info with sizeStr := bytes "-" }) = later at h hSize
      obtain ⟨t, -, hEnd⟩ := Option.map_eq_some_iff.mp h
      split at hEnd
      · cases hEnd
        exact hSize
      · split at hEnd
        · cases hEnd
          exact hSize
        · split at hEnd <;> cases hEnd <;> exact hSize

theorem tryLighttpdListing_safe : Format.Safe (tryLighttpdListing str) := by
  intro info matched info' h
  unfold tryLighttpdListing at h
  split at h
  all_goals
    dsimp only at h
    split at h
    · cases h
      exact info.fits_clear
    · split at h
      · cases h
        exact info.fits_clear
      · split at h
        · cases h
          exact fits_scanned (by simp [clockFormat]) info.fits_clear
        · obtain ⟨-, rfl⟩ := Prod.mk.inj (Option.some.inj h)
          split
          · refine Info.Fits.withSizeStr ?_ (length_printed _)
            exact fits_scanned (by simp [clockFormat]) info.fits_clear
          · exact fits_scanned (by simp [clockFormat]) info.fits_clear

theorem tryRoxen_safe : Format.Safe (tryRoxen str) := by
  intro info matched info' h
  unfold tryRoxen at h
  dsimp only at h
  generalize (if str.head? = some (ch '\n') then str.drop 1 else str) = behind at h
  split at h
  · cases h
    exact info.fits_clear
  · generalize hScan : sscanf _ _ info.clear.fresh = r at h
    have hFits : r.2.info.Fits := fits_sscanf hScan (by simp) info.fits_clear
    split at h
    · cases h
      exact hFits.withSizeStr (length_printed _)
    · generalize hAgain : sscanf _ _ _ = r' at h
      have hFits' : r'.2.info.Fits :=
        fits_sscanf hAgain (by simp [or_imp, forall_and]) (hFits.withSizeStr (by decide))
      split at h <;> cases h <;> exact hFits'

theorem tryCsmProxy_safe : Format.Safe (tryCsmProxy str) := by
  intro info matched info' h
  unfold tryCsmProxy at h
  dsimp only at h
  generalize hScan : sscanf _ _ info.clear.fresh = r at h
  have hFits : r.2.info.Fits := fits_sscanf hScan (by simp [clockFormat]) info.fits_clear
  generalize hAgain : sscanf _ _ r.2.info.clear.fresh = r' at h
  have hFits' : r'.2.info.Fits := fits_sscanf hAgain (by simp) r.2.info.fits_clear
  generalize hLater : (if 5 ≤ r.1 then _ else _ : Bool × Option Bytes × Info) = later at h
  have hLater : later.2.2.Fits := by
    rw [← hLater]
    split
    · exact hFits
    · exact hFits'
  have hPrinted := hLater.withSizeStr (length_printed (lld later.2.2.size))
  split at h
  · cases h
    exact hLater
  · split at h
    · cases h
      exact hPrinted
    · split at h
      · cases h
        exact hPrinted
      · split at h <;> cases h <;> exact hPrinted

end Safe

/-- What `validate` looks for. -/
def Info.Dated (info : Info) : Prop :=
  (1 ≤ info.day ∧ info.day ≤ 31) ∧ (-1 ≤ info.hour ∧ info.hour ≤ 23)
    ∧ (-1 ≤ info.minute ∧ info.minute ≤ 59)
    ∧ (info.month = -1 → info.monthName.head?.any isAlnum = true)

theorem Info.dated_validate {info : Info} (h : info.validate.1 = true) : info.validate.2.Dated := by
  change (!(info.validate.2.day < 1 || 31 < info.validate.2.day || info.validate.2.hour < -1
    || 23 < info.validate.2.hour || info.validate.2.minute < -1 || 59 < info.validate.2.minute
    || (info.validate.2.month = -1 && !info.validate.2.monthName.head?.any isAlnum))) = true at h
  unfold Info.Dated
  generalize info.validate.2 = checked at h
  simp only [Bool.not_eq_true', Bool.or_eq_false_iff, decide_eq_false_iff_not,
    Bool.and_eq_false_iff, Bool.not_eq_false'] at h
  obtain ⟨⟨⟨⟨⟨⟨hDay, hDay'⟩, hHour⟩, hHour'⟩, hMinute⟩, hMinute'⟩, hMonth⟩ := h
  refine ⟨⟨by omega, by omega⟩, ⟨by omega, by omega⟩, ⟨by omega, by omega⟩, fun h => ?_⟩
  exact hMonth.resolve_left (not_not_intro h)

theorem Info.Fits.validate {info : Info} (h : info.Fits) : info.validate.2.Fits := by
  unfold Info.validate
  dsimp only
  split
  · split
    · exact h
    · split <;> exact h
  · exact h

end Lftp.Ports.HtmlDir
