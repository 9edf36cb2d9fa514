import Lftp.Verified.Tokens
import Mathlib.Data.List.TakeWhile
import Mathlib.Tactic.Ring

/-!
# Civil time

A stamp is a minute of the calendar, from 1970 on. `Stamp.seconds` counts the seconds
from the start of 1970, and `pad2` writes a number with two digits.

* `scanWidth_pad2`: two digits are read back.
* `Stamp.seconds_atHour`: how far apart two hours of one day are.
-/

namespace Lftp.Verified

/-! ## The calendar -/

def leapYear (year : Nat) : Bool := year % 4 = 0 && (year % 100 ≠ 0 || year % 400 = 0)

def yearDays (year : Nat) : Nat := if leapYear year then 366 else 365

def monthDays (year month : Nat) : Nat :=
  if month = 2 then (if leapYear year then 29 else 28)
  else if month = 4 ∨ month = 6 ∨ month = 9 ∨ month = 11 then 30
  else 31

/-- The days from the start of 1970 to the first of a month. -/
def daysBefore (year month : Nat) : Nat :=
  ((List.range' 1970 (year - 1970)).map yearDays).sum
    + ((List.range' 1 (month - 1)).map (monthDays year)).sum

/-- A minute of a day. -/
structure Stamp where
  year : Nat
  month : Nat
  day : Nat
  hour : Nat
  minute : Nat
  year_ge : 1970 ≤ year
  month_pos : 1 ≤ month
  month_le : month ≤ 12
  day_pos : 1 ≤ day
  day_le : day ≤ monthDays year month
  hour_lt : hour < 24
  minute_lt : minute < 60

namespace Stamp

/-- The days from the start of 1970. -/
def days (t : Stamp) : Nat := daysBefore t.year t.month + (t.day - 1)

/-- The seconds from the start of 1970. -/
def seconds (t : Stamp) : Int := ((t.days * 24 + t.hour) * 60 + t.minute) * 60

/-- Another hour of the same day. -/
def atHour (t : Stamp) (hour : Nat) (h : hour < 24) : Stamp := { t with hour := hour, hour_lt := h }

theorem seconds_atHour (t : Stamp) {hour : Nat} (h : hour < 24) :
    (t.atHour hour h).seconds = t.seconds + (hour - t.hour) * 3600 := by
  unfold seconds
  change ((t.days * 24 + (hour : Int)) * 60 + t.minute) * 60 = _
  ring

theorem day_lt (t : Stamp) : t.day < 32 := by
  have hDay := t.day_le
  unfold monthDays at hDay
  split_ifs at hDay <;> omega

end Stamp

/-! ## Two digits -/

/-- A number below 100 with two digits. -/
def pad2 (n : Nat) : Bytes := [digitByte (n / 10), digitByte (n % 10)]

theorem isDigit_pad2 {n : Nat} (h : n < 100) : ∀ c ∈ pad2 n, isDigit c = true := by
  intro c hc
  rcases List.mem_pair.mp hc with rfl | rfl
  · exact isDigit_digitByte (by omega)
  · exact isDigit_digitByte (by omega)

theorem horner_pad2 {n : Nat} (h : n < 100) : horner 0 (pad2 n) = n := by
  unfold pad2
  rw [horner_cons, horner_cons, horner_nil, digitVal_digitByte (by omega),
    digitVal_digitByte (by omega)]
  omega

theorem scanWidth_pad2 {n : Nat} (h : n < 100) (rest : Bytes) :
    scanWidth 2 (pad2 n ++ rest) = some ((n : Int), rest) := by
  have hFirst : isDigit (digitByte (n / 10)) = true := isDigit_digitByte (by omega)
  have hSkip : skipSpace (pad2 n ++ rest) = pad2 n ++ rest := skipSpace_of_isDigit hFirst _
  have hTake : (pad2 n ++ rest).take 2 = pad2 n := rfl
  have hSign : scanSign (pad2 n) = (false, pad2 n) := scanSign_of_isDigit hFirst _
  have hDigits : (pad2 n).takeWhile isDigit = pad2 n :=
    List.takeWhile_eq_self_iff.mpr (isDigit_pad2 h)
  unfold scanWidth
  dsimp only
  rw [hSkip, hTake, hSign]
  dsimp only
  rw [hDigits, if_neg (by unfold pad2; nofun), horner_pad2 h]
  rfl

end Lftp.Verified
