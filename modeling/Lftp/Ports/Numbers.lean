import Lftp.Ports.PgetChunks
import Lftp.Verified.Scan
import Mathlib.Algebra.Order.Ring.Int

/-!
# Numbers in settings

A number may have a sign, a prefix that says its base, and a letter for a power of 1024. The
validators admit such a text, `toNumber` and `toUnumber` read it, and a `NumberPair` is two of
them. A product of `long long`s that overflows has no meaning, one of `unsigned long long`s wraps.

`exact` is what the text says. `reads_iff_fits`: it is read exactly, or the bound next to it is, unless
the product in `toNumber` overflows.
-/

namespace Lftp.Ports.Numbers

open Lftp.Verified
open Lftp.Ports.PgetChunks (Fault scanNumber power_letter toupper powerLoop get_power_multiplier
  UNumberValidate)

/-! ## Reading -/

/-- What `strtoll` and `strtoull` find in base 0: a sign, the number and where it ends. No value
is no number. -/
def scan (s : Bytes) : Option (Bool × Nat × Bytes) :=
  let (neg, t) := scanSign (skipSpace s)
  if isDigit (t.getD 0 0) then some (neg, scanNumber t) else none

/-- A number with its sign. -/
def signed (neg : Bool) (n : Nat) : Int := if neg then -n else n

def clamp (lo hi x : Int) : Int := max lo (min hi x)

/-- A result of `long long`. -/
def isLL (x : Int) : Prop := -2 ^ 63 ≤ x ∧ x < 2 ^ 63

instance (x : Int) : Decidable (isLL x) := inferInstanceAs (Decidable (_ ∧ _))

/-- `strtoll(s,&end,0)` and the text at `end`. -/
def strtoll (s : Bytes) : Int × Bytes :=
  match scan s with
  | some (neg, n, rest) => (clamp (-2 ^ 63) (2 ^ 63 - 1) (signed neg n), rest)
  | none => (0, s)

/-- `strtoull(s,&end,0)`, which takes a sign and wraps. -/
def strtoull (s : Bytes) : Nat × Bytes :=
  match scan s with
  | some (neg, n, rest) =>
    (if 2 ^ 64 ≤ n then 2 ^ 64 - 1 else if neg then (2 ^ 64 - n) % 2 ^ 64 else n, rest)
  | none => (0, s)

/-- `end[m>1]`, with the end of the string behind it. -/
def after (m : Nat) (rest : Bytes) : UInt8 := rest.getD (if 1 < m then 1 else 0) 0

/-- `NumberValidate`: the error. -/
def numberValidate (value : Bytes) : Option Bytes :=
  let rest := (strtoll value).2
  let m := get_power_multiplier (rest.getD 0 0)
  if value.length = rest.length ∨ m = 0 ∨ after m rest ≠ 0 then some (bytes "invalid number")
  else none

/-- `to_unumber` -/
def toUnumber (most : Nat) : Option Bytes → Except Fault Nat
  | none => .ok 0
  | some s =>
    let v := (strtoull s).1
    let m := get_power_multiplier ((strtoull s).2.getD 0 0)
    let vm := v * m % 2 ^ 64
    if m = 0 then .error .divisionByZero
    else if vm / m ≠ v ∨ most < vm then .ok most
    else .ok vm

/-- A product of `long long`s. -/
def mul (a b : Int) : Except Fault Int := if isLL (a * b) then .ok (a * b) else .error .overflow

/-- `to_number` -/
def toNumber (least most : Int) : Option Bytes → Except Fault Int
  | none => .ok 0
  | some s => do
    let v := (strtoll s).1
    let m : Int := get_power_multiplier ((strtoll s).2.getD 0 0)
    let vm ← mul v m
    if m = 0 then .error .divisionByZero
    else if vm.tdiv m ≠ v then .ok (if 0 < v then most else least)
    else if most < vm then .ok most
    else if vm < least then .ok least
    else .ok vm

/-! ## Pairs -/

structure NumberPair where
  n1 : Int
  n2 : Int
  noN1 : Bool
  noN2 : Bool
  error : Option Bytes

/-- `NumberPair::parse1`: the number and the error. -/
def parse1 (s : Bytes) : Except Fault (Int × Option Bytes) :=
  if s.getD 0 0 = 0 then .ok (0, none)
  else
    let v := (strtoll s).1
    let rest := (strtoll s).2
    let m := get_power_multiplier (rest.getD 0 0)
    if s.length = rest.length ∨ m = 0 ∨ after m rest ≠ 0 then .ok (0, some (bytes "invalid number"))
    else do
      let vm ← mul v m
      if vm.tdiv m ≠ v then .ok (0, some (bytes "integer overflow")) else .ok (vm, none)

/-- The texts before and after the first separator. -/
def cut (sep : UInt8) (s : Bytes) : Bytes × Option Bytes :=
  let stays (c : UInt8) : Bool := c ≠ 0 && c ≠ sep && c ≠ ch ':'
  (s.takeWhile stays,
    match s.dropWhile stays with
    | [] => none
    | c :: rest => if c = 0 then none else some rest)

/-- `NumberPair::Set` -/
def NumberPair.set (sep : UInt8) : Option Bytes → Except Fault NumberPair
  | none => .ok ⟨0, 0, true, true, none⟩
  | some s => do
    let (s1, s2) := cut sep s
    let (n1, error1) ← parse1 s1
    let (n2, error2) ← match s2 with
      | some s2 => parse1 s2
      | none => .ok (n1, none)
    .ok ⟨n1, n2, s1.getD 0 0 = 0, s2.any fun s2 => s2.getD 0 0 = 0, error2 <|> error1⟩

/-- `UNumberPairValidate`: the error. -/
def uNumberPairValidate (value : Bytes) : Except Fault (Option Bytes) := do
  let pair ← NumberPair.set (ch ':') (some value)
  .ok pair.error

/-- A `long long` in an `int`. -/
def toInt (x : Int) : Int := x.bmod (2 ^ 32)

/-- The two numbers of a pair, where the first one may stand for both. -/
def NumberPair.both (pair : NumberPair) : Int × Int :=
  if pair.error.isSome then (0, 0) else (pair.n1, if pair.noN2 then pair.n1 else pair.n2)

/-- `ToNumberPair` -/
def toNumberPair (s : Option Bytes) : Except Fault (Int × Int) := do
  let pair ← NumberPair.set (ch ':') s
  .ok (toInt pair.both.1, toInt pair.both.2)

/-! ## What a text says -/

/-- The power of 1024 that a letter stands for. -/
def exponent (c : UInt8) : Nat := power_letter.idxOf (toupper c)

/-- The number that a text says. -/
def exact (s : Bytes) : Int :=
  match scan s with
  | some (neg, n, rest) => signed neg n * 1024 ^ exponent (rest.getD 0 0)
  | none => 0

/-- One of the validators accepts it. -/
def Accepted (s : Bytes) : Prop := numberValidate s = none ∨ UNumberValidate s = none

/-- It is read exactly, or the bound next to it is. -/
structure Reads (s : Bytes) : Prop where
  number : ∀ least most, isLL least → isLL most → least ≤ most →
    toNumber least most (some s) = .ok (clamp least most (exact s))
  unumber : UNumberValidate s = none → ∀ most < 2 ^ 64,
    toUnumber most (some s) = .ok (min most (exact s).toNat)

/-- The product of what `strtoll` gives and the multiplier is a `long long`. -/
def Fits (s : Bytes) : Prop :=
  isLL ((strtoll s).1 * 1024 ^ exponent ((strtoll s).2.getD 0 0))

/-! ## Multipliers -/

theorem powerLoop_of_notMem {p : UInt8} {letters : Bytes} (h : p ∉ letters) (mul : Nat) :
    powerLoop p letters mul = 0 := by
  induction letters generalizing mul with
  | nil => rfl
  | cons letter letters ih =>
      rw [List.mem_cons, not_or] at h
      rw [powerLoop, if_neg h.1]
      exact ih h.2 _

/-- The letters up to `E` stand for what they should; `Z` and `Y` are too large. -/
theorem multiplier_eq {c : UInt8} (h : get_power_multiplier c ≠ 0) :
    get_power_multiplier c = 1024 ^ exponent c := by
  have hLetters : ∀ p ∈ power_letter, powerLoop p power_letter 1 ≠ 0 →
      powerLoop p power_letter 1 = 1024 ^ power_letter.idxOf p := by decide +kernel
  by_cases hp : toupper c ∈ power_letter
  · exact hLetters (toupper c) hp h
  · exact absurd (powerLoop_of_notMem hp 1) h

/-! ## Texts that are accepted -/

variable {s : Bytes}

theorem multiplier_of_number (h : numberValidate s = none) :
    ∃ neg n rest, scan s = some (neg, n, rest) ∧ get_power_multiplier (rest.getD 0 0) ≠ 0 := by
  unfold numberValidate strtoll at h
  cases hScan : scan s with
  | none => simp [hScan] at h
  | some r =>
      obtain ⟨neg, n, rest⟩ := r
      simp only [hScan] at h
      refine ⟨neg, n, rest, rfl, fun hZero => ?_⟩
      rw [if_pos (.inr (.inl hZero))] at h
      cases h

/-- A text that begins with a digit has neither white space nor a sign. -/
theorem scan_of_digit (h : isDigit (s.getD 0 0) = true) : scan s = some (false, scanNumber s) := by
  cases s with
  | nil => exact absurd h (by decide)
  | cons c s =>
      have hDigit : isDigit c = true := h
      unfold scan
      rw [skipSpace_of_isDigit hDigit, scanSign_of_isDigit hDigit]
      exact if_pos h

theorem digit_of_unumber (h : UNumberValidate s = none) : isDigit (s.getD 0 0) = true := by
  by_contra hNot
  unfold UNumberValidate at h
  rw [if_pos (.inl hNot)] at h
  cases h

theorem multiplier_of_unumber (h : UNumberValidate s = none) :
    ∃ n rest, scan s = some (false, n, rest) ∧ get_power_multiplier (rest.getD 0 0) ≠ 0 := by
  have hMultiplier := PgetChunks.multiplier_ne_zero h
  exact ⟨(scanNumber s).1, (scanNumber s).2, scan_of_digit (digit_of_unumber h), hMultiplier⟩

theorem Accepted.scan (h : Accepted s) :
    ∃ neg n rest, scan s = some (neg, n, rest) ∧ get_power_multiplier (rest.getD 0 0) ≠ 0 := by
  rcases h with hNumber | hUnumber
  · exact multiplier_of_number hNumber
  · obtain ⟨n, rest, hScan, hMultiplier⟩ := multiplier_of_unumber hUnumber
    exact ⟨false, n, rest, hScan, hMultiplier⟩

/-! ## Reading is exact -/

theorem clamp_of_le {lo hi x : Int} (h : lo ≤ hi) (hx : hi ≤ x) : clamp lo hi x = hi := by
  unfold clamp
  omega

theorem clamp_of_ge {lo hi x : Int} (hx : x ≤ lo) : clamp lo hi x = lo := by
  unfold clamp
  omega

theorem clamp_of_mem {lo hi x : Int} (hLo : lo ≤ x) (hHi : x ≤ hi) : clamp lo hi x = x := by
  unfold clamp
  omega

/-- A number that `strtoll` cuts does not fit with a multiplier, and without one the bounds cut
it again. -/
theorem clamp_mul {x m least most : Int} (hm : 1 ≤ m)
    (hFits : isLL (clamp (-2 ^ 63) (2 ^ 63 - 1) x * m))
    (hLeast : isLL least) (hMost : isLL most) (h : least ≤ most) :
    clamp least most (clamp (-2 ^ 63) (2 ^ 63 - 1) x * m) = clamp least most (x * m) := by
  unfold isLL at *
  rcases le_total x (2 ^ 63 - 1) with hUpper | hUpper
  · rcases le_total (-2 ^ 63) x with hLower | hLower
    · rw [clamp_of_mem hLower hUpper]
    · rw [clamp_of_ge hLower] at hFits ⊢
      obtain rfl : m = 1 := by omega
      rw [Int.mul_one, Int.mul_one, clamp_of_ge hLeast.1, clamp_of_ge (by omega)]
  · rw [clamp_of_le (by omega) hUpper] at hFits ⊢
    obtain rfl : m = 1 := by omega
    rw [Int.mul_one, Int.mul_one, clamp_of_le h (by omega), clamp_of_le h (by omega)]

/-- What `toNumber` does with a product that fits. -/
theorem toNumber_eq {least most v : Int} {m : Nat} {rest : Bytes} (hRead : strtoll s = (v, rest))
    (hm : get_power_multiplier (rest.getD 0 0) = m) (hPos : m ≠ 0) (hFits : isLL (v * m))
    (h : least ≤ most) : toNumber least most (some s) = .ok (clamp least most (v * m)) := by
  have hDiv : (v * m).tdiv m = v := Int.mul_tdiv_cancel v (by omega)
  have hMul : mul v m = .ok (v * m) := if_pos hFits
  unfold toNumber
  simp only [hRead, hm, hMul, ok_bind, hDiv]
  rw [if_neg (by omega), if_neg (by simp)]
  unfold clamp
  split_ifs with h₁ h₂
  · rw [min_eq_left h₁.le, max_eq_right h]
  · rw [min_eq_right (by omega), max_eq_left h₂.le]
  · rw [min_eq_right (by omega), max_eq_right (by omega)]

/-- The product is undone, or it does not fit. -/
theorem toUnumber_eq {most v m : Nat} {rest : Bytes} (hRead : strtoull s = (v, rest))
    (hm : get_power_multiplier (rest.getD 0 0) = m) (hPos : m ≠ 0) (hMost : most < 2 ^ 64) :
    toUnumber most (some s) = .ok (min most (v * m)) := by
  unfold toUnumber
  simp only [hRead, hm, if_neg hPos]
  by_cases hFits : v * m < 2 ^ 64
  · have hDiv : v * m / m = v := Nat.mul_div_cancel v (Nat.pos_of_ne_zero hPos)
    rw [Nat.mod_eq_of_lt hFits, hDiv]
    split_ifs with h
    · rw [min_eq_left (by omega)]
    · rw [min_eq_right (by omega)]
  · have hDiv : v * m % 2 ^ 64 / m ≠ v := by
      intro hEq
      have hLe := Nat.mul_le_of_le_div m v _ hEq.ge
      have hLt := Nat.mod_lt (v * m) (by decide : 0 < 2 ^ 64)
      omega
    rw [if_pos (.inl hDiv), min_eq_left (by omega)]

theorem natCast_multiplier {c : UInt8} (h : get_power_multiplier c ≠ 0) :
    (1024 : Int) ^ exponent c = get_power_multiplier c := by
  rw [multiplier_eq h]
  exact (Nat.cast_pow 1024 _).symm

/-- A text that one of the validators accepts is read exactly, or the bound next to it is, unless
the product that `toNumber` makes before it looks at it overflows. -/
theorem reads_iff_fits (s : Bytes) (h : Accepted s) : Reads s ↔ Fits s := by
  obtain ⟨neg, n, rest, hScan, hMultiplier⟩ := h.scan
  have hPower := natCast_multiplier hMultiplier
  have hRead : strtoll s = (clamp (-2 ^ 63) (2 ^ 63 - 1) (signed neg n), rest) := by
    rw [strtoll, hScan]
  have hExact : exact s = signed neg n * get_power_multiplier (rest.getD 0 0) := by
    rw [exact, hScan, ← hPower]
  have hFits : Fits s ↔ isLL (clamp (-2 ^ 63) (2 ^ 63 - 1) (signed neg n)
      * get_power_multiplier (rest.getD 0 0)) := by
    rw [Fits, hRead, ← hPower]
  rw [hFits]
  generalize hm : get_power_multiplier (rest.getD 0 0) = m at *
  constructor
  · intro hReads
    by_contra hNot
    have hNumber := hReads.number 0 0 (by decide) (by decide) le_rfl
    have hMul : mul (clamp (-2 ^ 63) (2 ^ 63 - 1) (signed neg n)) m = .error .overflow :=
      if_neg hNot
    unfold toNumber at hNumber
    simp only [hRead, hm, hMul] at hNumber
    cases hNumber
  · intro hFits
    refine ⟨fun least most hLeast hMost hLe => ?_, fun hUnumber most hMost => ?_⟩
    · rw [toNumber_eq hRead hm hMultiplier hFits hLe, hExact,
        clamp_mul (by omega) hFits hLeast hMost hLe]
    · obtain ⟨n', rest', hScan', -⟩ := multiplier_of_unumber hUnumber
      rw [hScan] at hScan'
      obtain ⟨rfl, rfl, rfl⟩ : neg = false ∧ n = n' ∧ rest = rest' := by simpa using hScan'
      have hRead' : strtoull s = (if 2 ^ 64 ≤ n then 2 ^ 64 - 1 else n, rest) := by
        rw [strtoull, hScan]
        rfl
      have hNat : (exact s).toNat = n * m := by
        rw [hExact]
        exact Int.toNat_natCast (n * m)
      rw [toUnumber_eq hRead' hm hMultiplier hMost, hNat]
      split_ifs with hBig
      · have hLeft : 2 ^ 64 - 1 ≤ (2 ^ 64 - 1) * m := Nat.le_mul_of_pos_right _ (by omega)
        have hRight : n ≤ n * m := Nat.le_mul_of_pos_right _ (by omega)
        rw [min_eq_left (by omega), min_eq_left (by omega)]
      · rfl

theorem reads_max : Accepted (bytes " -0x1fG") ∧ Reads (bytes " -0x1fG") := by
  have hAccepted : Accepted (bytes " -0x1fG") := .inl (by decide +kernel)
  exact ⟨hAccepted, (reads_iff_fits _ hAccepted).mpr (by unfold Fits; decide +kernel)⟩

/-- A number of bytes in kibibytes that is one too large. -/
theorem not_reads_large : Accepted (bytes "9007199254740992k")
    ∧ toNumber (-2 ^ 31) (2 ^ 31 - 1) (some (bytes "9007199254740992k")) = .error .overflow
    ∧ ¬ Reads (bytes "9007199254740992k") := by
  have hOverflow : toNumber (-2 ^ 31) (2 ^ 31 - 1) (some (bytes "9007199254740992k"))
      = .error .overflow := by rfl
  refine ⟨.inl (by decide +kernel), hOverflow, fun hReads => ?_⟩
  have hNumber := hReads.number (-2 ^ 31) (2 ^ 31 - 1) (by decide) (by decide) (by decide)
  rw [hOverflow] at hNumber
  cases hNumber

end Lftp.Ports.Numbers
