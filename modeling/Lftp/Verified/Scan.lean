import Lftp.Verified.Decimal

/-!
# Formatted input

The directives of `scanf` that line-oriented formats use: `%d` and its wider
kin, literal text, and white space. Each reads from the front of a byte string
and returns the rest. Numbers are unbounded here.

`scanInt_decimal` and `scanLit_append` say that the directives read back what
`printf` writes.
-/

namespace Lftp.Verified

/-- `isspace` of the C locale. -/
def isSpace (c : UInt8) : Bool := c.toNat = 32 || (9 ≤ c.toNat && c.toNat ≤ 13)

/-- White space in a format. -/
def skipSpace (s : Bytes) : Bytes := s.dropWhile isSpace

/-- Literal text in a format. -/
def scanLit (lit s : Bytes) : Option Bytes :=
  if lit.isPrefixOf s then some (s.drop lit.length) else none

/-- The optional sign of a number. -/
def scanSign : Bytes → Bool × Bytes
  | [] => (false, [])
  | c :: s => if c = ch '-' then (true, s) else if c = ch '+' then (false, s) else (false, c :: s)

/-- `%d`, `%ld` and `%lld`. -/
def scanInt (s : Bytes) : Option (Int × Bytes) :=
  let (neg, s) := scanSign (skipSpace s)
  let digits := s.takeWhile isDigit
  if digits = [] then none
  else
    let n : Int := horner 0 digits
    some (if neg then -n else n, s.dropWhile isDigit)

@[simp] theorem skipSpace_idem (s : Bytes) : skipSpace (skipSpace s) = skipSpace s := by
  unfold skipSpace
  induction s with
  | nil => rfl
  | cons c s ih =>
      rw [List.dropWhile_cons]
      split
      · exact ih
      · exact List.dropWhile_cons_of_neg ‹_›

theorem scanLit_append (lit r : Bytes) : scanLit lit (lit ++ r) = some r := by
  unfold scanLit
  rw [if_pos (List.isPrefixOf_iff_prefix.mpr (List.prefix_append lit r)), List.drop_left]

/-- The rest of the input does not continue a number. -/
def EndsNumber (r : Bytes) : Prop := ∀ c ∈ r.head?, isDigit c = false

theorem EndsNumber.takeWhile {r : Bytes} (h : EndsNumber r) : r.takeWhile isDigit = [] := by
  cases r with
  | nil => rfl
  | cons c r => exact List.takeWhile_cons_of_neg (by rw [h c rfl]; nofun)

theorem EndsNumber.dropWhile {r : Bytes} (h : EndsNumber r) : r.dropWhile isDigit = r := by
  cases r with
  | nil => rfl
  | cons c r => exact List.dropWhile_cons_of_neg (by rw [h c rfl]; nofun)

theorem skipSpace_of_isDigit {c : UInt8} (h : isDigit c = true) (s : Bytes) :
    skipSpace (c :: s) = c :: s := by
  have hSpace : isSpace c = false := by
    unfold isDigit at h
    unfold isSpace
    simp only [Bool.and_eq_true, decide_eq_true_eq] at h
    simp only [Bool.or_eq_false_iff, Bool.and_eq_false_iff, decide_eq_false_iff_not]
    omega
  exact List.dropWhile_cons_of_neg (by rw [hSpace]; nofun)

theorem scanSign_of_isDigit {c : UInt8} (h : isDigit c = true) (s : Bytes) :
    scanSign (c :: s) = (false, c :: s) := by
  have hMinus : c ≠ ch '-' := by
    rintro rfl
    exact absurd h (by decide)
  have hPlus : c ≠ ch '+' := by
    rintro rfl
    exact absurd h (by decide)
  rw [scanSign, if_neg hMinus, if_neg hPlus]

/-- Digits are read up to what follows them. -/
theorem scanInt_digits {digits r : Bytes} (hNe : digits ≠ [])
    (hDigits : ∀ c ∈ digits, isDigit c = true) (h : EndsNumber r) :
    scanInt (digits ++ r) = some ((horner 0 digits : Int), r) := by
  have hTake : (digits ++ r).takeWhile isDigit = digits := by
    rw [List.takeWhile_append_of_pos hDigits, h.takeWhile, List.append_nil]
  have hDrop : (digits ++ r).dropWhile isDigit = r := by
    rw [List.dropWhile_append_of_pos hDigits, h.dropWhile]
  have hSign : scanSign (skipSpace (digits ++ r)) = (false, digits ++ r) := by
    cases digits with
    | nil => exact absurd rfl hNe
    | cons c s =>
        have hc : isDigit c = true := hDigits c List.mem_cons_self
        rw [List.cons_append, skipSpace_of_isDigit hc, scanSign_of_isDigit hc]
  unfold scanInt
  rw [hSign]
  dsimp only
  rw [hTake, hDrop, if_neg hNe]
  rfl

/-- A numeral is read back up to what follows it. -/
theorem scanInt_decimal (n : Nat) {r : Bytes} (h : EndsNumber r) :
    scanInt (decimal n ++ r) = some ((n : Int), r) := by
  rw [scanInt_digits (decimal_ne_nil n) (isDigit_of_mem_decimal n) h, horner_decimal]

end Lftp.Verified
