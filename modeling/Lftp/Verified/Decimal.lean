import Mathlib.Data.Nat.Basic

/-!
# Byte strings and decimal numerals

Byte strings are lists of `UInt8`; a `char` of the sources is a byte. This
module fixes that representation and develops the decimal numerals that
`printf("%d")` writes and that hand-written digit loops read back.

* `decimal` is the numeral of a natural number, most significant digit first.
* `horner` is the accumulator of every digit loop: `n = n*10 + (c - '0')`.
* `horner_decimal` says the loop undoes the printer, and `le_horner` that the
  accumulator never shrinks, which is what bounds checks made inside such a
  loop rely on.
-/

namespace Lftp.Verified

/-- A byte string. -/
abbrev Bytes := List UInt8

/-- The byte of an ASCII character. -/
abbrev ch (c : Char) : UInt8 := c.toUInt8

/-- The bytes of an ASCII string literal. -/
def bytes (s : String) : Bytes := s.toList.map Char.toUInt8

/-- A text is tested byte by byte. -/
theorem forall_of_all {p : UInt8 → Prop} [DecidablePred p] {s : Bytes}
    (h : (s.all fun c => p c) = true) : ∀ c ∈ s, p c :=
  fun c hc => of_decide_eq_true (List.all_eq_true.mp h c hc)

/-- `c_isdigit`. -/
def isDigit (c : UInt8) : Bool := 48 ≤ c.toNat && c.toNat ≤ 57

/-- The value `c - '0'` of a digit. -/
def digitVal (c : UInt8) : Nat := c.toNat - 48

/-- The digit byte of a number below ten. -/
def digitByte (n : Nat) : UInt8 := UInt8.ofNat (48 + n)

theorem toNat_digitByte {n : Nat} (hn : n < 10) : (digitByte n).toNat = 48 + n := by
  simp only [digitByte, UInt8.toNat_ofNat']
  omega

theorem isDigit_digitByte {n : Nat} (hn : n < 10) : isDigit (digitByte n) = true := by
  simp only [isDigit, toNat_digitByte hn, Bool.and_eq_true, decide_eq_true_eq]
  omega

theorem digitVal_digitByte {n : Nat} (hn : n < 10) : digitVal (digitByte n) = n := by
  simp only [digitVal, toNat_digitByte hn]
  omega

/-! ## Numerals -/

/-- The decimal numeral of `n`. -/
def decimal (n : Nat) : Bytes := (Nat.toDigits 10 n).map Char.toUInt8

private theorem toUInt8_digitChar : ∀ n < 10, (Nat.digitChar n).toUInt8 = digitByte n := by
  decide

theorem decimal_of_lt {n : Nat} (hn : n < 10) : decimal n = [digitByte n] := by
  simp [decimal, Nat.toDigits_of_lt_base hn, toUInt8_digitChar n hn]

theorem decimal_of_le {n : Nat} (hn : 10 ≤ n) :
    decimal n = decimal (n / 10) ++ [digitByte (n % 10)] := by
  simp [decimal, Nat.toDigits_of_base_le (by decide) hn,
    toUInt8_digitChar (n % 10) (Nat.mod_lt n (by decide))]

theorem decimal_ne_nil (n : Nat) : decimal n ≠ [] := by
  simp [decimal, Nat.toDigits_ne_nil]

theorem isDigit_of_mem_decimal (n : Nat) : ∀ c ∈ decimal n, isDigit c = true := by
  induction n using Nat.strongRecOn with
  | _ n ih =>
      intro c hc
      rcases Nat.lt_or_ge n 10 with hlt | hge
      · rw [decimal_of_lt hlt, List.mem_singleton] at hc
        rw [hc]
        exact isDigit_digitByte hlt
      · rw [decimal_of_le hge, List.mem_append, List.mem_singleton] at hc
        rcases hc with hc | rfl
        · exact ih (n / 10) (Nat.div_lt_self (by omega) (by decide)) c hc
        · exact isDigit_digitByte (Nat.mod_lt n (by decide))

/-- Only the numeral of zero starts with the digit zero. -/
theorem eq_zero_of_head_decimal {n : Nat} {s : Bytes}
    (h : decimal n = digitByte 0 :: s) : n = 0 := by
  induction n using Nat.strongRecOn generalizing s with
  | _ n ih =>
      rcases Nat.lt_or_ge n 10 with hlt | hge
      · rw [decimal_of_lt hlt, List.cons.injEq] at h
        have hval := congrArg UInt8.toNat h.1
        rw [toNat_digitByte hlt, toNat_digitByte (by decide)] at hval
        omega
      · rw [decimal_of_le hge] at h
        cases hd : decimal (n / 10) with
        | nil => exact absurd hd (decimal_ne_nil _)
        | cons c t =>
            rw [hd, List.cons_append, List.cons.injEq] at h
            have hz := ih (n / 10) (Nat.div_lt_self (by omega) (by decide))
              (hd.trans (by rw [h.1]))
            omega

/-! ## The digit loop -/

/-- The accumulator after reading the digits `s`. -/
def horner (n : Nat) (s : Bytes) : Nat :=
  s.foldl (fun n c => n * 10 + digitVal c) n

@[simp] theorem horner_nil (n : Nat) : horner n [] = n := by
  rw [horner, List.foldl_nil]

@[simp] theorem horner_cons (n : Nat) (c : UInt8) (s : Bytes) :
    horner n (c :: s) = horner (n * 10 + digitVal c) s := by
  simp only [horner, List.foldl_cons]

theorem horner_append (n : Nat) (s t : Bytes) :
    horner n (s ++ t) = horner (horner n s) t := by
  simp only [horner, List.foldl_append]

theorem horner_decimal (n : Nat) : horner 0 (decimal n) = n := by
  induction n using Nat.strongRecOn with
  | _ n ih =>
      rcases Nat.lt_or_ge n 10 with hlt | hge
      · rw [decimal_of_lt hlt, horner_cons, horner_nil, digitVal_digitByte hlt]
        omega
      · have hdiv := ih (n / 10) (Nat.div_lt_self (by omega) (by decide))
        have hmod := digitVal_digitByte (Nat.mod_lt n (by decide : 0 < 10))
        simp only [decimal_of_le hge, horner_append, hdiv, horner_cons,
          horner_nil, hmod]
        omega

/-- The accumulator never shrinks. -/
theorem le_horner (n : Nat) (s : Bytes) : n ≤ horner n s := by
  induction s generalizing n with
  | nil => simp
  | cons c s ih =>
      have hstep := ih (n * 10 + digitVal c)
      rw [horner_cons]
      omega

/-! ## Counting digits without printing -/

/-- The loop `while(i>=10) { len++; i/=10; }` followed by the count of the last
digit; the first argument bounds the number of iterations. -/
def countDigits : Nat → Nat → Nat
  | 0, _ => 1
  | fuel + 1, i => if 10 ≤ i then countDigits fuel (i / 10) + 1 else 1

theorem countDigits_eq {fuel i : Nat} (h : i ≤ fuel) :
    countDigits fuel i = (decimal i).length := by
  induction fuel generalizing i with
  | zero => simp [countDigits, Nat.le_zero.mp h, decimal_of_lt]
  | succ fuel ih =>
      rcases Nat.lt_or_ge i 10 with hlt | hge
      · simp [countDigits, decimal_of_lt hlt, Nat.not_le.mpr hlt]
      · have hstep := ih (i := i / 10) (by omega)
        simp [countDigits, hge, hstep, decimal_of_le hge]

end Lftp.Verified
