import Lftp.Verified.Decimal
import Mathlib.Data.Nat.Bitwise

/-!
# Bits in groups

A byte string is the string of its bits, highest first, and an encoding like base64 cuts that
string into groups of `w` bits, the last of which is filled up with zeros. The numbers of the
groups are the digits of the byte string.

* `spread_digits`: the digits have the bits of the byte string, and less than a digit of zeros.
* `bytes_of_spread`: bytes are read back from the bits.
-/

namespace Lftp.Verified.BitGroups

/-- The lowest `w` bits of `n`, highest first. -/
def bits : Nat → Nat → List Bool
  | 0, _ => []
  | w + 1, n => n.testBit w :: bits w n

/-- The number with these bits. -/
def value : List Bool → Nat
  | [] => 0
  | b :: bs => 2 ^ bs.length * b.toNat + value bs

/-- The bits of numbers of `w` bits each. -/
def spread (w : Nat) (ds : List Nat) : List Bool := ds.flatMap (bits w)

/-- The bits of a byte string. -/
def bitsOf (s : Bytes) : List Bool := spread 8 (s.map UInt8.toNat)

def zeros (n : Nat) : List Bool := List.replicate n false

/-- `n` groups of `w` bits. -/
def groups (w : Nat) : Nat → List Bool → List Nat
  | 0, _ => []
  | n + 1, bs => value ((bs ++ zeros w).take w) :: groups w n (bs.drop w)

/-- The digits of a byte string. -/
def digits (w : Nat) (s : Bytes) : List Nat := groups w ((8 * s.length + w - 1) / w) (bitsOf s)

/-! ## Numbers and bits -/

@[simp] theorem length_bits (w n : Nat) : (bits w n).length = w := by
  induction w with
  | zero => rfl
  | succ w ih => simp [bits, ih]

theorem bits_add (w k n : Nat) : bits (w + k) n = bits w (n / 2 ^ k) ++ bits k n := by
  induction w with
  | zero => simp [bits]
  | succ w ih =>
      rw [show w + 1 + k = (w + k) + 1 by omega, bits, ih, bits, Nat.testBit_div_two_pow]
      rfl

/-- Only the lowest bits count. -/
theorem bits_congr {w m n : Nat} (h : m % 2 ^ w = n % 2 ^ w) : bits w m = bits w n := by
  induction w with
  | zero => rfl
  | succ w ih =>
      have hBit : m.testBit w = n.testBit w := by
        have hEq := congrArg (fun x => x.testBit w) h
        simpa [Nat.testBit_mod_two_pow] using hEq
      have hLow : m % 2 ^ w = n % 2 ^ w := by
        have hEq := congrArg (fun x => x % 2 ^ w) h
        have hDvd : 2 ^ w ∣ 2 ^ (w + 1) := Nat.pow_dvd_pow 2 (Nat.le_succ w)
        simpa [Nat.mod_mod_of_dvd _ hDvd] using hEq
      rw [bits, bits, hBit, ih hLow]

/-- A number in two parts. -/
theorem bits_mul_add (w k a : Nat) {b : Nat} (hb : b < 2 ^ k) :
    bits (w + k) (a * 2 ^ k + b) = bits w a ++ bits k b := by
  have hHigh : (a * 2 ^ k + b) / 2 ^ k = a := by
    rw [Nat.mul_comm, Nat.mul_add_div (Nat.two_pow_pos k), Nat.div_eq_of_lt hb, Nat.add_zero]
  rw [bits_add, hHigh]
  congr 1
  apply bits_congr
  rw [Nat.mul_comm, Nat.mul_add_mod]

/-- Bits put right below a number. -/
theorem mul_or_shiftLeft (a k : Nat) {b w : Nat} (hb : b < 2 ^ w) :
    a * 2 ^ (w + k) ||| b <<< k = (a * 2 ^ w + b) * 2 ^ k := by
  have hJoin : a * 2 ^ w ||| b = a * 2 ^ w + b := by
    rw [Nat.mul_comm, Nat.two_pow_add_eq_or_of_lt hb]
  rw [← hJoin, ← Nat.shiftLeft_eq (a * 2 ^ w ||| b), Nat.shiftLeft_or_distrib,
    Nat.shiftLeft_eq (a * 2 ^ w), Nat.mul_assoc, ← Nat.pow_add]

theorem value_lt (bs : List Bool) : value bs < 2 ^ bs.length := by
  induction bs with
  | nil => exact Nat.one_pos
  | cons b bs ih =>
      rw [value, List.length_cons, Nat.pow_succ]
      cases b <;> simp <;> omega

theorem value_bits (w n : Nat) : value (bits w n) = n % 2 ^ w := by
  induction w with
  | zero => simp [bits, value, Nat.mod_one]
  | succ w ih =>
      rw [bits, value, ih, length_bits, Nat.mod_pow_succ, Nat.add_comm, Nat.toNat_testBit]

theorem bits_value (bs : List Bool) : bits bs.length (value bs) = bs := by
  induction bs with
  | nil => rfl
  | cons b bs ih =>
      have hLow : bits bs.length (value (b :: bs)) = bits bs.length (value bs) := by
        apply bits_congr
        rw [value, Nat.mul_add_mod]
      have hBit : (value (b :: bs)).testBit bs.length = b := by
        rw [value, Nat.testBit_two_pow_mul_add _ (value_lt bs)]
        cases b <;> simp
      rw [List.length_cons, bits, hBit, hLow, ih]

theorem bits_inj {w m n : Nat} (hm : m < 2 ^ w) (hn : n < 2 ^ w) (h : bits w m = bits w n) :
    m = n := by
  rw [← Nat.mod_eq_of_lt hm, ← value_bits, h, value_bits, Nat.mod_eq_of_lt hn]

theorem bits_zero (w : Nat) : bits w 0 = zeros w := by
  induction w with
  | zero => rfl
  | succ w ih => rw [bits, ih, Nat.zero_testBit]; rfl

/-! ## Digits -/

variable {w : Nat}

theorem spread_cons (d : Nat) (ds : List Nat) : spread w (d :: ds) = bits w d ++ spread w ds := rfl

theorem spread_append (ds es : List Nat) : spread w (ds ++ es) = spread w ds ++ spread w es :=
  List.flatMap_append

@[simp] theorem length_spread (ds : List Nat) : (spread w ds).length = w * ds.length := by
  induction ds with
  | nil => rfl
  | cons d ds ih =>
      rw [spread_cons, List.length_append, length_bits, ih, List.length_cons, Nat.mul_succ]
      omega

@[simp] theorem length_bitsOf (s : Bytes) : (bitsOf s).length = 8 * s.length := by simp [bitsOf]

@[simp] theorem length_groups (n : Nat) (bs : List Bool) : (groups w n bs).length = n := by
  induction n generalizing bs with
  | zero => rfl
  | succ n ih => rw [groups, List.length_cons, ih]

theorem groups_lt {n : Nat} {bs : List Bool} {d : Nat} (h : d ∈ groups w n bs) : d < 2 ^ w := by
  induction n generalizing bs with
  | zero => cases h
  | succ n ih =>
      rcases List.mem_cons.mp h with rfl | h
      · have hLt := value_lt ((bs ++ zeros w).take w)
        have hLength : ((bs ++ zeros w).take w).length = w := by simp [zeros]
        rwa [hLength] at hLt
      · exact ih h

/-- Enough groups have all the bits. -/
theorem spread_groups {n : Nat} {bs : List Bool} (h : bs.length ≤ n * w) :
    spread w (groups w n bs) = bs ++ zeros (n * w - bs.length) := by
  induction n generalizing bs with
  | zero =>
      have hNil : bs = [] := List.length_eq_zero_iff.mp (by omega)
      rw [hNil]
      simp [groups, spread, zeros]
  | succ n ih =>
      have hLength : ((bs ++ zeros w).take w).length = w := by simp [zeros]
      have hHead : bits w (value ((bs ++ zeros w).take w)) = (bs ++ zeros w).take w := by
        have hBits := bits_value ((bs ++ zeros w).take w)
        rwa [hLength] at hBits
      have hSize : (n + 1) * w = n * w + w := Nat.succ_mul n w
      rw [groups, spread_cons, hHead, ih (by rw [List.length_drop]; omega), List.length_drop]
      rcases Nat.le_total w bs.length with hLe | hLe
      · have hTake : (bs ++ zeros w).take w = bs.take w := List.take_append_of_le_length hLe
        have hRest : n * w - (bs.length - w) = (n + 1) * w - bs.length := by omega
        rw [hTake, ← List.append_assoc, List.take_append_drop, hRest]
      · have hDrop : bs.drop w = [] := List.drop_eq_nil_of_le hLe
        have hTake : (bs ++ zeros w).take w = bs ++ zeros (w - bs.length) := by
          rw [List.take_append, List.take_of_length_le hLe]
          simp [zeros]
        have hRest : n * w - (bs.length - w) = n * w := by omega
        have hSum : zeros (w - bs.length) ++ zeros (n * w) = zeros ((n + 1) * w - bs.length) := by
          unfold zeros
          rw [List.replicate_append_replicate]
          congr 1
          omega
        rw [hDrop, hTake, hRest, List.nil_append, List.append_assoc, hSum]

/-- How many bits the last digit is filled up with. -/
def fill (w : Nat) (s : Bytes) : Nat := (8 * s.length + w - 1) / w * w - 8 * s.length

theorem groups_enough (hw : 0 < w) (n : Nat) :
    n ≤ (n + w - 1) / w * w ∧ (n + w - 1) / w * w - n < w := by
  have hDiv := Nat.div_add_mod (n + w - 1) w
  have hMod := Nat.mod_lt (n + w - 1) hw
  rw [Nat.mul_comm] at hDiv
  omega

theorem fill_lt (hw : 0 < w) (s : Bytes) : fill w s < w := (groups_enough hw _).2

theorem spread_digits (hw : 0 < w) (s : Bytes) :
    spread w (digits w s) = bitsOf s ++ zeros (fill w s) := by
  have hEnough := (groups_enough hw (8 * s.length)).1
  have hGroups := spread_groups (w := w) (n := (8 * s.length + w - 1) / w)
    ((length_bitsOf s).trans_le hEnough)
  rw [length_bitsOf] at hGroups
  exact hGroups

theorem digits_lt {s : Bytes} {d : Nat} (h : d ∈ digits w s) : d < 2 ^ w := groups_lt h

theorem spread_inj (hw : 0 < w) {ds es : List Nat} (hd : ∀ d ∈ ds, d < 2 ^ w)
    (he : ∀ e ∈ es, e < 2 ^ w) (h : spread w ds = spread w es) : ds = es := by
  have hLength := congrArg List.length h
  rw [length_spread, length_spread] at hLength
  have hCount := Nat.eq_of_mul_eq_mul_left hw hLength
  clear hLength
  induction ds generalizing es with
  | nil => exact (List.length_eq_zero_iff.mp hCount.symm).symm
  | cons d ds ih =>
      cases es with
      | nil => cases hCount
      | cons e es =>
          rw [spread_cons, spread_cons] at h
          obtain ⟨hHead, hTail⟩ := List.append_inj h (by simp)
          rw [bits_inj (hd d List.mem_cons_self) (he e List.mem_cons_self) hHead,
            ih (fun x hx => hd x (List.mem_cons_of_mem d hx))
              (fun x hx => he x (List.mem_cons_of_mem e hx)) hTail (Nat.succ.inj hCount)]

/-! ## Bytes -/

theorem bitsOf_cons (c : UInt8) (s : Bytes) : bitsOf (c :: s) = bits 8 c.toNat ++ bitsOf s := rfl

theorem bitsOf_append (s t : Bytes) : bitsOf (s ++ t) = bitsOf s ++ bitsOf t := by
  simp [bitsOf, spread_append]

theorem bitsOf_byte (n : Nat) : bitsOf [UInt8.ofNat n] = bits 8 n := by
  rw [bitsOf_cons, UInt8.toNat_ofNat']
  show bits 8 (n % 2 ^ 8) ++ [] = _
  rw [List.append_nil]
  exact bits_congr (Nat.mod_mod n _)

/-- The bytes, and the bits that are left. -/
theorem bytes_of_spread {s t : Bytes} {p q : List Bool} (hp : p.length < 8) (hq : q.length < 8)
    (h : bitsOf s ++ p = bitsOf t ++ q) : s = t ∧ p = q := by
  have hLength := congrArg List.length h
  simp only [List.length_append, length_bitsOf] at hLength
  have hBits := List.append_inj h (by simp only [length_bitsOf]; omega)
  refine ⟨?_, hBits.2⟩
  have hSame : s.map UInt8.toNat = t.map UInt8.toNat :=
    spread_inj (w := 8) (by omega) (fun d hd => ?_) (fun e he => ?_) hBits.1
  · exact (List.map_inj_right (fun a b hab => UInt8.toNat_inj.mp hab)).mp hSame
  · obtain ⟨c, -, rfl⟩ := List.mem_map.mp hd
    exact c.toNat_lt
  · obtain ⟨c, -, rfl⟩ := List.mem_map.mp he
    exact c.toNat_lt

end Lftp.Verified.BitGroups
