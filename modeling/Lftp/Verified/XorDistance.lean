import Lftp.Verified.BigEndian

/-!
# The exclusive-or distance of byte strings

Strings of one length are numbers, and their distance is the exclusive or of these. It is
compared like the numbers themselves, byte by byte from the most significant one on
(`xorDist_cons_lt_iff`).
-/

namespace Lftp.Verified

/-- The distance of two strings of the same length. -/
def xorDist (s t : Bytes) : Nat := be s ^^^ be t

theorem be_cons (c : UInt8) (s : Bytes) : be (c :: s) = c.toNat * 256 ^ s.length + be s := by
  induction s using List.reverseRecOn with
  | nil => simp [be]
  | append_singleton s d ih =>
      rw [← List.cons_append, be_snoc, ih, be_snoc, List.length_append, List.length_singleton,
        Nat.pow_succ, Nat.add_mul, Nat.mul_assoc, Nat.add_assoc]

theorem pow_256 (n : Nat) : 256 ^ n = 2 ^ (8 * n) := by rw [Nat.pow_mul]

variable {s t u : Bytes} {a b c : UInt8}

theorem xorDist_lt (h : s.length = t.length) : xorDist s t < 256 ^ t.length := by
  have hs := be_lt s
  have ht := be_lt t
  rw [h] at hs
  rw [pow_256] at hs ht ⊢
  exact Nat.xor_lt_two_pow hs ht

/-- The first bytes weigh more than all others. -/
theorem xorDist_cons (h : s.length = t.length) (a c : UInt8) :
    xorDist (a :: s) (c :: t) = (a ^^^ c).toNat * 256 ^ t.length + xorDist s t := by
  have hs := be_lt s
  have ht := be_lt t
  unfold xorDist
  rw [be_cons, be_cons, UInt8.toNat_xor]
  rw [h] at hs ⊢
  rw [pow_256] at hs ht ⊢
  have hDiv : ∀ x y : Nat, y < 2 ^ (8 * t.length) →
      (x * 2 ^ (8 * t.length) + y) / 2 ^ (8 * t.length) = x := by
    intro x y hy
    rw [Nat.mul_comm, Nat.mul_add_div (Nat.two_pow_pos _), Nat.div_eq_of_lt hy, Nat.add_zero]
  have hMod : ∀ x y : Nat, y < 2 ^ (8 * t.length) →
      (x * 2 ^ (8 * t.length) + y) % 2 ^ (8 * t.length) = y := by
    intro x y hy
    rw [Nat.mul_comm, Nat.mul_add_mod, Nat.mod_eq_of_lt hy]
  rw [← Nat.div_add_mod (_ ^^^ _) (2 ^ (8 * t.length)), Nat.xor_div_two_pow, Nat.xor_mod_two_pow,
    hDiv _ _ hs, hDiv _ _ ht, hMod _ _ hs, hMod _ _ ht, Nat.mul_comm]

/-- Which distance is less is decided at the first byte where they differ. -/
theorem xorDist_cons_lt_iff (hs : s.length = t.length) (hu : u.length = t.length) :
    xorDist (a :: s) (c :: t) < xorDist (b :: u) (c :: t) ↔
      a ^^^ c < b ^^^ c ∨ a ^^^ c = b ^^^ c ∧ xorDist s t < xorDist u t := by
  have hLeft := xorDist_lt hs
  have hRight := xorDist_lt hu
  rw [xorDist_cons hs, xorDist_cons hu, UInt8.lt_iff_toNat_lt, ← UInt8.toNat_inj]
  generalize (a ^^^ c).toNat = x, (b ^^^ c).toNat = y, 256 ^ t.length = w at hLeft hRight ⊢
  rcases Nat.lt_trichotomy x y with hLess | hEq | hMore
  · have hStep : (x + 1) * w ≤ y * w := Nat.mul_le_mul_right w hLess
    rw [Nat.add_mul] at hStep
    exact iff_of_true (by omega) (.inl hLess)
  · rw [hEq]
    simp
  · have hStep : (y + 1) * w ≤ x * w := Nat.mul_le_mul_right w hMore
    rw [Nat.add_mul] at hStep
    exact iff_of_false (by omega) (by omega)

end Lftp.Verified
