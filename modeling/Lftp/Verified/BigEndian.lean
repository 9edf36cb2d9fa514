import Mathlib.Algebra.Group.Nat.Defs
import Mathlib.Data.List.Induction
import Lftp.Verified.Decimal

/-!
# Big-endian integers

`be` is the number a byte string spells most significant byte first, and
`beBytes w` the `w` bytes that spell a number modulo `256^w`.
-/

namespace Lftp.Verified

/-- The number spelled by `s`, most significant byte first. -/
def be (s : Bytes) : Nat := s.foldl (fun n c => n * 256 + c.toNat) 0

/-- The low `w` bytes of `v`, most significant first. -/
def beBytes : Nat → Nat → Bytes
  | 0, _ => []
  | w + 1, v => beBytes w (v / 256) ++ [UInt8.ofNat v]

@[simp] theorem length_beBytes (w v : Nat) : (beBytes w v).length = w := by
  induction w generalizing v with
  | zero => rfl
  | succ w ih => simp [beBytes, ih]

theorem be_snoc (s : Bytes) (c : UInt8) : be (s ++ [c]) = be s * 256 + c.toNat := by
  simp [be]

theorem be_lt (s : Bytes) : be s < 256 ^ s.length := by
  induction s using List.reverseRecOn with
  | nil => simp [be]
  | append_singleton s c ih =>
      have hc := c.toNat_lt
      rw [be_snoc, List.length_append, List.length_singleton, Nat.pow_succ]
      omega

theorem be_beBytes {w v : Nat} (h : v < 256 ^ w) : be (beBytes w v) = v := by
  induction w generalizing v with
  | zero =>
      have hv : v = 0 := by simpa using h
      simp [beBytes, be, hv]
  | succ w ih =>
      rw [Nat.pow_succ] at h
      rw [beBytes, be_snoc, ih (by omega), UInt8.toNat_ofNat']
      omega

end Lftp.Verified
