import Lftp.Verified.Decimal
import Mathlib.Data.List.GetD

/-!
# Strings of bits and their prefixes

Bit `k` of a byte string is bit `7-k%8` of byte `k/8`, so that the order of the
bits is that of the strings. Two strings have a prefix of `n` bits in common when
they agree below `n`; programs compare whole bytes and mask the last one.

* `prefix_compare_iff` says that the comparison by bytes and a mask is agreement.
* `and_bitMask_ne_zero` and `bitAt_setBitAt` are the test and the setting of a bit.
-/

namespace Lftp.Verified

/-- Bit `k`, false beyond the end. -/
def bitAt (s : Bytes) (k : Nat) : Bool := (s.getD (k / 8) 0).toBitVec.getLsbD (7 - k % 8)

/-- Two sequences agree below `n`. -/
def Agree {β : Type} (n : Nat) (a b : Nat → β) : Prop := ∀ k < n, a k = b k

section

variable {β : Type} {a b c : Nat → β} {m n : Nat}

instance [DecidableEq β] : Decidable (Agree n a b) := inferInstanceAs (Decidable (∀ k < n, a k = b k))

theorem Agree.symm (h : Agree n a b) : Agree n b a := fun k hk => (h k hk).symm

theorem Agree.trans (h : Agree n a b) (h' : Agree n b c) : Agree n a c :=
  fun k hk => (h k hk).trans (h' k hk)

theorem Agree.mono (h : Agree n a b) (hm : m ≤ n) : Agree m a b :=
  fun k hk => h k (Nat.lt_of_lt_of_le hk hm)

theorem agree_succ_iff : Agree (n + 1) a b ↔ Agree n a b ∧ a n = b n := by
  constructor
  · intro h
    exact ⟨h.mono (Nat.le_succ n), h n (Nat.lt_succ_self n)⟩
  · rintro ⟨h, hn⟩ k hk
    rcases Nat.lt_succ_iff_lt_or_eq.mp hk with hLt | rfl
    · exact h k hLt
    · exact hn

/-- Agreement below `m+n` is agreement below `m` and on the next `n`. -/
theorem agree_add_iff : Agree (m + n) a b ↔ Agree m a b ∧ ∀ j < n, a (m + j) = b (m + j) := by
  constructor
  · intro h
    exact ⟨h.mono (Nat.le_add_right m n), fun j hj => h (m + j) (by omega)⟩
  · rintro ⟨h, hRest⟩ k hk
    by_cases hLt : k < m
    · exact h k hLt
    · have hk' := hRest (k - m) (by omega)
      rwa [Nat.add_sub_cancel' (Nat.le_of_not_lt hLt)] at hk'

end

/-! ## Bytes -/

/-- Bytes are equal when their bits are. -/
theorem byte_ext {x y : UInt8} (h : ∀ j < 8, x.toBitVec.getLsbD (7 - j) = y.toBitVec.getLsbD (7 - j)) :
    x = y := by
  apply UInt8.toBitVec_inj.mp
  apply BitVec.eq_of_getLsbD_eq
  intro i hi
  have hj := h (7 - i) (by omega)
  rwa [show 7 - (7 - i) = i by omega] at hj

theorem bitAt_add (s : Bytes) (n : Nat) {j : Nat} (hj : j < 8) :
    bitAt s (8 * n + j) = (s.getD n 0).toBitVec.getLsbD (7 - j) := by
  unfold bitAt
  rw [show (8 * n + j) / 8 = n by omega, show (8 * n + j) % 8 = j by omega]

/-- Whole bytes are compared bit by bit. -/
theorem take_eq_take_iff {s t : Bytes} {n : Nat} (hs : n ≤ s.length) (ht : n ≤ t.length) :
    s.take n = t.take n ↔ Agree (8 * n) (bitAt s) (bitAt t) := by
  induction n with
  | zero => simp [Agree]
  | succ n ih =>
      have hsn : s[n]? = some (s.getD n 0) := by
        rw [List.getD_eq_getElem _ _ hs, List.getElem?_eq_getElem hs]
      have htn : t[n]? = some (t.getD n 0) := by
        rw [List.getD_eq_getElem _ _ ht, List.getElem?_eq_getElem ht]
      have hByte : s.getD n 0 = t.getD n 0
          ↔ ∀ j < 8, bitAt s (8 * n + j) = bitAt t (8 * n + j) := by
        constructor
        · intro h j hj
          rw [bitAt_add s n hj, bitAt_add t n hj, h]
        · intro h
          apply byte_ext
          intro j hj
          rw [← bitAt_add s n hj, ← bitAt_add t n hj, h j hj]
      rw [List.take_add_one, List.take_add_one, hsn, htn, Option.toList_some, Option.toList_some,
        Nat.mul_add, Nat.mul_one, agree_add_iff, ← hByte, ← ih (by omega) (by omega)]
      constructor
      · intro h
        have hApp := List.append_inj h (by rw [List.length_take, List.length_take]; omega)
        exact ⟨hApp.1, List.singleton_inj.mp hApp.2⟩
      · rintro ⟨hTake, hLast⟩
        rw [hTake, hLast]

/-- `~((1<<(8-bits))-1)`, as far as it reaches a byte. -/
def highMask (bits : Nat) : UInt8 := ~~~((1 <<< UInt8.ofNat (8 - bits)) - 1)

theorem getLsbD_highMask {bits i : Nat} (h : 0 < bits) (hb : bits < 8) (hi : i < 8) :
    (highMask bits).toBitVec.getLsbD i = decide (8 - bits ≤ i) := by
  have hAll : ∀ b : Fin 8, 0 < b.val → ∀ i : Fin 8,
      (highMask b.val).toBitVec.getLsbD i.val = decide (8 - b.val ≤ i.val) := by decide
  exact hAll ⟨bits, hb⟩ h ⟨i, hi⟩

/-- The masked bytes are equal when the high bits are. -/
theorem and_highMask_eq_iff {x y : UInt8} {bits : Nat} (h : 0 < bits) (hb : bits < 8) :
    x &&& highMask bits = y &&& highMask bits
      ↔ ∀ j < bits, x.toBitVec.getLsbD (7 - j) = y.toBitVec.getLsbD (7 - j) := by
  have hBit : ∀ (z : UInt8) (j : Nat), j < 8 →
      (z &&& highMask bits).toBitVec.getLsbD (7 - j)
        = (z.toBitVec.getLsbD (7 - j) && decide (j < bits)) := by
    intro z j hj
    rw [UInt8.toBitVec_and, BitVec.getLsbD_and, getLsbD_highMask h hb (by omega)]
    congr 1
    exact decide_eq_decide.mpr (by omega)
  constructor
  · intro hEq j hj
    have hj' : (x &&& highMask bits).toBitVec.getLsbD (7 - j)
        = (y &&& highMask bits).toBitVec.getLsbD (7 - j) := by rw [hEq]
    rwa [hBit x j (by omega), hBit y j (by omega), decide_eq_true hj, Bool.and_true,
      Bool.and_true] at hj'
  · intro hAll
    apply byte_ext
    intro j hj
    rw [hBit x j hj, hBit y j hj]
    by_cases hLt : j < bits
    · rw [hAll j hLt]
    · rw [decide_eq_false hLt, Bool.and_false, Bool.and_false]

/-- Comparing `n/8` bytes and the `n%8` high bits of the next one is comparing
`n` bits. -/
theorem prefix_compare_iff {s t : Bytes} {n : Nat} (hs : n / 8 ≤ s.length)
    (ht : n / 8 ≤ t.length) :
    s.take (n / 8) = t.take (n / 8)
        ∧ (0 < n % 8 → s.getD (n / 8) 0 &&& highMask (n % 8) = t.getD (n / 8) 0 &&& highMask (n % 8))
      ↔ Agree n (bitAt s) (bitAt t) := by
  have hSplit : Agree n (bitAt s) (bitAt t) ↔ Agree (8 * (n / 8)) (bitAt s) (bitAt t)
      ∧ ∀ j < n % 8, bitAt s (8 * (n / 8) + j) = bitAt t (8 * (n / 8) + j) := by
    rw [← agree_add_iff, Nat.div_add_mod]
  rw [hSplit, take_eq_take_iff hs ht]
  apply and_congr_right
  intro _
  have hBits : (∀ j < n % 8, bitAt s (8 * (n / 8) + j) = bitAt t (8 * (n / 8) + j))
      ↔ ∀ j < n % 8, (s.getD (n / 8) 0).toBitVec.getLsbD (7 - j)
          = (t.getD (n / 8) 0).toBitVec.getLsbD (7 - j) := by
    apply forall₂_congr
    intro j hj
    rw [bitAt_add s _ (by omega), bitAt_add t _ (by omega)]
  rw [hBits]
  rcases Nat.eq_zero_or_pos (n % 8) with h0 | hPos
  · simp [h0]
  · rw [and_highMask_eq_iff hPos (Nat.mod_lt n (by decide))]
    exact ⟨fun h => h hPos, fun h _ => h⟩

/-! ## One bit -/

/-- `1<<(7-k%8)`. -/
def bitMask (k : Nat) : UInt8 := 1 <<< UInt8.ofNat (7 - k % 8)

theorem bitMask_toBitVec (k : Nat) : (bitMask k).toBitVec = BitVec.twoPow 8 (7 - k % 8) := by
  have hAll : ∀ j : Fin 8, ((1 : UInt8) <<< UInt8.ofNat (7 - j)).toBitVec
      = BitVec.twoPow 8 (7 - j) := by decide
  exact hAll ⟨k % 8, Nat.mod_lt _ (by decide)⟩

/-- The test of a bit. -/
theorem and_bitMask_ne_zero (s : Bytes) (k : Nat) :
    s.getD (k / 8) 0 &&& bitMask k ≠ 0 ↔ bitAt s k = true := by
  have hLt : 7 - k % 8 < 8 := by omega
  unfold bitAt
  generalize s.getD (k / 8) 0 = x
  rw [Ne, ← UInt8.toBitVec_inj, UInt8.toBitVec_and, bitMask_toBitVec, BitVec.and_twoPow]
  cases x.toBitVec.getLsbD (7 - k % 8) with
  | false => simp
  | true =>
      rw [if_pos rfl]
      refine iff_of_true (fun hZero => ?_) rfl
      have hLsb := congrArg (fun v => v.getLsbD (7 - k % 8)) hZero
      simp [hLt] at hLsb

/-- `s[k/8]|=1<<(7-k%8)`. -/
def setBitAt (s : Bytes) (k : Nat) : Bytes := s.modify (k / 8) (· ||| bitMask k)

theorem length_setBitAt (s : Bytes) (k : Nat) : (setBitAt s k).length = s.length :=
  List.length_modify ..

theorem bitAt_setBitAt {s : Bytes} {k : Nat} (h : k / 8 < s.length) (j : Nat) :
    bitAt (setBitAt s k) j = if j = k then true else bitAt s j := by
  unfold bitAt setBitAt
  rw [List.getD_eq_getElem?_getD, List.getD_eq_getElem?_getD, List.getElem?_modify]
  by_cases hByte : k / 8 = j / 8
  · rw [← hByte, List.getElem?_eq_getElem h]
    simp only [if_true, Option.map_eq_map, Option.map_some, Option.getD_some, UInt8.toBitVec_or,
      BitVec.getLsbD_or, bitMask_toBitVec, BitVec.getLsbD_twoPow]
    by_cases hEq : j = k
    · have hLt : 7 - k % 8 < 8 := by omega
      simp [hEq, hLt]
    · have hNe : 7 - k % 8 ≠ 7 - j % 8 := by omega
      simp [hEq, hNe]
  · have hEq : j ≠ k := fun h => hByte (by rw [h])
    simp [hByte, hEq]

/-- A zero byte at the end adds no bit. -/
theorem bitAt_append_zero (s : Bytes) (k : Nat) : bitAt (s ++ [0]) k = bitAt s k := by
  unfold bitAt
  congr 2
  rw [List.getD_eq_getElem?_getD, List.getD_eq_getElem?_getD, List.getElem?_append]
  split
  · rfl
  · rename_i hLe
    rw [List.getElem?_eq_none (Nat.le_of_not_lt hLe), List.getElem?_singleton]
    split <;> rfl

theorem bitAt_of_length_le {s : Bytes} {k : Nat} (h : s.length ≤ k / 8) : bitAt s k = false := by
  unfold bitAt
  rw [List.getD_eq_default _ _ h]
  exact BitVec.getLsbD_zero

end Lftp.Verified
