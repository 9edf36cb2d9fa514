import Mathlib.Algebra.BigOperators.Group.Finset.Basic
import Mathlib.Algebra.Order.BigOperators.Group.Finset
import Lftp.Verified.Decimal

/-!
# `BitField`

The bit array of `Torrent.h`: bit `i` is the bit of weight `0x80>>(i%8)` of byte
`i/8`.

* `getBit_setBit` is the array law.
* `weight` sums a weight over the set bits, `count` is their number; the lemmas
  say how setting or clearing one bit changes them.
-/

namespace Lftp.Ports

open Lftp.Verified

/-- `BitField`: `bit_length` and the bytes of the underlying array. -/
structure BitField where
  bitLength : Nat
  bytes : Bytes
  count_eq : bytes.length = (bitLength + 7) / 8

namespace BitField

/-- `BitField::BitField(int)`. -/
def new (bits : Nat) : BitField where
  bitLength := bits
  bytes := List.replicate ((bits + 7) / 8) 0
  count_eq := List.length_replicate ..

/-- `new BitField(bytes*8)` filled by the `memcpy` of the bytes. -/
def ofBytes (s : Bytes) : BitField where
  bitLength := s.length * 8
  bytes := s
  count_eq := by omega

/-- `0x80>>(i%8)`. -/
def mask (i : Nat) : UInt8 := 0x80 >>> UInt8.ofNat (i % 8)

/-- `BitField::get_bit`, where the memory behind the array holds `stray`. -/
def getBitOr (stray : UInt8) (b : BitField) (i : Nat) : Bool :=
  b.bytes.getD (i / 8) stray &&& mask i != 0

/-- `BitField::get_bit` inside the array. -/
def getBit (b : BitField) (i : Nat) : Bool := b.getBitOr 0 i

/-- `BitField::set_bit`. -/
def setBit (b : BitField) (i : Nat) (value : Bool) : BitField where
  bitLength := b.bitLength
  bytes := b.bytes.modify (i / 8) fun x => if value then x ||| mask i else x &&& ~~~mask i
  count_eq := by rw [List.length_modify, b.count_eq]

/-- `BitField::has_any_set(from,to)`. -/
def hasAnySet (b : BitField) (start stop : Nat) : Bool :=
  (List.range' start (stop - start)).any b.getBit

/-- `BitField::has_all_set(from,to)`. -/
def hasAllSet (b : BitField) (start stop : Nat) : Bool :=
  (List.range' start (stop - start)).all b.getBit

/-- `BitField::set_range`. -/
def setRange (b : BitField) (start stop : Nat) (value : Bool) : BitField :=
  (List.range' start (stop - start)).foldl (fun b i => b.setBit i value) b

/-! ## The array law -/

theorem mask_toBitVec (i : Nat) : (mask i).toBitVec = BitVec.twoPow 8 (7 - i % 8) := by
  have hAll : ∀ k : Fin 8, ((0x80 : UInt8) >>> UInt8.ofNat k).toBitVec =
      BitVec.twoPow 8 (7 - k) := by decide
  exact hAll ⟨i % 8, Nat.mod_lt _ (by decide)⟩

/-- The test `&` of one bit, on bit vectors. -/
theorem and_mask_ne_zero (x : UInt8) (i : Nat) :
    (x &&& mask i != 0) = x.toBitVec.getLsbD (7 - i % 8) := by
  have hbit : 7 - i % 8 < 8 := by omega
  have hEq : (x &&& mask i = 0) ↔ x.toBitVec.getLsbD (7 - i % 8) = false := by
    rw [← UInt8.toBitVec_inj, UInt8.toBitVec_and, mask_toBitVec, BitVec.and_twoPow]
    cases x.toBitVec.getLsbD (7 - i % 8) with
    | false => simp
    | true =>
        simp only [if_true, Bool.true_eq_false, iff_false]
        intro hZero
        have hLsb := congrArg (fun v => v.getLsbD (7 - i % 8)) hZero
        simp [hbit] at hLsb
  cases h : x.toBitVec.getLsbD (7 - i % 8) with
  | false => simpa using hEq.mpr h
  | true => simpa [h] using hEq

theorem getBitOr_of_lt {b : BitField} {i : Nat} (h : i < b.bitLength) (stray : UInt8) :
    b.getBitOr stray i = b.getBit i := by
  have hLen := b.count_eq
  have hIn : i / 8 < b.bytes.length := by omega
  simp [getBit, getBitOr, List.getD_eq_getElem?_getD, List.getElem?_eq_getElem hIn]

theorem getBit_new (n i : Nat) : (new n).getBit i = false := by
  have hZero : (List.replicate ((n + 7) / 8) (0 : UInt8)).getD (i / 8) 0 = 0 := by
    rw [List.getD_eq_getElem?_getD, List.getElem?_replicate]
    split <;> rfl
  rw [getBit, getBitOr, new, hZero, UInt8.zero_and]
  rfl

theorem getBit_setBit {b : BitField} {i : Nat} (h : i < b.bitLength) (j : Nat) (v : Bool) :
    (b.setBit i v).getBit j = if j = i then v else b.getBit j := by
  have hLen := b.count_eq
  have hIn : i / 8 < b.bytes.length := by omega
  unfold getBit getBitOr setBit
  rw [List.getD_eq_getElem?_getD, List.getD_eq_getElem?_getD, List.getElem?_modify]
  by_cases hByte : i / 8 = j / 8
  · rw [← hByte, List.getElem?_eq_getElem hIn]
    simp only [if_true, Option.map_eq_map, Option.map_some, Option.getD_some, and_mask_ne_zero]
    by_cases hEq : j = i
    · rw [if_pos hEq, hEq]
      have hbit : 7 - i % 8 < 8 := by omega
      cases v <;> simp [mask_toBitVec, hbit]
    · rw [if_neg hEq]
      have hbit : 7 - i % 8 ≠ 7 - j % 8 := by omega
      cases v <;> simp [mask_toBitVec, BitVec.getLsbD_twoPow, hbit]
      omega
  · simp only [if_neg hByte, Option.map_eq_map, Option.map_id']
    rw [if_neg fun hEq => hByte (by rw [hEq])]

@[simp] theorem bitLength_setBit (b : BitField) (i : Nat) (v : Bool) :
    (b.setBit i v).bitLength = b.bitLength := rfl

theorem hasAllSet_eq_true_iff {b : BitField} {n : Nat} :
    b.hasAllSet 0 n = true ↔ ∀ i < n, b.getBit i = true := by
  simp [hasAllSet, List.mem_range']

/-! ## Sums over the set bits -/

/-- The sum of `w` over the set bits. -/
def weight (b : BitField) (w : Nat → Nat) : Nat :=
  ∑ i ∈ Finset.range b.bitLength, if b.getBit i then w i else 0

/-- The number of set bits. -/
def count (b : BitField) : Nat := b.weight fun _ => 1

theorem weight_new (n : Nat) (w : Nat → Nat) : (new n).weight w = 0 := by
  apply Finset.sum_eq_zero
  intro i _
  rw [getBit_new]
  rfl

/-- Setting a bit to `v` moves its weight out and back in. -/
theorem weight_setBit {b : BitField} {i : Nat} (h : i < b.bitLength) (v : Bool) (w : Nat → Nat) :
    (b.setBit i v).weight w + (if b.getBit i then w i else 0) =
      b.weight w + (if v then w i else 0) := by
  have hMem : i ∈ Finset.range b.bitLength := Finset.mem_range.mpr h
  unfold weight
  rw [bitLength_setBit, ← Finset.add_sum_erase _ _ hMem, ← Finset.add_sum_erase _ _ hMem,
    getBit_setBit h, if_pos rfl]
  have hRest : ∑ j ∈ (Finset.range b.bitLength).erase i,
        (if (b.setBit i v).getBit j then w j else 0) =
      ∑ j ∈ (Finset.range b.bitLength).erase i, if b.getBit j then w j else 0 := by
    apply Finset.sum_congr rfl
    intro j hj
    rw [getBit_setBit h, if_neg (Finset.ne_of_mem_erase hj)]
  rw [hRest]
  omega

theorem weight_of_all {b : BitField} (h : ∀ i < b.bitLength, b.getBit i = true)
    (w : Nat → Nat) : b.weight w = ∑ i ∈ Finset.range b.bitLength, w i := by
  apply Finset.sum_congr rfl
  intro i hi
  rw [h i (Finset.mem_range.mp hi), if_pos rfl]

theorem weight_of_none {b : BitField} (h : ∀ i < b.bitLength, b.getBit i = false)
    (w : Nat → Nat) : b.weight w = 0 := by
  apply Finset.sum_eq_zero
  intro i hi
  rw [h i (Finset.mem_range.mp hi)]
  rfl

theorem weight_le (b : BitField) (w : Nat → Nat) :
    b.weight w ≤ ∑ i ∈ Finset.range b.bitLength, w i := by
  apply Finset.sum_le_sum
  intro i _
  split <;> omega

theorem count_le (b : BitField) : b.count ≤ b.bitLength := by
  have hLe := b.weight_le fun _ => 1
  rw [← Finset.card_eq_sum_ones, Finset.card_range] at hLe
  exact hLe

/-- The whole weight needs every bit, when no weight is zero. -/
theorem all_of_weight {b : BitField} {w : Nat → Nat} (hw : ∀ i < b.bitLength, 0 < w i)
    (h : ∑ i ∈ Finset.range b.bitLength, w i ≤ b.weight w) :
    ∀ i < b.bitLength, b.getBit i = true := by
  intro i hi
  by_contra hNot
  have hlt : b.weight w < ∑ j ∈ Finset.range b.bitLength, w j := by
    apply Finset.sum_lt_sum
    · intro j _
      split <;> omega
    · refine ⟨i, Finset.mem_range.mpr hi, ?_⟩
      rw [if_neg hNot]
      exact hw i hi
  omega

/-! ## Ranges -/

theorem bitLength_setRange (b : BitField) (start stop : Nat) (v : Bool) :
    (b.setRange start stop v).bitLength = b.bitLength := by
  unfold setRange
  generalize List.range' start (stop - start) = is
  induction is generalizing b with
  | nil => rfl
  | cons i is ih => rw [List.foldl_cons, ih, bitLength_setBit]

/-- `set_range(0,bit_length,1)`. -/
theorem getBit_setRange_all (b : BitField) :
    ∀ i < b.bitLength, (b.setRange 0 b.bitLength true).getBit i = true := by
  have hFold : ∀ (is : List Nat) (c : BitField), (∀ i ∈ is, i < c.bitLength) →
      ∀ i, i ∈ is ∨ c.getBit i = true →
        (is.foldl (fun b i => b.setBit i true) c).getBit i = true := by
    intro is
    induction is with
    | nil =>
        intro c _ i hi
        exact hi.resolve_left List.not_mem_nil
    | cons k is ih =>
        intro c hIn i hi
        rw [List.foldl_cons]
        have hk := hIn k List.mem_cons_self
        apply ih (c.setBit k true) fun j hj => hIn j (List.mem_cons_of_mem _ hj)
        rw [getBit_setBit hk]
        by_cases hEq : i = k
        · exact .inr (by rw [if_pos hEq])
        · rw [if_neg hEq]
          exact hi.imp_left fun hMem => (List.mem_cons.mp hMem).resolve_left hEq
  intro i hi
  have hMem : i ∈ List.range' 0 (b.bitLength - 0) := by
    rw [List.mem_range'_1]
    omega
  refine hFold _ b (fun j hj => ?_) i (.inl hMem)
  rw [List.mem_range'_1] at hj
  omega

end BitField

end Lftp.Ports
