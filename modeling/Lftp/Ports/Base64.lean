import Mathlib.Algebra.Group.Nat.Defs
import Mathlib.Algebra.Group.Int.Defs
import Lftp.Verified.Decimal

/-!
# Base64 of credentials

`base64_length` and `base64_encode` of `misc.cc`, and `Http::SendBasicAuth`. The indices into the
table are computed from `char`, which is signed, so the bits above a byte of 0x80 or more are ones.
What is read outside the table is not known, and neither is the byte after the terminator.

* `quad_decodes_iff`: four characters give their three bytes back when all three are ASCII.
* `base64_encode_decodes_iff`: the whole text does when the whole string is.
* `SendBasicAuth_decodes_iff`: the same for the credentials of a request.
-/

namespace Lftp.Ports.Base64

open Lftp.Verified

/-! ## The code -/

/-- `base64_length`, in `int`. -/
def base64_length (len : Nat) : Option Nat :=
  if len + 2 < 2 ^ 31 ∧ 4 * ((len + 2) / 3) < 2 ^ 31 then some (4 * ((len + 2) / 3)) else none

def tbl : Bytes := bytes "ABCDEFGHIJKLMNOPQRSTUVWXYZabcdefghijklmnopqrstuvwxyz0123456789+/"

/-- A `char` in an expression is an `int`. -/
def promote (c : UInt8) : BitVec 32 := c.toBitVec.signExtend 32

/-- `tbl[i]`; a negative index is outside too. -/
def lookup (i : BitVec 32) : Option UInt8 := tbl[i.toNat]?

/-- The four characters of three bytes. -/
def quad (a b c : UInt8) : List (Option UInt8) :=
  [lookup ((promote a).sshiftRight 2),
   lookup (((promote a &&& 3) <<< 4) + (promote b).sshiftRight 4),
   lookup (((promote b &&& 0xf) <<< 2) + (promote c).sshiftRight 6),
   lookup (promote c &&& 0x3f)]

/-- The loop over `s`, with `i`, and with what is stored so far. -/
def transform (s : Bytes) (i length : Nat) (store : List (Option UInt8)) :
    Nat × List (Option UInt8) :=
  if i < length then
    transform (s.drop 3) (i + 3) length
      (store ++ quad (s.getD 0 0) (s.getD 1 0) (s.getD 2 0))
  else (i, store)
termination_by length - i

/-- The padding. -/
def pad (length : Nat) : Nat × List (Option UInt8) → List (Option UInt8)
  | (i, store) =>
    if i = length + 1 then store.dropLast ++ [some (ch '=')]
    else if i = length + 2 then store.dropLast.dropLast ++ [some (ch '='), some (ch '=')]
    else store

/-- `base64_encode`: what `store` holds at the end. -/
def base64_encode (s : Bytes) (length : Nat) : List (Option UInt8) :=
  pad length (transform s 0 length []) ++ [some 0]

/-- The memory at a string: its bytes, the terminator, and the byte `after` it. -/
def memory (s : Bytes) (after : UInt8) : Bytes := s ++ [0, after]

/-- `Http::SendBasicAuth` with one string: what is sent, if the length is computed at all. -/
def SendBasicAuth (tag auth : Bytes) (after : UInt8) : Option (List (Option UInt8)) :=
  if auth = [] then some []
  else do
    let _ ← base64_length auth.length
    let buf64 := (base64_encode (memory auth after) auth.length).dropLast
    some ((tag ++ bytes ": Basic ").map some ++ buf64 ++ (bytes "\r\n").map some)

/-- `Http::SendBasicAuth` with a user and a password. -/
def SendBasicAuth_user (tag user pass : Bytes) (after : UInt8) : Option (List (Option UInt8)) :=
  SendBasicAuth tag (user ++ bytes ":" ++ pass) after

/-! ## RFC 4648 -/

/-- The value of a character. -/
def charValue (c : UInt8) : Option Nat :=
  if ch 'A' ≤ c ∧ c ≤ ch 'Z' then some (c.toNat - 65)
  else if ch 'a' ≤ c ∧ c ≤ ch 'z' then some (c.toNat - 97 + 26)
  else if ch '0' ≤ c ∧ c ≤ ch '9' then some (c.toNat - 48 + 52)
  else if c = ch '+' then some 62
  else if c = ch '/' then some 63
  else none

/-- The bytes of the last four characters, of which the padding bits are zero. -/
def decodeLast (a b c : UInt8) : Option Bytes := do
  let x ← charValue a
  let y ← charValue b
  if c = ch '=' then
    if y % 16 = 0 then some [UInt8.ofNat (4 * x + y / 16)] else none
  else
    let z ← charValue c
    if z % 4 = 0 then
      some [UInt8.ofNat (4 * x + y / 16), UInt8.ofNat (16 * (y % 16) + z / 4)]
    else none

/-- The decoder. -/
def decode : Bytes → Option Bytes
  | a :: b :: c :: d :: rest =>
    if d = ch '=' then if rest = [] then decodeLast a b c else none
    else do
      let x ← charValue a
      let y ← charValue b
      let z ← charValue c
      let u ← charValue d
      let s ← decode rest
      some (UInt8.ofNat (4 * x + y / 16) :: UInt8.ofNat (16 * (y % 16) + z / 4) ::
        UInt8.ofNat (64 * (z % 4) + u) :: s)
  | [] => some []
  | _ => none

/-- The text stored for `s` is `text`, of the length that was computed, and it decodes to `s`. -/
def Encoded (s : Bytes) (after : UInt8) (text : Bytes) : Prop :=
  base64_encode (memory s after) s.length = text.map some ++ [some 0] ∧
    base64_length s.length = some text.length ∧ decode text = some s

/-- The header that is sent for `auth` has a text that decodes to it. -/
def Carries (sent : Option (List (Option UInt8))) (tag auth : Bytes) : Prop :=
  ∃ text, sent = some ((tag ++ bytes ": Basic " ++ text ++ bytes "\r\n").map some) ∧
    decode text = some auth

/-! ## The table -/

theorem toNat_promote (c : UInt8) :
    (promote c).toNat = if c.toNat < 128 then c.toNat else 2 ^ 32 - 2 ^ 8 + c.toNat := by
  have hLt := c.toNat_lt
  have hByte : (c.toBitVec.setWidth 32).toNat = c.toNat := by
    rw [BitVec.toNat_setWidth]
    exact Nat.mod_eq_of_lt (by omega)
  have hMsb : c.toBitVec.msb = decide (128 ≤ c.toNat) := BitVec.msb_eq_decide c.toBitVec
  rw [promote, BitVec.toNat_signExtend, hByte, hMsb]
  by_cases h : c.toNat < 128
  · rw [if_pos h, if_neg (by simpa using h), Nat.add_zero]
  · rw [if_neg h, if_pos (by simpa using h)]
    exact Nat.add_comm _ _

/-- A shift keeps the sign. -/
theorem toNat_shift (c : UInt8) {k : Nat} (hk : k ∈ [2, 4, 6]) :
    ((promote c).sshiftRight k).toNat
      = if c.toNat < 128 then c.toNat / 2 ^ k else 2 ^ 32 - 2 ^ (8 - k) + c.toNat / 2 ^ k := by
  have hLt := c.toNat_lt
  have hValue := toNat_promote c
  have hMsb : (promote c).msb = decide (2 ^ 31 ≤ (promote c).toNat) := BitVec.msb_eq_decide _
  rw [BitVec.toNat_sshiftRight, hMsb, hValue, Nat.shiftRight_eq_div_pow, Nat.shiftRight_eq_div_pow]
  by_cases h : c.toNat < 128
  · rw [if_pos h, if_neg (by simp; omega), if_pos h]
  · rw [if_neg h, if_pos (by simp; omega), if_neg h]
    simp only [List.mem_cons, List.not_mem_nil, or_false] at hk
    rcases hk with rfl | rfl | rfl <;> omega

/-- A mask drops it. -/
theorem toNat_mask (c : UInt8) :
    ((promote c &&& 3) <<< 4).toNat = c.toNat % 4 * 16 ∧
    ((promote c &&& 0xf) <<< 2).toNat = c.toNat % 16 * 4 ∧
    (promote c &&& 0x3f).toNat = c.toNat % 64 := by
  have hValue := toNat_promote c
  have hMod {k : Nat} (hk : k ≤ 6) : (promote c).toNat % 2 ^ k = c.toNat % 2 ^ k := by
    obtain ⟨q, hq⟩ : 2 ^ k ∣ 2 ^ 32 - 2 ^ 8 :=
      Nat.dvd_sub (Nat.pow_dvd_pow 2 (by omega)) (Nat.pow_dvd_pow 2 (by omega))
    rw [hValue]
    split
    · rfl
    · rw [hq, Nat.mul_add_mod]
  have hAnd {k : Nat} (hk : k ≤ 6) (m : BitVec 32) (hm : m.toNat = 2 ^ k - 1) :
      (promote c &&& m).toNat = c.toNat % 2 ^ k := by
    rw [BitVec.toNat_and, hm, Nat.and_two_pow_sub_one_eq_mod, hMod hk]
  have hShift (x : BitVec 32) {j : Nat} (h : x.toNat * 2 ^ j < 2 ^ 32) :
      (x <<< j).toNat = x.toNat * 2 ^ j := by
    rw [BitVec.toNat_shiftLeft, Nat.shiftLeft_eq, Nat.mod_eq_of_lt h]
  have hTwo := hAnd (k := 2) (by decide) 3 rfl
  have hFour := hAnd (k := 4) (by decide) 0xf rfl
  refine ⟨?_, ?_, hAnd (k := 6) (by decide) 0x3f rfl⟩
  · exact (hShift _ (by omega)).trans (congrArg (· * 2 ^ 4) hTwo)
  · exact (hShift _ (by omega)).trans (congrArg (· * 2 ^ 2) hFour)

/-- The table is the alphabet. -/
theorem lookup_eq_some {i : BitVec 32} {x : UInt8} (h : lookup i = some x) :
    charValue x = some i.toNat ∧ i.toNat < 64 ∧ x ≠ ch '=' := by
  have hAll : ∀ n < 64, ∀ x, tbl[n]? = some x → charValue x = some n ∧ x ≠ ch '=' := by
    intro n hn x hx
    have hTable : ∀ n < 64, ∃ x, tbl[n]? = some x ∧ charValue x = some n ∧ x ≠ ch '=' := by
      decide +kernel
    obtain ⟨y, hy, hValue⟩ := hTable n hn
    rw [hx] at hy
    obtain rfl := Option.some.inj hy
    exact hValue
  have hLt : i.toNat < 64 := by
    obtain ⟨hLt, -⟩ := List.getElem?_eq_some_iff.mp h
    exact hLt
  exact ⟨(hAll _ hLt x h).1, hLt, (hAll _ hLt x h).2⟩

theorem lookup_of_lt {i : BitVec 32} (h : i.toNat < 64) : ∃ x, lookup i = some x := by
  have hLength : tbl.length = 64 := by decide
  exact ⟨_, List.getElem?_eq_getElem (by rw [hLength]; exact h)⟩

/-! ## Four characters -/

/-- The indices are the digits of ASCII bytes, and of no others. -/
theorem index_second (a b : UInt8) :
    let i := ((promote a &&& 3) <<< 4) + (promote b).sshiftRight 4
    i.toNat = if b.toNat < 128 then 16 * (a.toNat % 4) + b.toNat / 16
      else if a.toNat % 4 = 0 then 2 ^ 32 - 16 + b.toNat / 16
      else 16 * (a.toNat % 4 - 1) + b.toNat / 16 := by
  have hb := b.toNat_lt
  intro i
  simp only [i, BitVec.toNat_add, (toNat_mask a).1, toNat_shift b (k := 4) (by simp)]
  split_ifs <;> omega

theorem index_third (b c : UInt8) :
    let i := ((promote b &&& 0xf) <<< 2) + (promote c).sshiftRight 6
    i.toNat = if c.toNat < 128 then 4 * (b.toNat % 16) + c.toNat / 64
      else if b.toNat % 16 = 0 then 2 ^ 32 - 4 + c.toNat / 64
      else 4 * (b.toNat % 16 - 1) + c.toNat / 64 := by
  have hc := c.toNat_lt
  intro i
  simp only [i, BitVec.toNat_add, (toNat_mask b).2.1, toNat_shift c (k := 6) (by simp)]
  split_ifs <;> omega

theorem index_first (a : UInt8) :
    ((promote a).sshiftRight 2).toNat
      = if a.toNat < 128 then a.toNat / 4 else 2 ^ 32 - 64 + a.toNat / 4 :=
  toNat_shift a (by simp)

/-- What the memory and the padding make of `s`. -/
def stored (after : UInt8) : Bytes → List (Option UInt8)
  | [] => []
  | [a] => (quad a 0 after).take 2 ++ [some (ch '='), some (ch '=')]
  | [a, b] => (quad a b 0).take 3 ++ [some (ch '=')]
  | a :: b :: c :: s => quad a b c ++ stored after s

theorem pad_transform (after : UInt8) (s : Bytes) (i : Nat) (store : List (Option UInt8)) :
    pad (i + s.length) (transform (memory s after) i (i + s.length) store)
      = store ++ stored after s := by
  induction s using stored.induct generalizing i store with
  | case1 =>
      rw [transform, if_neg (by simp)]
      simp [pad, stored]
  | case2 a =>
      rw [transform, if_pos (by simp), transform, if_neg (by simp)]
      simp [pad, stored, memory, quad]
  | case3 a b =>
      rw [transform, if_pos (by simp), transform, if_neg (by simp)]
      simp [pad, stored, memory, quad]
  | case4 a b c s ih =>
      have hLength : i + (a :: b :: c :: s).length = i + 3 + s.length := by
        simp only [List.length_cons]
        omega
      rw [transform, if_pos (by simp), hLength, stored, ← List.append_assoc, ← ih]
      rfl

theorem base64_encode_memory (s : Bytes) (after : UInt8) :
    base64_encode (memory s after) s.length = stored after s ++ [some 0] := by
  have h := pad_transform after s 0 []
  rw [Nat.zero_add, List.nil_append] at h
  rw [base64_encode, h]

/-! ## The round trip -/

theorem ofNat_eq_iff {n : Nat} (hn : n < 256) (c : UInt8) : UInt8.ofNat n = c ↔ n = c.toNat := by
  rw [← UInt8.toNat_inj, UInt8.toNat_ofNat', Nat.mod_eq_of_lt hn]

variable {x₀ x₁ x₂ x₃ : UInt8} {n₀ n₁ n₂ n₃ : Nat}

theorem decode_cons (h₀ : charValue x₀ = some n₀) (h₁ : charValue x₁ = some n₁)
    (h₂ : charValue x₂ = some n₂) (h₃ : charValue x₃ = some n₃) (hne : x₃ ≠ ch '=')
    (text : Bytes) (a b c : UInt8) (s : Bytes) :
    decode (x₀ :: x₁ :: x₂ :: x₃ :: text) = some (a :: b :: c :: s) ↔
      UInt8.ofNat (4 * n₀ + n₁ / 16) = a ∧ UInt8.ofNat (16 * (n₁ % 16) + n₂ / 4) = b ∧
        UInt8.ofNat (64 * (n₂ % 4) + n₃) = c ∧ decode text = some s := by
  rw [decode, if_neg hne, h₀, h₁, h₂, h₃]
  cases decode text with
  | none => simp
  | some t => simp

/-- The four characters of three bytes. -/
theorem quad_decodes_iff (a b c : UInt8) (rest : List (Option UInt8)) (s : Bytes) :
    (∃ text : Bytes, quad a b c ++ rest = text.map some ∧ decode text = some (a :: b :: c :: s)) ↔
      (a.toNat < 128 ∧ b.toNat < 128 ∧ c.toNat < 128) ∧
        ∃ text : Bytes, rest = text.map some ∧ decode text = some s := by
  have ha := a.toNat_lt
  have hb := b.toNat_lt
  have hc := c.toNat_lt
  have hFirst := index_first a
  have hSecond := index_second a b
  have hThird := index_third b c
  have hFourth := (toNat_mask c).2.2
  simp only at hFirst hSecond hThird hFourth
  constructor
  · rintro ⟨text, hStored, hDecode⟩
    rcases text with _ | ⟨x₀, _ | ⟨x₁, _ | ⟨x₂, _ | ⟨x₃, text⟩⟩⟩⟩ <;>
      simp only [quad, List.cons_append, List.nil_append, List.map_nil, List.map_cons,
        List.cons.injEq, reduceCtorEq, and_false] at hStored
    obtain ⟨h₀, h₁, h₂, h₃, hRest⟩ := hStored
    obtain ⟨hv₀, hn₀, -⟩ := lookup_eq_some h₀
    obtain ⟨hv₁, hn₁, -⟩ := lookup_eq_some h₁
    obtain ⟨hv₂, hn₂, -⟩ := lookup_eq_some h₂
    obtain ⟨hv₃, hn₃, hne⟩ := lookup_eq_some h₃
    rw [decode_cons hv₀ hv₁ hv₂ hv₃ hne] at hDecode
    obtain ⟨hA, hB, -, hTail⟩ := hDecode
    rw [ofNat_eq_iff (by omega)] at hA hB
    refine ⟨?_, text, hRest, hTail⟩
    rw [hFirst] at hA hn₀
    rw [hSecond] at hA hB hn₁
    rw [hThird] at hB hn₂
    split_ifs at * <;> omega
  · rintro ⟨⟨hA, hB, hC⟩, text, hRest, hTail⟩
    rw [if_pos hA] at hFirst
    rw [if_pos hB] at hSecond
    rw [if_pos hC] at hThird
    obtain ⟨x₀, h₀⟩ := lookup_of_lt (i := (promote a).sshiftRight 2) (by omega)
    obtain ⟨x₁, h₁⟩ := lookup_of_lt
      (i := ((promote a &&& 3) <<< 4) + (promote b).sshiftRight 4) (by omega)
    obtain ⟨x₂, h₂⟩ := lookup_of_lt
      (i := ((promote b &&& 0xf) <<< 2) + (promote c).sshiftRight 6) (by omega)
    obtain ⟨x₃, h₃⟩ := lookup_of_lt (i := promote c &&& 0x3f) (by omega)
    have hv₃ := lookup_eq_some h₃
    refine ⟨x₀ :: x₁ :: x₂ :: x₃ :: text, by rw [quad, h₀, h₁, h₂, h₃, hRest]; rfl, ?_⟩
    rw [decode_cons (lookup_eq_some h₀).1 (lookup_eq_some h₁).1 (lookup_eq_some h₂).1 hv₃.1 hv₃.2.2,
      ofNat_eq_iff (by omega), ofNat_eq_iff (by omega), ofNat_eq_iff (by omega)]
    exact ⟨by omega, by omega, by omega, hTail⟩

theorem decodeLast_two (h₀ : charValue x₀ = some n₀) (h₁ : charValue x₁ = some n₁) (a : UInt8) :
    decode [x₀, x₁, ch '=', ch '='] = some [a] ↔
      n₁ % 16 = 0 ∧ UInt8.ofNat (4 * n₀ + n₁ / 16) = a := by
  have hLast : decode [x₀, x₁, ch '=', ch '='] = decodeLast x₀ x₁ (ch '=') := rfl
  rw [hLast, decodeLast, h₀, h₁]
  simp

theorem decodeLast_three (h₀ : charValue x₀ = some n₀) (h₁ : charValue x₁ = some n₁)
    (h₂ : charValue x₂ = some n₂) (hne : x₂ ≠ ch '=') (a b : UInt8) :
    decode [x₀, x₁, x₂, ch '='] = some [a, b] ↔ n₂ % 4 = 0 ∧
      UInt8.ofNat (4 * n₀ + n₁ / 16) = a ∧ UInt8.ofNat (16 * (n₁ % 16) + n₂ / 4) = b := by
  have hLast : decode [x₀, x₁, x₂, ch '='] = decodeLast x₀ x₁ x₂ := rfl
  rw [hLast, decodeLast, h₀, h₁, h₂]
  simp [hne]

/-- The four characters of one byte. -/
theorem one_decodes_iff (a after : UInt8) :
    (∃ text : Bytes, stored after [a] = text.map some ∧ decode text = some [a]) ↔
      a.toNat < 128 := by
  have ha := a.toNat_lt
  have hFirst := index_first a
  have hSecond := index_second a 0
  simp only [UInt8.toNat_zero, Nat.zero_div, Nat.add_zero, if_pos (show 0 < 128 by omega)]
    at hFirst hSecond
  constructor
  · rintro ⟨text, hStored, -⟩
    rcases text with _ | ⟨x₀, text⟩
    · cases hStored
    obtain ⟨h₀, -⟩ := List.cons.inj hStored
    have hn₀ := (lookup_eq_some h₀).2.1
    rw [hFirst] at hn₀
    split_ifs at hn₀ <;> omega
  · intro hA
    rw [if_pos hA] at hFirst
    obtain ⟨x₀, h₀⟩ := lookup_of_lt (i := (promote a).sshiftRight 2) (by omega)
    obtain ⟨x₁, h₁⟩ := lookup_of_lt
      (i := ((promote a &&& 3) <<< 4) + (promote 0).sshiftRight 4) (by omega)
    refine ⟨[x₀, x₁, ch '=', ch '='], by rw [stored, quad, h₀, h₁]; rfl, ?_⟩
    rw [decodeLast_two (lookup_eq_some h₀).1 (lookup_eq_some h₁).1, ofNat_eq_iff (by omega)]
    omega

/-- The four characters of two bytes. -/
theorem two_decodes_iff (a b after : UInt8) :
    (∃ text : Bytes, stored after [a, b] = text.map some ∧ decode text = some [a, b]) ↔
      a.toNat < 128 ∧ b.toNat < 128 := by
  have ha := a.toNat_lt
  have hb := b.toNat_lt
  have hFirst := index_first a
  have hSecond := index_second a b
  have hThird := index_third b 0
  simp only [UInt8.toNat_zero, Nat.zero_div, Nat.add_zero, if_pos (show 0 < 128 by omega)]
    at hFirst hSecond hThird
  constructor
  · rintro ⟨text, hStored, hDecode⟩
    rcases text with _ | ⟨x₀, _ | ⟨x₁, _ | ⟨x₂, _ | ⟨x₃, _ | ⟨x₄, text⟩⟩⟩⟩⟩ <;>
      simp only [stored, quad, List.take_succ_cons, List.take_zero, List.cons_append,
        List.nil_append, List.map_nil, List.map_cons, List.cons.injEq, reduceCtorEq,
        and_false] at hStored
    obtain ⟨h₀, h₁, h₂, hEq, -⟩ := hStored
    obtain rfl := Option.some.inj hEq
    obtain ⟨hv₀, hn₀, -⟩ := lookup_eq_some h₀
    obtain ⟨hv₁, hn₁, -⟩ := lookup_eq_some h₁
    obtain ⟨hv₂, hn₂, hne⟩ := lookup_eq_some h₂
    rw [decodeLast_three hv₀ hv₁ hv₂ hne] at hDecode
    obtain ⟨-, hA, hB⟩ := hDecode
    rw [ofNat_eq_iff (by omega)] at hA hB
    rw [hFirst] at hA hn₀
    rw [hSecond] at hA hB hn₁
    split_ifs at * <;> omega
  · rintro ⟨hA, hB⟩
    rw [if_pos hA] at hFirst
    rw [if_pos hB] at hSecond
    obtain ⟨x₀, h₀⟩ := lookup_of_lt (i := (promote a).sshiftRight 2) (by omega)
    obtain ⟨x₁, h₁⟩ := lookup_of_lt
      (i := ((promote a &&& 3) <<< 4) + (promote b).sshiftRight 4) (by omega)
    obtain ⟨x₂, h₂⟩ := lookup_of_lt
      (i := ((promote b &&& 0xf) <<< 2) + (promote 0).sshiftRight 6) (by omega)
    have hv₂ := lookup_eq_some h₂
    refine ⟨[x₀, x₁, x₂, ch '='], by rw [stored, quad, h₀, h₁, h₂]; rfl, ?_⟩
    rw [decodeLast_three (lookup_eq_some h₀).1 (lookup_eq_some h₁).1 hv₂.1 hv₂.2.2,
      ofNat_eq_iff (by omega), ofNat_eq_iff (by omega)]
    exact ⟨by omega, by omega, by omega⟩

/-- Only ASCII comes back. -/
theorem stored_decodes_iff (after : UInt8) (s : Bytes) :
    (∃ text : Bytes, stored after s = text.map some ∧ decode text = some s) ↔
      ∀ c ∈ s, c.toNat < 128 := by
  induction s using stored.induct with
  | case1 => simp [stored, decode]
  | case2 a => rw [one_decodes_iff]; simp
  | case3 a b => rw [two_decodes_iff]; simp
  | case4 a b c s ih =>
      rw [stored, quad_decodes_iff, ih]
      simp only [List.forall_mem_cons, and_assoc]

theorem length_stored (after : UInt8) (s : Bytes) :
    (stored after s).length = 4 * ((s.length + 2) / 3) := by
  induction s using stored.induct with
  | case1 => rfl
  | case2 a => simp [stored, quad]
  | case3 a b => simp [stored, quad]
  | case4 a b c s ih =>
      simp only [stored, quad, List.length_append, List.length_cons, List.length_nil, ih]
      omega

theorem exists_encoded_iff (s : Bytes) (after : UInt8) :
    (∃ text, Encoded s after text) ↔
      (∀ c ∈ s, c.toNat < 128) ∧ 4 * ((s.length + 2) / 3) < 2 ^ 31 := by
  rw [← stored_decodes_iff after]
  constructor
  · rintro ⟨text, hStored, hLength, hDecode⟩
    rw [base64_encode_memory] at hStored
    refine ⟨⟨text, List.append_cancel_right hStored, hDecode⟩, ?_⟩
    unfold base64_length at hLength
    split_ifs at hLength with hFits
    exact hFits.2
  · rintro ⟨⟨text, hStored, hDecode⟩, hFits⟩
    have hText := congrArg List.length hStored
    rw [length_stored, List.length_map] at hText
    refine ⟨text, ?_, ?_, hDecode⟩
    · rw [base64_encode_memory, hStored]
    · rw [base64_length, if_pos ⟨by omega, hFits⟩, hText]

theorem SendBasicAuth_carries_iff (tag : Bytes) {auth : Bytes} (h : auth ≠ []) (after : UInt8) :
    Carries (SendBasicAuth tag auth after) tag auth ↔
      (∀ c ∈ auth, c.toNat < 128) ∧ 4 * ((auth.length + 2) / 3) < 2 ^ 31 := by
  rw [← stored_decodes_iff after, SendBasicAuth, if_neg h, base64_encode_memory,
    List.dropLast_concat, base64_length]
  by_cases hFits : 4 * ((auth.length + 2) / 3) < 2 ^ 31
  · rw [if_pos ⟨by omega, hFits⟩, and_iff_left hFits]
    simp [Carries]
  · rw [if_neg (fun hBoth => hFits hBoth.2)]
    exact iff_of_false (by simp [Carries]) fun hBoth => hFits hBoth.2

/-- The encoding is right, for the header as well, for ASCII strings of a length that fits. -/
theorem base64_encode_decodes_iff (s : Bytes) (after : UInt8) :
    ((∃ text, Encoded s after text) ∧
      ∀ tag user pass, s = user ++ bytes ":" ++ pass →
        Carries (SendBasicAuth_user tag user pass after) tag s) ↔
      (∀ c ∈ s, c.toNat < 128) ∧ 4 * ((s.length + 2) / 3) < 2 ^ 31 := by
  rw [exists_encoded_iff]
  refine and_iff_left_of_imp fun hGood tag user pass hs => ?_
  have hne : s ≠ [] := by
    rw [hs]
    simp [bytes]
  rw [SendBasicAuth_user, ← hs, SendBasicAuth_carries_iff tag hne]
  exact hGood

/-- Of the bytes `61 C3 A9` the first comes back as `60`. -/
theorem not_base64_encode_decodes : ¬ ∀ s after, ∃ text, Encoded s after text := by
  intro h
  obtain ⟨text, hStored, -, hDecode⟩ := h [0x61, 0xc3, 0xa9] 0
  have hText : stored 0 [0x61, 0xc3, 0xa9] = (bytes "YMKp").map some := by decide
  rw [base64_encode_memory, hText] at hStored
  have hSame : bytes "YMKp" = text :=
    List.map_inj_right (fun _ _ => Option.some.inj) |>.mp (List.append_cancel_right hStored)
  rw [← hSame] at hDecode
  exact absurd hDecode (by decide)

end Lftp.Ports.Base64
