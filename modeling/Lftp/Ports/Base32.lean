import Lftp.Verified.BitGroups

/-!
# Base32 of magnet links

`base32_decode` of `Torrent.cc`. It collects five bits a character in `data`, of which the
`data_bits` bits below bit 16 wait for a byte, and it appends a last byte when bits are left.

* `decode_digits`: after the characters, the output and the waiting bits are all the bits.
* `base32_decode_spelling`: a text whose bits don't end with a byte decodes to one zero byte more.
* `base32_decode_inverts_iff`: so decoding undoes encoding for lengths divisible by five alone.
-/

namespace Lftp.Ports.Base32

open Lftp.Verified
open Lftp.Verified.BitGroups

/-! ## The code -/

/-- `base32_char_to_value`. -/
def base32_char_to_value (c : UInt8) : Option Nat :=
  if ch 'a' ≤ c ∧ c ≤ ch 'z' then some (c.toNat - 97)
  else if ch 'A' ≤ c ∧ c ≤ ch 'Z' then some (c.toNat - 65)
  else if ch '2' ≤ c ∧ c ≤ ch '7' then some (c.toNat - 50 + 26)
  else if c = ch '=' then some 0
  else none

/-- The variables of the loop. -/
structure Decoder where
  data : Nat
  data_bits : Nat
  pad_bits : Nat
  out : Bytes

/-- `out.append(char((data>>8)&255))`. -/
def Decoder.append (st : Decoder) : Bytes := st.out ++ [UInt8.ofNat ((st.data >>> 8) &&& 255)]

/-- The rest of the loop's body, for the value `v` of `c`. -/
def Decoder.take (st : Decoder) (c : UInt8) (v : Nat) : Decoder :=
  let st := { st with
    data := st.data ||| ((v &&& 31) <<< (11 - st.data_bits))
    data_bits := st.data_bits + 5
    pad_bits := if c = ch '=' then st.pad_bits + 5 else st.pad_bits }
  if st.data_bits ≥ 8 then
    { st with
      out := st.append
      data := (st.data <<< 8) % 2 ^ 32
      data_bits := st.data_bits - 8 }
  else st

/-- `if(data_bits>0)` after the loop. -/
def Decoder.finish (st : Decoder) : Bytes := if st.data_bits > 0 then st.append else st.out

/-- The loop. -/
def decode : Bytes → Decoder → Bytes
  | [], st => st.finish
  | c :: base32, st =>
    if c = 0 then st.finish
    else if c = ch '=' ∧ st.data_bits ≤ st.pad_bits then st.out
    else if st.pad_bits > 0 ∧ c ≠ ch '=' then st.out
    else match base32_char_to_value c with
      | none => st.out
      | some v => decode base32 (st.take c v)

/-- `base32_decode`. -/
def base32_decode (base32 : Bytes) (out : Bytes) : Bytes := decode base32 ⟨0, 0, 0, out⟩

/-! ## RFC 4648 -/

/-- The alphabet. -/
def upper (d : Nat) : UInt8 := UInt8.ofNat (if d < 26 then 65 + d else 24 + d)

/-- The alphabet with small letters. -/
def lower (d : Nat) : UInt8 := UInt8.ofNat (if d < 26 then 97 + d else 24 + d)

/-- The padding, to eight characters. -/
def padding (s : Bytes) : Bytes :=
  List.replicate ((8 - (digits 5 s).length % 8) % 8) (ch '=')

/-- An encoding of `s`, with or without the padding, in letters of either case. -/
structure Spells (s text : Bytes) : Prop where
  spelled : ∃ chars, (text = chars ∨ text = chars ++ padding s) ∧
    List.Forall₂ (fun d c => c = upper d ∨ c = lower d) (digits 5 s) chars

/-! ## Characters -/

/-- The value of a digit's character. -/
theorem value_of_digit {d : Nat} {c : UInt8} (hd : d < 2 ^ 5) (hc : c = upper d ∨ c = lower d) :
    c ≠ 0 ∧ c ≠ ch '=' ∧ base32_char_to_value c = some d := by
  have hUpper : ∀ d < 2 ^ 5, upper d ≠ 0 ∧ upper d ≠ ch '=' ∧ base32_char_to_value (upper d) = some d := by
    decide +kernel
  have hLower : ∀ d < 2 ^ 5, lower d ≠ 0 ∧ lower d ≠ ch '=' ∧ base32_char_to_value (lower d) = some d := by
    decide +kernel
  rcases hc with rfl | rfl
  · exact hUpper d hd
  · exact hLower d hd

/-! ## What a character does -/

/-- The bits `p` wait in `data`. -/
structure Waiting (p : List Bool) (st : Decoder) : Prop where
  count : st.data_bits = p.length
  few : p.length < 8
  held : ∃ a, st.data = a * 2 ^ (16 - p.length) ∧ bits p.length a = p

/-- The byte that is appended when `n` bits wait. -/
theorem bitsOf_append_byte {st : Decoder} {n b : Nat} (hn : 8 ≤ n) (hLe : n ≤ 16)
    (hData : st.data = b * 2 ^ (16 - n)) :
    bitsOf st.append = bitsOf st.out ++ bits 8 (b / 2 ^ (n - 8)) := by
  have hMask : ∀ x, x &&& 255 = x % 2 ^ 8 := fun x => Nat.and_two_pow_sub_one_eq_mod x 8
  have hSplit : 2 ^ 8 = 2 ^ (16 - n) * 2 ^ (n - 8) := by
    rw [← Nat.pow_add]
    congr 1
    omega
  have hShift : st.data >>> 8 = b / 2 ^ (n - 8) := by
    rw [hData, Nat.shiftRight_eq_div_pow, hSplit, Nat.mul_comm b,
      Nat.mul_div_mul_left _ _ (Nat.two_pow_pos _)]
  rw [Decoder.append, bitsOf_append, bitsOf_byte, hShift, hMask]
  congr 1
  exact bits_congr (Nat.mod_mod _ _)

/-- The bits that wait after it. -/
theorem waiting_rest {st : Decoder} {n b : Nat} (hn : 8 ≤ n) (hLe : n < 16)
    (hCount : st.data_bits = n - 8) (hData : st.data = (b * 2 ^ (16 - n)) <<< 8 % 2 ^ 32) :
    Waiting (bits (n - 8) b) st := by
  constructor
  · rw [hCount, length_bits]
  · rw [length_bits]
    omega
  · refine ⟨b % 2 ^ (n + 8), ?_, ?_⟩
    · rw [hData, length_bits, Nat.shiftLeft_eq, Nat.mul_assoc, ← Nat.pow_add,
        show 16 - n + 8 = 16 - (n - 8) by omega, show 32 = (n + 8) + (16 - (n - 8)) by omega,
        Nat.pow_add, Nat.mul_mod_mul_right]
    · rw [length_bits]
      apply bits_congr
      exact Nat.mod_mod_of_dvd _ (Nat.pow_dvd_pow 2 (by omega))

/-- A digit's character adds the digit's bits. -/
theorem Waiting.take {p : List Bool} {st : Decoder} (h : Waiting p st) {d : Nat} (hd : d < 2 ^ 5)
    {c : UInt8} (hc : c ≠ ch '=') :
    ∃ q, Waiting q (st.take c d) ∧ (st.take c d).pad_bits = st.pad_bits ∧
      bitsOf (st.take c d).out ++ q = bitsOf st.out ++ (p ++ bits 5 d) := by
  obtain ⟨a, hData, hHeld⟩ := h.held
  have hFew := h.few
  have hMask : d &&& 31 = d := by
    rw [show 31 = 2 ^ 5 - 1 from rfl, Nat.and_two_pow_sub_one_eq_mod, Nat.mod_eq_of_lt hd]
  -- the five bits come right after the waiting ones
  have hJoin : st.data ||| ((d &&& 31) <<< (11 - st.data_bits))
      = (a * 2 ^ 5 + d) * 2 ^ (16 - (p.length + 5)) := by
    rw [hMask, h.count, hData, show 16 - p.length = 5 + (11 - p.length) by omega,
      mul_or_shiftLeft _ _ hd, show 16 - (p.length + 5) = 11 - p.length by omega]
  have hBits : bits (p.length + 5) (a * 2 ^ 5 + d) = p ++ bits 5 d := by
    rw [bits_mul_add _ _ _ hd, hHeld]
  rw [h.count] at hJoin
  generalize a * 2 ^ 5 + d = b at hJoin hBits
  by_cases hFull : p.length + 5 ≥ 8
  · have hTake : st.take c d = ⟨((b * 2 ^ (16 - (p.length + 5))) <<< 8) % 2 ^ 32,
        p.length + 5 - 8, st.pad_bits, Decoder.append ⟨b * 2 ^ (16 - (p.length + 5)),
          p.length + 5, st.pad_bits, st.out⟩⟩ := by
      simp only [Decoder.take, h.count, hJoin, if_pos hFull, if_neg hc]
    rw [hTake]
    refine ⟨_, waiting_rest hFull (by omega) rfl rfl, rfl, ?_⟩
    rw [bitsOf_append_byte hFull (by omega) rfl, List.append_assoc, ← bits_add,
      show 8 + (p.length + 5 - 8) = p.length + 5 by omega, hBits]
  · have hTake : st.take c d
        = ⟨b * 2 ^ (16 - (p.length + 5)), p.length + 5, st.pad_bits, st.out⟩ := by
      simp only [Decoder.take, h.count, hJoin, if_neg hFull, if_neg hc]
    have hLength : (p ++ bits 5 d).length = p.length + 5 := by simp
    rw [hTake]
    refine ⟨p ++ bits 5 d, ⟨hLength.symm, by omega, b, ?_, ?_⟩, rfl, rfl⟩
    · rw [hLength]
    · rw [hLength, hBits]

/-- The state after the digits' characters. -/
theorem decode_digits {ds : List Nat} (hLt : ∀ d ∈ ds, d < 2 ^ 5) {chars : Bytes}
    (hChars : List.Forall₂ (fun d c => c = upper d ∨ c = lower d) ds chars) (rest : Bytes)
    {p : List Bool} {st : Decoder} (h : Waiting p st) (hPad : st.pad_bits = 0) :
    ∃ q st', decode (chars ++ rest) st = decode rest st' ∧ Waiting q st' ∧ st'.pad_bits = 0 ∧
      bitsOf st'.out ++ q = bitsOf st.out ++ (p ++ spread 5 ds) := by
  induction hChars generalizing p st with
  | nil => exact ⟨p, st, rfl, h, hPad, by simp [spread]⟩
  | @cons d c ds chars hChar hChars ih =>
      have hd := hLt d List.mem_cons_self
      obtain ⟨hZero, hEq, hValue⟩ := value_of_digit hd hChar
      obtain ⟨q, hWaiting, hPad', hBits⟩ := h.take hd hEq
      obtain ⟨q', st', hRun, hWaiting', hPads, hBits'⟩ :=
        ih (fun x hx => hLt x (List.mem_cons_of_mem d hx)) hWaiting (hPad'.trans hPad)
      have hStep : decode (c :: chars ++ rest) st = decode (chars ++ rest) (st.take c d) := by
        simp [decode, hZero, hEq, hPad, hValue]
      refine ⟨q', st', hStep.trans hRun, hWaiting', hPads, ?_⟩
      rw [hBits', ← List.append_assoc, hBits, spread_cons]
      simp only [List.append_assoc]

/-! ## What the padding does -/

/-- Only zeros wait. -/
def Blank (st : Decoder) : Prop := st.data % 2 ^ 16 = 0

theorem blank_of_zeros {k : Nat} {st : Decoder} (h : Waiting (zeros k) st) : Blank st := by
  obtain ⟨a, hData, hHeld⟩ := h.held
  have hFew := h.few
  simp only [zeros, List.length_replicate] at hData hHeld hFew
  have hZero : a % 2 ^ k = 0 := by
    rw [← value_bits, hHeld]
    show value (zeros k) = 0
    rw [← bits_zero, value_bits, Nat.zero_mod]
  obtain ⟨b, rfl⟩ := Nat.dvd_of_mod_eq_zero hZero
  rw [Blank, hData, Nat.mul_right_comm, ← Nat.pow_add, show k + (16 - k) = 16 by omega]
  exact Nat.mul_mod_right _ _

theorem Blank.append {st : Decoder} (h : Blank st) : st.append = st.out ++ [0] := by
  have hMask : ∀ x, x &&& 255 = x % 2 ^ 8 := fun x => Nat.and_two_pow_sub_one_eq_mod x 8
  have hByte : st.data >>> 8 &&& 255 = 0 := by
    unfold Blank at h
    rw [hMask, Nat.shiftRight_eq_div_pow]
    omega
  rw [Decoder.append, hByte]
  rfl

variable {data k m : Nat} {out : Bytes}

theorem Blank.finish {st : Decoder} (h : Blank st) :
    st.finish = st.out ++ if st.data_bits = 0 then [] else [0] := by
  unfold Decoder.finish
  by_cases hBits : st.data_bits = 0
  · simp [hBits]
  · rw [if_pos (Nat.pos_of_ne_zero hBits), if_neg hBits, h.append]

/-- A padding character that isn't needed ends the text. -/
theorem decode_pad_stop (h : k ≤ m) (cs : Bytes) :
    decode (ch '=' :: cs) ⟨data, k, m, out⟩ = out := by
  rw [decode, if_neg (by decide), if_pos ⟨rfl, h⟩]

/-- The others are five zeros. -/
theorem decode_pad (h : m < k) (cs : Bytes) :
    decode (ch '=' :: cs) ⟨data, k, m, out⟩
      = decode cs (Decoder.take ⟨data, k, m, out⟩ (ch '=') 0) := by
  rw [decode, if_neg (by decide), if_neg (by simpa using h), if_neg (by simp)]
  rfl

theorem take_pad_few (h : k < 3) :
    Decoder.take ⟨data, k, m, out⟩ (ch '=') 0 = ⟨data, k + 5, m + 5, out⟩ := by
  have hFew : ¬ k + 5 ≥ 8 := by omega
  simp [Decoder.take, hFew]

theorem take_pad_byte (h : 3 ≤ k) (hBlank : data % 2 ^ 16 = 0) :
    Decoder.take ⟨data, k, m, out⟩ (ch '=') 0
      = ⟨(data <<< 8) % 2 ^ 32, k + 5 - 8, m + 5, out ++ [0]⟩ := by
  have hFull : k + 5 ≥ 8 := by omega
  have hByte : Decoder.append ⟨data, k + 5, m + 5, out⟩ = out ++ [0] := Blank.append hBlank
  simp only [Decoder.take, if_pos hFull, Nat.zero_and, Nat.zero_shiftLeft, Nat.or_zero, if_pos,
    hByte]

/-- The padding makes a byte of what waits. -/
theorem decode_padding (hBlank : data % 2 ^ 16 = 0)
    (h : k = 1 ∧ m = 3 ∨ k = 2 ∧ m = 6 ∨ k = 3 ∧ m = 1 ∨ k = 4 ∧ m = 4) :
    decode (List.replicate m (ch '=')) ⟨data, k, 0, out⟩ = out ++ [0] := by
  rcases h with ⟨rfl, rfl⟩ | ⟨rfl, rfl⟩ | ⟨rfl, rfl⟩ | ⟨rfl, rfl⟩
  · rw [List.replicate_succ, decode_pad (by omega), take_pad_few (by omega), List.replicate_succ,
      decode_pad (by omega), take_pad_byte (by omega) hBlank, List.replicate_succ,
      decode_pad_stop (by omega)]
  · rw [List.replicate_succ, decode_pad (by omega), take_pad_few (by omega), List.replicate_succ,
      decode_pad (by omega), take_pad_byte (by omega) hBlank, List.replicate_succ,
      decode_pad_stop (by omega)]
  · rw [List.replicate_succ, decode_pad (by omega), take_pad_byte (by omega) hBlank]
    simp [decode, Decoder.finish]
  · rw [List.replicate_succ, decode_pad (by omega), take_pad_byte (by omega) hBlank,
      List.replicate_succ, decode_pad_stop (by omega)]

/-! ## The round trip -/

/-- The bits that are left, and the padding that goes with them. -/
theorem fill_cases {s : Bytes} (h : ¬ s.length % 5 = 0) :
    let pads := (8 - (8 * s.length + 4) / 5 % 8) % 8
    fill 5 s = 1 ∧ pads = 3 ∨ fill 5 s = 2 ∧ pads = 6 ∨ fill 5 s = 3 ∧ pads = 1 ∨
      fill 5 s = 4 ∧ pads = 4 := by
  have hLength := Nat.div_add_mod s.length 5
  have hFill : fill 5 s = (8 * s.length + 4) / 5 * 5 - 8 * s.length := rfl
  have hCases : s.length % 5 = 1 ∨ s.length % 5 = 2 ∨ s.length % 5 = 3 ∨ s.length % 5 = 4 := by
    omega
  generalize s.length / 5 = q at hLength
  intro pads
  rcases hCases with hMod | hMod | hMod | hMod <;> rw [hMod] at hLength
  · have hChars : (8 * s.length + 4) / 5 = 8 * q + 2 := by omega
    have hPads : pads = 6 := by simp only [pads, hChars]; omega
    omega
  · have hChars : (8 * s.length + 4) / 5 = 8 * q + 4 := by omega
    have hPads : pads = 4 := by simp only [pads, hChars]; omega
    omega
  · have hChars : (8 * s.length + 4) / 5 = 8 * q + 5 := by omega
    have hPads : pads = 3 := by simp only [pads, hChars]; omega
    omega
  · have hChars : (8 * s.length + 4) / 5 = 8 * q + 7 := by omega
    have hPads : pads = 1 := by simp only [pads, hChars]; omega
    omega

/-- What is decoded from an encoding. -/
theorem base32_decode_spelling {s text : Bytes} (h : Spells s text) (out : Bytes) :
    base32_decode text out = out ++ s ++ if s.length % 5 = 0 then [] else [0] := by
  obtain ⟨chars, hText, hChars⟩ := h.spelled
  have hStart : Waiting [] ⟨0, 0, 0, out⟩ := ⟨rfl, by simp, 0, rfl, rfl⟩
  have hFill : fill 5 s = (8 * s.length + 4) / 5 * 5 - 8 * s.length := rfl
  have hCount : (digits 5 s).length = (8 * s.length + 4) / 5 := length_groups ..
  -- all but the fill has become bytes
  have hDigits := fun rest => decode_digits (fun d hd => digits_lt hd) hChars rest hStart rfl
  have hState : ∀ rest, ∃ data, data % 2 ^ 16 = 0 ∧
      decode (chars ++ rest) ⟨0, 0, 0, out⟩ = decode rest ⟨data, fill 5 s, 0, out ++ s⟩ := by
    intro rest
    obtain ⟨q, ⟨data, k, m, res⟩, hRun, hWaiting, hPad, hBits⟩ := hDigits rest
    have hSame : res = out ++ s ∧ q = zeros (fill 5 s) := by
      apply bytes_of_spread hWaiting.few
      · have hLt := fill_lt (w := 5) (by omega) s
        simp only [zeros, List.length_replicate]
        omega
      · rw [hBits, spread_digits (by omega), List.nil_append, bitsOf_append, List.append_assoc]
    obtain ⟨rfl, rfl⟩ := hSame
    obtain rfl : m = 0 := hPad
    obtain rfl : k = fill 5 s := hWaiting.count.trans (List.length_replicate ..)
    exact ⟨data, blank_of_zeros hWaiting, hRun⟩
  rcases hText with rfl | rfl
  · obtain ⟨data, hBlank, hRun⟩ := hState []
    rw [List.append_nil] at hRun
    have hFinish : Decoder.finish ⟨data, fill 5 s, 0, out ++ s⟩
        = out ++ s ++ if fill 5 s = 0 then [] else [0] := Blank.finish hBlank
    rw [base32_decode, hRun, decode, hFinish]
    congr 1
    by_cases hMod : s.length % 5 = 0
    · rw [if_pos hMod, if_pos (by show fill 5 s = 0; omega)]
    · rw [if_neg hMod, if_neg (by show ¬ fill 5 s = 0; omega)]
  · obtain ⟨data, hBlank, hRun⟩ := hState (padding s)
    rw [base32_decode, hRun, padding, hCount]
    by_cases hMod : s.length % 5 = 0
    · rw [if_pos hMod, show (8 - (8 * s.length + 4) / 5 % 8) % 8 = 0 by omega,
        show fill 5 s = 0 by omega]
      simp [decode, Decoder.finish]
    · rw [if_neg hMod]
      exact decode_padding hBlank (fill_cases hMod)

/-- Decoding undoes encoding for whole groups of five bytes, and for no other length. -/
theorem base32_decode_inverts_iff {s text : Bytes} (h : Spells s text) (out : Bytes) :
    base32_decode text out = out ++ s ↔ s.length % 5 = 0 := by
  rw [base32_decode_spelling h]
  by_cases hMod : s.length % 5 = 0
  · simp [hMod]
  · simp [hMod]

theorem spells_hello : Spells (bytes "hello") (bytes "nbSWY3dp") := by
  refine ⟨bytes "nbSWY3dp", Or.inl rfl, ?_⟩
  have hDigits : digits 5 (bytes "hello") = [13, 1, 18, 22, 24, 27, 3, 15] := by decide
  have hChars : bytes "nbSWY3dp" = [110, 98, 83, 87, 89, 51, 100, 112] := by decide
  rw [hDigits, hChars]
  simp only [List.forall₂_cons]
  decide

theorem base32_decode_inverts_hello : Spells (bytes "hello") (bytes "nbSWY3dp") ∧
    (base32_decode (bytes "nbSWY3dp") [] = [] ++ bytes "hello" ↔ (bytes "hello").length % 5 = 0) :=
  ⟨spells_hello, base32_decode_inverts_iff spells_hello []⟩

/-- The encoding `MY` of `f` becomes `f` and a zero byte. -/
theorem not_base32_decode_inverts :
    ¬ ∀ s text, Spells s text → base32_decode text [] = s := by
  intro h
  have hSpells : Spells (bytes "f") (bytes "MY") := by
    refine ⟨bytes "MY", Or.inl rfl, ?_⟩
    have hDigits : digits 5 (bytes "f") = [12, 24] := by decide
    have hChars : bytes "MY" = [77, 89] := by decide
    rw [hDigits, hChars]
    simp only [List.forall₂_cons]
    decide
  exact absurd (h _ _ hSpells) (by decide)

end Lftp.Ports.Base32
