import Mathlib.Data.List.TakeWhile
import Lftp.Verified.Decimal

/-!
# Percent encoding

The encoding `%XX` of the bytes that a predicate `quote` selects, and the
decoder, which leaves a `%` alone when no two hexadecimal digits follow.

* `percentDecode_encode`: decoding undoes encoding, when `%` itself is quoted.
* `mem_encode_iff` and `head?_encode` say which delimiters an encoded text has.
* `splitLast` is `strrchr`, the way to a delimiter from the right.
-/

namespace Lftp.Verified

/-- One digit of `%02X`. -/
def upperHex (n : Nat) : UInt8 := UInt8.ofNat (if n < 10 then 48 + n else 55 + n)

/-- `c_isxdigit`. -/
def isXDigit (c : UInt8) : Bool :=
  isDigit c || (65 ≤ c.toNat && c.toNat ≤ 70) || (97 ≤ c.toNat && c.toNat ≤ 102)

/-- The value of a digit that `%x` reads. -/
def hexVal (c : UInt8) : Nat :=
  if isDigit c then c.toNat - 48 else if c.toNat ≤ 70 then c.toNat - 55 else c.toNat - 87

/-- `%XX`. -/
def percentByte (c : UInt8) : Bytes := [ch '%', upperHex (c.toNat / 16), upperHex (c.toNat % 16)]

def percentEncode (quote : UInt8 → Bool) (s : Bytes) : Bytes :=
  s.flatMap fun c => if quote c then percentByte c else [c]

def percentDecode : Bytes → Bytes
  | [] => []
  | [a] => [a]
  | [a, b] => [a, b]
  | a :: b :: c :: s =>
    if a = ch '%' && isXDigit b && isXDigit c then
      UInt8.ofNat (16 * hexVal b + hexVal c) :: percentDecode s
    else a :: percentDecode (b :: c :: s)

/-! ## Digits -/

theorem isXDigit_upperHex : ∀ n < 16, isXDigit (upperHex n) = true := by decide

theorem hexVal_upperHex : ∀ n < 16, hexVal (upperHex n) = n := by decide

theorem percentDecode_percentByte (c : UInt8) (s : Bytes) :
    percentDecode (percentByte c ++ s) = c :: percentDecode s := by
  have hc := c.toNat_lt
  have hHigh : c.toNat / 16 < 16 := by omega
  have hLow : c.toNat % 16 < 16 := by omega
  have hValue : 16 * (c.toNat / 16) + c.toNat % 16 = c.toNat := by omega
  show percentDecode (ch '%' :: upperHex (c.toNat / 16) :: upperHex (c.toNat % 16) :: s) = _
  rw [percentDecode, isXDigit_upperHex _ hHigh, isXDigit_upperHex _ hLow, hexVal_upperHex _ hHigh,
    hexVal_upperHex _ hLow, hValue, UInt8.ofNat_toNat]
  rfl

theorem percentDecode_cons {c : UInt8} (h : c ≠ ch '%') (s : Bytes) :
    percentDecode (c :: s) = c :: percentDecode s := by
  rcases s with _ | ⟨a, _ | ⟨b, s⟩⟩
  · rfl
  · rfl
  · rw [percentDecode, decide_eq_false h]
    rfl

/-- A byte that starts no `%XX` is kept. -/
theorem percentDecode_cons_of {c : UInt8} {s : Bytes}
    (h : ∀ x y t, s = x :: y :: t → ¬ (c = ch '%' ∧ isXDigit x ∧ isXDigit y)) :
    percentDecode (c :: s) = c :: percentDecode s := by
  rcases s with _ | ⟨x, _ | ⟨y, s⟩⟩
  · rfl
  · rfl
  · have hNot := h x y s rfl
    rw [percentDecode, if_neg (by simpa [and_assoc] using hNot)]

theorem percentDecode_of_notMem {s : Bytes} (h : ch '%' ∉ s) : percentDecode s = s := by
  induction s with
  | nil => rfl
  | cons c s ih =>
      rw [List.mem_cons, not_or] at h
      rw [percentDecode_cons (Ne.symm h.1), ih h.2]

/-! ## Encoded text -/

variable {quote : UInt8 → Bool}

theorem percentEncode_cons (c : UInt8) (s : Bytes) :
    percentEncode quote (c :: s)
      = (if quote c then percentByte c else [c]) ++ percentEncode quote s := rfl

theorem percentEncode_append (s t : Bytes) :
    percentEncode quote (s ++ t) = percentEncode quote s ++ percentEncode quote t :=
  List.flatMap_append

theorem percentEncode_cons_of_not {c : UInt8} (h : quote c = false) (s : Bytes) :
    percentEncode quote (c :: s) = c :: percentEncode quote s := by
  rw [percentEncode_cons, h]
  rfl

theorem percentEncode_eq_self {s : Bytes} (h : ∀ c ∈ s, quote c = false) :
    percentEncode quote s = s := by
  induction s with
  | nil => rfl
  | cons c s ih =>
      rw [percentEncode_cons_of_not (h c List.mem_cons_self),
        ih fun x hx => h x (List.mem_cons_of_mem c hx)]

/-- Decoding undoes encoding, also in front of other text. -/
theorem percentDecode_encode_append (hPercent : quote (ch '%') = true) (s t : Bytes) :
    percentDecode (percentEncode quote s ++ t) = s ++ percentDecode t := by
  induction s with
  | nil => rfl
  | cons c s ih =>
      rw [percentEncode_cons, List.append_assoc]
      cases hc : quote c with
      | true =>
          rw [if_pos rfl, percentDecode_percentByte, ih]
          rfl
      | false =>
          have hne : c ≠ ch '%' := by
            rintro rfl
            rw [hPercent] at hc
            cases hc
          rw [if_neg Bool.false_ne_true, List.singleton_append, percentDecode_cons hne, ih]
          rfl

theorem percentDecode_encode (hPercent : quote (ch '%') = true) (s : Bytes) :
    percentDecode (percentEncode quote s) = s := by
  have h := percentDecode_encode_append hPercent s []
  rw [List.append_nil] at h
  rw [h]
  exact List.append_nil s

/-- A byte that no escape contains. -/
def Delimiter (d : UInt8) : Prop := d ≠ ch '%' ∧ isXDigit d = false

instance (d : UInt8) : Decidable (Delimiter d) := inferInstanceAs (Decidable (_ ∧ _))

theorem Delimiter.notMem_percentByte {d : UInt8} (h : Delimiter d) (c : UInt8) :
    d ∉ percentByte c := by
  have hc := c.toNat_lt
  have hDigit : ∀ n < 16, d ≠ upperHex n := by
    rintro n hn rfl
    rw [Delimiter, isXDigit_upperHex n hn] at h
    exact Bool.true_eq_false.mp h.2
  unfold percentByte
  rw [List.mem_cons, List.mem_cons, List.mem_singleton, not_or, not_or]
  exact ⟨h.1, hDigit _ (by omega), hDigit _ (by omega)⟩

/-- The delimiters of an encoded text are the unquoted ones of the text. -/
theorem mem_encode_iff {d : UInt8} (hd : Delimiter d) (s : Bytes) :
    d ∈ percentEncode quote s ↔ d ∈ s ∧ quote d = false := by
  unfold percentEncode
  rw [List.mem_flatMap]
  constructor
  · rintro ⟨c, hc, h⟩
    cases hQuote : quote c with
    | true =>
        rw [hQuote, if_pos rfl] at h
        exact absurd h (hd.notMem_percentByte c)
    | false =>
        rw [hQuote, if_neg Bool.false_ne_true, List.mem_singleton] at h
        rw [h]
        exact ⟨hc, hQuote⟩
  · rintro ⟨hMem, hQuote⟩
    exact ⟨d, hMem, by rw [hQuote]; exact List.mem_cons_self⟩

theorem notMem_encode {d : UInt8} (hd : Delimiter d) (hQuote : quote d = true) (s : Bytes) :
    d ∉ percentEncode quote s := by
  rw [mem_encode_iff hd, hQuote]
  exact fun h => nomatch h.2

/-- An encoded text starts with an unquoted byte when the text does. -/
theorem head?_encode {d : UInt8} (hPercent : d ≠ ch '%') (hQuote : quote d = false) (s : Bytes) :
    (percentEncode quote s).head? = some d ↔ s.head? = some d := by
  cases s with
  | nil => rfl
  | cons c s =>
      rw [percentEncode_cons]
      cases hc : quote c with
      | true =>
          have hne : c ≠ d := by
            rintro rfl
            rw [hQuote] at hc
            cases hc
          refine iff_of_false ?_ ?_
          · exact fun h => hPercent (Option.some.inj h).symm
          · exact fun h => hne (Option.some.inj h)
      | false => rfl

theorem percentEncode_eq_nil {s : Bytes} : percentEncode quote s = [] ↔ s = [] := by
  cases s with
  | nil => exact iff_of_true rfl rfl
  | cons c s =>
      refine iff_of_false ?_ (List.cons_ne_nil c s)
      rw [percentEncode_cons]
      cases quote c <;> exact List.cons_ne_nil _ _

/-! ## Splitting -/

/-- The text before and after the last `d`. -/
def splitLast (d : UInt8) : Bytes → Option (Bytes × Bytes)
  | [] => none
  | c :: s =>
    match splitLast d s with
    | some (a, b) => some (c :: a, b)
    | none => if c = d then some ([], s) else none

theorem splitLast_of_notMem {d : UInt8} {s : Bytes} (h : d ∉ s) : splitLast d s = none := by
  induction s with
  | nil => rfl
  | cons c s ih =>
      rw [List.mem_cons, not_or] at h
      rw [splitLast, ih h.2]
      exact if_neg (Ne.symm h.1)

theorem splitLast_append {d : UInt8} (a : Bytes) {b : Bytes} (h : d ∉ b) :
    splitLast d (a ++ d :: b) = some (a, b) := by
  induction a with
  | nil =>
      rw [List.nil_append, splitLast, splitLast_of_notMem h]
      exact if_pos rfl
  | cons c a ih => rw [List.cons_append, splitLast, ih]

/-- A text with a delimiter, split at the last one. -/
theorem exists_last {d : UInt8} {s : Bytes} (h : d ∈ s) : ∃ a b, s = a ++ d :: b ∧ d ∉ b := by
  induction s with
  | nil => cases h
  | cons c s ih =>
      by_cases hs : d ∈ s
      · obtain ⟨a, b, rfl, hb⟩ := ih hs
        exact ⟨c :: a, b, rfl, hb⟩
      · rcases List.mem_cons.mp h with rfl | h
        · exact ⟨[], s, rfl, hs⟩
        · exact absurd h hs

theorem takeWhile_append_cons {d : UInt8} {a : Bytes} (h : d ∉ a) (b : Bytes) :
    (a ++ d :: b).takeWhile (· ≠ d) = a := by
  rw [List.takeWhile_append_of_pos fun c hc => by simpa using fun he : c = d => h (he ▸ hc)]
  simp

theorem dropWhile_append_cons {d : UInt8} {a : Bytes} (h : d ∉ a) (b : Bytes) :
    (a ++ d :: b).dropWhile (· ≠ d) = d :: b := by
  rw [List.dropWhile_append_of_pos fun c hc => by simpa using fun he : c = d => h (he ▸ hc)]
  simp

theorem takeWhile_of_notMem {d : UInt8} {s : Bytes} (h : d ∉ s) : s.takeWhile (· ≠ d) = s :=
  List.takeWhile_eq_self_iff.mpr fun c hc => by simpa using fun he : c = d => h (he ▸ hc)

theorem dropWhile_of_notMem {d : UInt8} {s : Bytes} (h : d ∉ s) : s.dropWhile (· ≠ d) = [] :=
  List.dropWhile_eq_nil_iff.mpr fun c hc => by simpa using fun he : c = d => h (he ▸ hc)

end Lftp.Verified
