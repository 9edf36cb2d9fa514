import Lftp.Verified.Scan
import Mathlib.Data.List.Infix

/-!
# Tokens of a C string

`strtok` cuts the next token off a text, `tokens` are all that it finds at one
separator, and `cut` splits a text at the first occurrence of another one, as
`strstr` does.

* `strtok_append`: a word without delimiters is cut off again.
* `strtok_skip`: delimiters in front of it do not matter.
* `length_strtok`: what is left is shorter.
* `tokens_joined`: tokens put together with separators are found again.
* `cut_append`: a text is split where the pattern was put.
-/

namespace Lftp.Verified

/-! ## One token -/

/-- The next token and what follows the delimiter behind it. -/
def strtok (delims s : Bytes) : Option (Bytes × Bytes) :=
  let s := s.dropWhile delims.contains
  if s = [] then none
  else some (s.takeWhile fun c => !delims.contains c,
    (s.dropWhile fun c => !delims.contains c).drop 1)

/-- `strtok` without delimiters. -/
def strtokRest (s : Bytes) : Option Bytes := if s = [] then none else some s

theorem strtok_append {delims word : Bytes} {d : UInt8} (hNe : word ≠ [])
    (hWord : ∀ c ∈ word, delims.contains c = false) (hDelim : delims.contains d = true)
    (s : Bytes) : strtok delims (word ++ d :: s) = some (word, s) := by
  have hHead : (word ++ d :: s).dropWhile delims.contains = word ++ d :: s := by
    cases word with
    | nil => exact absurd rfl hNe
    | cons c word =>
        exact List.dropWhile_cons_of_neg (by rw [hWord c List.mem_cons_self]; nofun)
  have hAll : ∀ c ∈ word, (!delims.contains c) = true := by
    intro c hc
    rw [hWord c hc]
    rfl
  have hStop : (!delims.contains d) = false := by
    rw [hDelim]
    rfl
  unfold strtok
  rw [hHead, if_neg (by simp), List.takeWhile_append_of_pos hAll, List.dropWhile_append_of_pos hAll,
    List.takeWhile_cons_of_neg (by rw [hStop]; nofun),
    List.dropWhile_cons_of_neg (by rw [hStop]; nofun), List.append_nil, List.drop_one,
    List.tail_cons]

/-- Delimiters in front of a token are skipped. -/
theorem strtok_skip {delims pad : Bytes} (h : ∀ c ∈ pad, delims.contains c = true) (s : Bytes) :
    strtok delims (pad ++ s) = strtok delims s := by
  unfold strtok
  rw [List.dropWhile_append_of_pos h]

theorem strtok_word {delims pad word : Bytes} {d : UInt8}
    (hPad : ∀ c ∈ pad, delims.contains c = true) (hNe : word ≠ [])
    (hWord : ∀ c ∈ word, delims.contains c = false) (hDelim : delims.contains d = true)
    (rest : Bytes) : strtok delims (pad ++ (word ++ d :: rest)) = some (word, rest) := by
  rw [strtok_skip hPad]
  exact strtok_append hNe hWord hDelim rest

/-- A token takes at least one byte. -/
theorem length_strtok {delims s t rest : Bytes} (h : strtok delims s = some (t, rest)) :
    rest.length < s.length := by
  unfold strtok at h
  dsimp only at h
  split at h
  · cases h
  · rename_i hNe
    obtain ⟨-, rfl⟩ := Prod.mk.inj (Option.some.inj h)
    have hSkip := (List.dropWhile_suffix delims.contains (l := s)).length_le
    have hPos := List.length_pos_of_ne_nil hNe
    generalize hLeft : s.dropWhile delims.contains = left at hSkip hPos ⊢
    cases left with
    | nil => exact absurd hPos (Nat.lt_irrefl 0)
    | cons c left =>
        have hStart : delims.contains c = false := by
          have hNot := List.head?_dropWhile_not delims.contains s
          rwa [hLeft] at hNot
        rw [List.dropWhile_cons_of_pos (by rw [hStart]; rfl), List.length_drop]
        have hRest := (List.dropWhile_suffix (fun c => !delims.contains c) (l := left)).length_le
        rw [List.length_cons] at hSkip
        omega

theorem strtokRest_eq {s rest : Bytes} (h : strtokRest s = some rest) : rest = s := by
  unfold strtokRest at h
  split at h
  · cases h
  · exact (Option.some.inj h).symm

/-! ## All tokens -/

/-- All tokens between separators. -/
def tokens (sep : UInt8) (s : Bytes) : List Bytes := (s.splitOn sep).filter (· ≠ [])

theorem tokens_joined {sep : UInt8} {words : List Bytes}
    (hWords : ∀ w ∈ words, w ≠ [] ∧ sep ∉ w) :
    tokens sep ([sep].intercalate words) = words := by
  unfold tokens
  by_cases hNil : words = []
  · rw [hNil]
    rfl
  · rw [List.splitOn_intercalate sep (fun w hw => (hWords w hw).2) hNil, List.filter_eq_self]
    exact fun w hw => decide_eq_true (hWords w hw).1

/-! ## The first occurrence -/

/-- What is before the first occurrence of the pattern and what is after it. -/
def cut (pattern : Bytes) : Bytes → Option (Bytes × Bytes)
  | [] => if pattern = [] then some ([], []) else none
  | c :: s =>
    if pattern.isPrefixOf (c :: s) then some ([], (c :: s).drop pattern.length)
    else (cut pattern s).map fun (a, b) => (c :: a, b)

/-- No occurrence of the pattern starts in `s` when `t` follows it. -/
def CutFree (pattern s t : Bytes) : Prop :=
  ∀ a b, a ++ b = s → b ≠ [] → pattern.isPrefixOf (b ++ t) = false

theorem cut_append {pattern s t : Bytes} (hNe : pattern ≠ [])
    (h : CutFree pattern s (pattern ++ t)) : cut pattern (s ++ (pattern ++ t)) = some (s, t) := by
  induction s with
  | nil =>
      have hPrefix : pattern.isPrefixOf (pattern ++ t) = true :=
        List.isPrefixOf_iff_prefix.mpr (List.prefix_append pattern t)
      rw [List.nil_append]
      cases hText : pattern ++ t with
      | nil => exact absurd (List.append_eq_nil_iff.mp hText).1 hNe
      | cons c text =>
          rw [cut, if_pos (hText ▸ hPrefix), ← hText, List.drop_left]
  | cons c s ih =>
      have hHere := h [] (c :: s) rfl (List.cons_ne_nil c s)
      have hRest : CutFree pattern s (pattern ++ t) := by
        intro a b hSplit hb
        exact h (c :: a) b (by rw [List.cons_append, hSplit]) hb
      rw [List.cons_append] at hHere
      rw [List.cons_append, cut, if_neg (by rw [hHere]; nofun), ih hRest]
      rfl

/-! ## Numbers with a width -/

/-- `%2d` and its kin. -/
def scanWidth (width : Nat) (s : Bytes) : Option (Int × Bytes) :=
  let s := skipSpace s
  let (neg, d) := scanSign (s.take width)
  let digits := d.takeWhile isDigit
  if digits = [] then none
  else
    let n : Int := horner 0 digits
    some (if neg then -n else n, s.drop ((s.take width).length - d.length + digits.length))

example : scanWidth 2 (bytes " 123") = some (12, bytes "3") := by decide

end Lftp.Verified
