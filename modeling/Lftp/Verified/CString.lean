import Lftp.Verified.Block
import Lftp.Verified.Segments
import Lftp.Verified.Tokens
import Mathlib.Data.List.TakeWhile

/-!
# C strings in a block

A pointer is an index into a block of bytes. What the C library reads at a pointer goes on
to the next NUL, and there is a fault where the block ends before it. `strtokAt` cuts a
token off in place.

* `cstrAt_append`: the string behind any part of the block.
* `strtokAt_none`, `strtokAt_delim`, `strtokAt_end`: the three ways to look for a token, and
  `strtokAt_skip` for a delimiter in front of it.
-/

namespace Lftp.Verified

open Block

/-- The string at `p`. -/
def cstrAt (mem : Bytes) (p : Nat) : Option Bytes :=
  if 0 ∈ mem.drop p then some (cstr (mem.drop p)) else none

theorem cstrAt_append {s : Bytes} (h : 0 ∉ s) (a b : Bytes) :
    cstrAt (a ++ (s ++ 0 :: b)) a.length = some s := by
  unfold cstrAt
  rw [List.drop_left, if_pos (by simp), cstr_append_of_notMem h]
  have hNul : cstr (0 :: b) = [] := rfl
  rw [hNul, List.append_nil]

/-- A token: where it is, its length, the block with a NUL behind it, and where the next
search begins; there is none when the token was the last one. -/
structure Token where
  place : Nat
  length : Nat
  mem : Bytes
  save : Option Nat

/-- `strtok` at `p`; `none` is a fault, `some none` the null pointer. -/
def strtokAt (delims mem : Bytes) (p : Nat) : Option (Option Token) := do
  let s ← cstrAt mem p
  let skip := (s.takeWhile delims.contains).length
  let rest := s.dropWhile delims.contains
  let length := (rest.takeWhile fun c => !delims.contains c).length
  if rest = [] then some none
  else if length = rest.length then some (some ⟨p + skip, length, mem, none⟩)
  else
    (store mem (p + skip + length) [0]).map fun mem =>
      some ⟨p + skip, length, mem, some (p + skip + length + 1)⟩

section
variable {delims seps word : Bytes}

theorem dropWhile_seps (hSeps : ∀ c ∈ seps, delims.contains c = true)
    (hWord : ∀ c ∈ word, delims.contains c = false) (hNe : word ≠ []) (rest : Bytes) :
    (seps ++ (word ++ rest)).takeWhile delims.contains = seps ∧
      (seps ++ (word ++ rest)).dropWhile delims.contains = word ++ rest := by
  obtain ⟨c, word, rfl⟩ := List.exists_cons_of_ne_nil hNe
  have hStop := hWord c List.mem_cons_self
  rw [List.takeWhile_append_of_pos hSeps, List.dropWhile_append_of_pos hSeps, List.cons_append,
    List.takeWhile_cons_of_neg (by rw [hStop]; nofun),
    List.dropWhile_cons_of_neg (by rw [hStop]; nofun), List.append_nil]
  exact ⟨rfl, rfl⟩

/-- A delimiter in front does not matter. -/
theorem strtokAt_skip {d : UInt8} (hDelim : delims.contains d = true)
    (hNul : delims.contains 0 = false) (a b : Bytes) :
    strtokAt delims (a ++ d :: b) a.length = strtokAt delims (a ++ d :: b) (a.length + 1) := by
  have hNe : d ≠ 0 := by
    rintro rfl
    rw [hDelim] at hNul
    cases hNul
  have hHere : (a ++ d :: b).drop a.length = d :: b := List.drop_left
  have hNext : (a ++ d :: b).drop (a.length + 1) = b := by
    rw [← List.drop_drop, hHere]
    rfl
  unfold strtokAt cstrAt
  rw [hHere, hNext, cstr_cons hNe]
  have hMem : 0 ∈ d :: b ↔ 0 ∈ b := by simp [hNe.symm]
  by_cases h : 0 ∈ b
  · rw [if_pos (hMem.mpr h), if_pos h, Option.bind_eq_bind, Option.bind_some, Option.bind_some]
    have hPlace : a.length + (((cstr b).takeWhile delims.contains).length + 1)
        = a.length + 1 + ((cstr b).takeWhile delims.contains).length := by omega
    dsimp only
    rw [List.takeWhile_cons_of_pos hDelim, List.dropWhile_cons_of_pos hDelim, List.length_cons, hPlace]
  · simp only [if_neg (hMem.not.mpr h), if_neg h, Option.bind_eq_bind, Option.bind_none]

/-- Nothing but delimiters is left. -/
theorem strtokAt_none (hNul : delims.contains 0 = false)
    (hSeps : ∀ c ∈ seps, delims.contains c = true) (a b : Bytes) :
    strtokAt delims (a ++ (seps ++ 0 :: b)) a.length = some none := by
  have hZero : 0 ∉ seps := by
    intro h
    rw [hSeps 0 h] at hNul
    cases hNul
  have hDrop : seps.dropWhile delims.contains = [] := List.dropWhile_eq_nil_iff.mpr hSeps
  unfold strtokAt
  simp only [cstrAt_append hZero, Option.bind_eq_bind, Option.bind_some, hDrop, if_true]

/-- A token that goes on to the end of the string. -/
theorem strtokAt_end (hSeps : ∀ c ∈ seps, delims.contains c = true)
    (hWord : ∀ c ∈ word, delims.contains c = false) (hNe : word ≠ []) (hZero : 0 ∉ seps ++ word)
    (a b : Bytes) : strtokAt delims (a ++ (seps ++ (word ++ 0 :: b))) a.length
      = some (some ⟨a.length + seps.length, word.length, a ++ (seps ++ (word ++ 0 :: b)), none⟩) := by
  have hString := cstrAt_append hZero a b
  rw [List.append_assoc] at hString
  obtain ⟨hTake, hDrop⟩ := dropWhile_seps hSeps hWord hNe []
  rw [List.append_nil] at hTake hDrop
  have hAll : word.takeWhile (fun c => !delims.contains c) = word :=
    List.takeWhile_eq_self_iff.mpr fun c hc => by rw [hWord c hc]; rfl
  unfold strtokAt
  simp only [hString, Option.bind_eq_bind, Option.bind_some, hTake, hDrop, hAll, if_neg hNe, if_true]

/-- A token with a delimiter behind it. -/
theorem strtokAt_delim {d : UInt8} {rest : Bytes} (hSeps : ∀ c ∈ seps, delims.contains c = true)
    (hWord : ∀ c ∈ word, delims.contains c = false) (hNe : word ≠ [])
    (hDelim : delims.contains d = true) (hZero : 0 ∉ seps ++ (word ++ d :: rest)) (a b : Bytes) :
    strtokAt delims (a ++ (seps ++ (word ++ d :: (rest ++ 0 :: b)))) a.length
      = some (some ⟨a.length + seps.length, word.length,
          a ++ (seps ++ (word ++ 0 :: (rest ++ 0 :: b))),
          some (a.length + seps.length + word.length + 1)⟩) := by
  have hString := cstrAt_append hZero a b
  have hText : seps ++ (word ++ d :: rest) ++ 0 :: b = seps ++ (word ++ d :: (rest ++ 0 :: b)) := by
    simp only [List.append_assoc, List.cons_append]
  rw [hText] at hString
  obtain ⟨hTake, hDrop⟩ := dropWhile_seps hSeps hWord hNe (d :: rest)
  have hAll : (word ++ d :: rest).takeWhile (fun c => !delims.contains c) = word := by
    rw [List.takeWhile_append_of_pos (fun c hc => by rw [hWord c hc]; rfl),
      List.takeWhile_cons_of_neg (by rw [hDelim]; nofun), List.append_nil]
  have hLength : ¬ word.length = (word ++ d :: rest).length := by
    rw [List.length_append, List.length_cons]
    omega
  have hNil : ¬ word ++ d :: rest = [] := fun h => hNe (List.append_eq_nil_iff.mp h).1
  have hStore : store (a ++ (seps ++ (word ++ d :: (rest ++ 0 :: b))))
      (a.length + seps.length + word.length) [0]
      = some (a ++ (seps ++ (word ++ 0 :: (rest ++ 0 :: b)))) := by
    have hCell := store_append (a := a ++ (seps ++ word)) (w := [0]) (x := [d]) (rest ++ 0 :: b) rfl
    simpa only [List.length_append, List.append_assoc, List.singleton_append, Nat.add_assoc]
      using hCell
  unfold strtokAt
  simp only [hString, Option.bind_eq_bind, Option.bind_some, hTake, hDrop, hAll, if_neg hNil,
    if_neg hLength, hStore, Option.map_some]

end

end Lftp.Verified
