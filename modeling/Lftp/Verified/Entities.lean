import Mathlib.Data.List.Find
import Mathlib.Data.List.Infix

/-!
# Entities

A table says which texts stand for a character. `decode` replaces them from left to right, and
what it has written is not read again.

* `decode_eq_self_iff`: a text without entities, and no other, stays as it is.
* `decode_barrier`: a character that is in no entity divides a text.
* `decode_encode`: what is written with entities is read back.
-/

namespace Lftp.Verified.Entities

variable {α : Type} [DecidableEq α] {table : List (List α × α)} {s : List α}

/-- The entity at the beginning of a text. -/
def entityAt (table : List (List α × α)) (s : List α) : Option (List α × α) :=
  table.find? fun e => e.1.isPrefixOf s

/-- The text behind the first `k` characters. -/
def decodeFrom (table : List (List α × α)) : Nat → List α → List α
  | _, [] => []
  | k + 1, _ :: s => decodeFrom table k s
  | 0, c :: s =>
    match entityAt table (c :: s) with
    | some e => e.2 :: decodeFrom table (e.1.length - 1) s
    | none => c :: decodeFrom table 0 s

def decode (table : List (List α × α)) (s : List α) : List α := decodeFrom table 0 s

/-- Every character that has an entity is written as one. -/
def encode (table : List (List α × α)) (s : List α) : List α :=
  s.flatMap fun c => ((table.find? fun e => e.2 = c).map Prod.fst).getD [c]

/-- All entities begin with `amp`, are longer than that, and none is at the beginning of another. -/
structure IsTable (table : List (List α × α)) (amp : α) : Prop where
  first : ∀ e ∈ table, e.1.head? = some amp
  long : ∀ e ∈ table, 2 ≤ e.1.length
  apart : ∀ e ∈ table, ∀ e' ∈ table, e.1 <+: e'.1 → e = e'
  self : ∃ e ∈ table, e.2 = amp

theorem entityAt_some {e : List α × α} (h : entityAt table s = some e) :
    e ∈ table ∧ ∃ rest, s = e.1 ++ rest := by
  unfold entityAt at h
  have hPrefix := List.find?_some h
  obtain ⟨rest, hRest⟩ := List.isPrefixOf_iff_prefix.mp hPrefix
  exact ⟨List.mem_of_find?_eq_some h, rest, hRest.symm⟩

theorem decodeFrom_drop (k : Nat) (s : List α) : decodeFrom table k s = decode table (s.drop k) := by
  induction s generalizing k with
  | nil => cases k <;> rfl
  | cons c s ih =>
      cases k with
      | zero => rfl
      | succ k => exact ih k

@[simp] theorem decode_nil : decode table [] = [] := rfl

theorem decode_plain {c : α} (h : entityAt table (c :: s) = none) :
    decode table (c :: s) = c :: decode table s := by
  rw [decode, decodeFrom, h]
  rfl

section
variable {amp : α} (hTable : IsTable table amp)
include hTable

theorem decode_entity {e : List α × α} {rest : List α} (h : entityAt table (e.1 ++ rest) = some e) :
    decode table (e.1 ++ rest) = e.2 :: decode table rest := by
  have hLong := hTable.long e (entityAt_some h).1
  obtain ⟨c, t, hText⟩ := List.exists_cons_of_length_pos (show 0 < e.1.length by omega)
  have hDrop : (t ++ rest).drop (e.1.length - 1) = rest := by
    rw [hText, List.length_cons, Nat.add_sub_cancel, List.drop_left]
  rw [hText, List.cons_append] at h
  rw [hText, List.cons_append, decode, decodeFrom, h]
  dsimp only
  rw [decodeFrom_drop, hDrop]

/-- No other entity begins where one is. -/
theorem entityAt_append {e : List α × α} (he : e ∈ table) (rest : List α) :
    entityAt table (e.1 ++ rest) = some e := by
  cases hFind : entityAt table (e.1 ++ rest) with
  | none =>
      have hNot := List.find?_eq_none.mp hFind e he
      exact absurd (List.isPrefixOf_iff_prefix.mpr (List.prefix_append _ _)) hNot
  | some e' =>
      obtain ⟨hMem, hPrefix⟩ := entityAt_some hFind
      obtain ⟨rest', hRest⟩ := hPrefix
      rcases List.append_eq_append_iff.mp hRest with ⟨t, ht, -⟩ | ⟨t, ht, -⟩
      · rw [hTable.apart e he e' hMem ⟨t, ht.symm⟩]
      · rw [hTable.apart e' hMem e he ⟨t, ht.symm⟩]

theorem entityAt_none {c : α} (hc : c ≠ amp) (s : List α) : entityAt table (c :: s) = none := by
  refine List.find?_eq_none.mpr fun e he hPrefix => hc ?_
  obtain ⟨rest, hRest⟩ := List.isPrefixOf_iff_prefix.mp hPrefix
  have hFirst := hTable.first e he
  obtain ⟨d, t, hText⟩ := List.exists_cons_of_length_pos
    (show 0 < e.1.length by have := hTable.long e he; omega)
  rw [hText] at hFirst hRest
  rw [← Option.some.inj hFirst]
  exact (List.cons.inj hRest).1.symm

/-- A text is read a character or an entity at a time. -/
theorem read_induction {P : List α → Prop} (nil : P [])
    (plain : ∀ c s, entityAt table (c :: s) = none → P s → P (c :: s))
    (entity : ∀ e rest, e ∈ table → entityAt table (e.1 ++ rest) = some e → P rest → P (e.1 ++ rest))
    (s : List α) : P s := by
  induction hn : s.length using Nat.strong_induction_on generalizing s with
  | _ n ih =>
      cases s with
      | nil => exact nil
      | cons c s =>
          cases hFind : entityAt table (c :: s) with
          | none => exact plain c s hFind (ih s.length (by rw [← hn]; exact Nat.lt_succ_self _) s rfl)
          | some e =>
              obtain ⟨hMem, rest, hText⟩ := entityAt_some hFind
              have hLong := hTable.long e hMem
              rw [hText] at hFind hn ⊢
              rw [List.length_append] at hn
              exact entity e rest hMem hFind (ih rest.length (by omega) rest rfl)

theorem length_decode_le (s : List α) : (decode table s).length ≤ s.length := by
  induction s using read_induction hTable with
  | nil => exact Nat.le_refl 0
  | plain c s hPlain ih =>
      rw [decode_plain hPlain]
      exact Nat.succ_le_succ ih
  | entity e rest he hFind ih =>
      have hLong := hTable.long e he
      rw [decode_entity hTable hFind, List.length_cons, List.length_append]
      omega

/-- Exactly the texts without entities stay as they are. -/
theorem decode_eq_self_iff (s : List α) : decode table s = s ↔ ∀ e ∈ table, ¬ e.1 <:+: s := by
  induction s using read_induction hTable with
  | nil =>
      refine iff_of_true rfl fun e he hInfix => ?_
      have hLong := hTable.long e he
      rw [List.infix_nil.mp hInfix] at hLong
      exact absurd hLong (by simp)
  | plain c s hPlain ih =>
      have hNot : ∀ e ∈ table, ¬ e.1 <+: c :: s := fun e he hPrefix =>
        List.find?_eq_none.mp hPlain e he (List.isPrefixOf_iff_prefix.mpr hPrefix)
      rw [decode_plain hPlain, List.cons_inj_right, ih]
      refine forall₂_congr fun e he => ?_
      rw [List.infix_cons_iff, or_iff_right (hNot e he)]
  | entity e rest he hFind ih =>
      have hLong := hTable.long e he
      have hRest := length_decode_le hTable rest
      refine iff_of_false (fun hEq => ?_) fun hNot => hNot e he (List.prefix_append _ _).isInfix
      have hLength := congrArg List.length hEq
      rw [decode_entity hTable hFind, List.length_cons, List.length_append] at hLength
      omega

theorem decode_plains {p : List α} (hp : amp ∉ p) (s : List α) :
    decode table (p ++ s) = p ++ decode table s := by
  induction p with
  | nil => rfl
  | cons c p ih =>
      obtain ⟨hc, hp⟩ := not_or.mp (List.mem_cons.not.mp hp)
      rw [List.cons_append, decode_plain (entityAt_none hTable (Ne.symm hc) _), ih hp, List.cons_append]

omit hTable in
/-- No entity goes over a character that is in none. -/
theorem entityAt_barrier {x : α} (hx : ∀ e ∈ table, x ∉ e.1) (u v : List α) :
    entityAt table (u ++ x :: v) = entityAt table u := by
  refine List.find?_congr fun e he => Bool.eq_iff_iff.mpr ?_
  rw [List.isPrefixOf_iff_prefix, List.isPrefixOf_iff_prefix]
  refine ⟨fun hPrefix => ?_, fun h => h.trans (List.prefix_append _ _)⟩
  obtain ⟨rest, hRest⟩ := hPrefix
  rcases List.append_eq_append_iff.mp hRest with ⟨t, ht, -⟩ | ⟨t, ht, hTail⟩
  · exact ⟨t, ht.symm⟩
  · cases t with
    | nil =>
        rw [List.append_nil] at ht
        exact ht ▸ List.prefix_refl _
    | cons y t =>
        refine absurd ?_ (hx e he)
        rw [ht, (List.cons.inj hTail).1]
        simp

theorem decode_barrier {x : α} (hx : ∀ e ∈ table, x ∉ e.1) (u v : List α) :
    decode table (u ++ x :: v) = decode table u ++ x :: decode table v := by
  induction u using read_induction hTable with
  | nil =>
      have hNone : entityAt table [] = none := List.find?_eq_none.mpr fun e he hPrefix => by
        have hLong := hTable.long e he
        rw [List.prefix_nil.mp (List.isPrefixOf_iff_prefix.mp hPrefix)] at hLong
        exact absurd hLong (by simp)
      exact decode_plain ((entityAt_barrier hx [] v).trans hNone)
  | plain c u hPlain ih =>
      have hHere : entityAt table (c :: (u ++ x :: v)) = none := (entityAt_barrier hx (c :: u) v).trans hPlain
      rw [List.cons_append, decode_plain hHere, ih, decode_plain hPlain]
      rfl
  | entity e rest he hFind ih =>
      have hHere : entityAt table (e.1 ++ (rest ++ x :: v)) = some e := entityAt_append hTable he _
      rw [List.append_assoc, decode_entity hTable hHere, ih, decode_entity hTable hFind]
      rfl

/-- What is written with entities is read back. -/
theorem decode_encode (s : List α) : decode table (encode table s) = s := by
  induction s with
  | nil => rfl
  | cons c s ih =>
      rw [encode, List.flatMap_cons, ← encode]
      cases hFind : table.find? fun e => e.2 = c with
      | none =>
          have hc : c ≠ amp := by
            rintro rfl
            obtain ⟨e, he, hSelf⟩ := hTable.self
            exact List.find?_eq_none.mp hFind e he (decide_eq_true hSelf)
          exact (decode_plain (entityAt_none hTable hc _)).trans (congrArg _ ih)
      | some e =>
          have hChar : e.2 = c := by simpa using List.find?_some hFind
          have he := entityAt_append hTable (List.mem_of_find?_eq_some hFind) (encode table s)
          exact (decode_entity hTable he).trans (by rw [ih, hChar])

end

end Lftp.Verified.Entities
