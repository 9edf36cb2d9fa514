import Mathlib.Data.List.Basic

/-!
# Allocated blocks

A block of memory is the list of its cells; its length is the capacity. A store
is checked: `store` fails when a cell outside the block would be written.

`Holds b off w` says that the cells from `off` on are `w`. The lemmas say how a
store, a larger block and a split of `w` act on it, so that a proof about a
buffer never indexes a cell.
-/

namespace Lftp.Verified.Block

variable {α : Type}

/-- Write `w` at `off`; `none` when it does not fit the block. -/
def store (b : List α) (off : Nat) (w : List α) : Option (List α) :=
  if w = [] ∨ off + w.length ≤ b.length then
    some (b.take off ++ w ++ b.drop (off + w.length))
  else none

/-- The cells of `b` from `off` on are `w`. -/
def Holds (b : List α) (off : Nat) (w : List α) : Prop :=
  ∀ k, k < w.length → b[off + k]? = w[k]?

theorem store_eq_none_iff {b : List α} {off : Nat} {w : List α} :
    store b off w = none ↔ w ≠ [] ∧ b.length < off + w.length := by
  unfold store
  by_cases h : w = [] ∨ off + w.length ≤ b.length
  · rw [if_pos h]
    refine iff_of_false (by simp) ?_
    rintro ⟨hne, hlt⟩
    rcases h with h | h
    · exact hne h
    · omega
  · rw [if_neg h]
    rw [not_or] at h
    exact iff_of_true rfl ⟨h.1, by omega⟩

theorem exists_store {b : List α} {off : Nat} {w : List α} (h : off + w.length ≤ b.length) :
    ∃ b', store b off w = some b' ∧ b'.length = b.length := by
  refine ⟨_, if_pos (.inr h), ?_⟩
  simp only [List.length_append, List.length_take, List.length_drop]
  omega

theorem getElem?_store {b b' : List α} {off : Nat} {w : List α}
    (hFit : off + w.length ≤ b.length) (h : store b off w = some b') (i : Nat) :
    b'[i]? = if off ≤ i ∧ i < off + w.length then w[i - off]? else b[i]? := by
  rw [store, if_pos (.inr hFit), Option.some.injEq] at h
  rw [← h]
  have hTake : (b.take off).length = off := by
    rw [List.length_take]
    omega
  by_cases hlt : i < off
  · rw [if_neg (by omega), List.append_assoc, List.getElem?_append_left (by omega),
      List.getElem?_take_of_lt hlt]
  by_cases hin : i < off + w.length
  · rw [if_pos ⟨by omega, hin⟩, List.append_assoc, List.getElem?_append_right (by omega),
      hTake, List.getElem?_append_left (by omega)]
  · rw [if_neg (by omega), List.getElem?_append_right (by rw [List.length_append]; omega),
      List.getElem?_drop, List.length_append, hTake]
    congr 1
    omega

/-- A part of the block is replaced by a text of its length. -/
theorem store_append {a w x : List α} (b : List α) (h : w.length = x.length) :
    store (a ++ (x ++ b)) a.length w = some (a ++ (w ++ b)) := by
  have hFit : a.length + w.length ≤ (a ++ (x ++ b)).length := by
    rw [List.length_append, List.length_append]
    omega
  rw [store, if_pos (.inr hFit), List.take_left, h, ← List.drop_drop, List.drop_left,
    List.drop_left, List.append_assoc]

theorem Holds.store_self {b b' : List α} {off : Nat} {w : List α}
    (hFit : off + w.length ≤ b.length) (h : store b off w = some b') : Holds b' off w := by
  intro k hk
  rw [getElem?_store hFit h, if_pos ⟨by omega, by omega⟩]
  congr 1
  omega

/-- A store leaves what it does not overlap. -/
theorem Holds.store {b b' : List α} {off off' : Nat} {v w : List α} (hv : Holds b off' v)
    (hFit : off + w.length ≤ b.length) (h : store b off w = some b')
    (hApart : off' + v.length ≤ off ∨ off + w.length ≤ off') : Holds b' off' v := by
  intro k hk
  rw [getElem?_store hFit h, if_neg (by omega), hv k hk]

theorem Holds.nil (b : List α) (off : Nat) : Holds b off [] := by
  intro k hk
  simp at hk

theorem holds_append {b : List α} {off : Nat} {v w : List α} :
    Holds b off (v ++ w) ↔ Holds b off v ∧ Holds b (off + v.length) w := by
  constructor
  · intro h
    refine ⟨fun k hk => ?_, fun k hk => ?_⟩
    · rw [h k (by rw [List.length_append]; omega), List.getElem?_append_left hk]
    · have hcell := h (v.length + k) (by rw [List.length_append]; omega)
      rw [List.getElem?_append_right (by omega), Nat.add_sub_cancel_left] at hcell
      rw [← hcell, Nat.add_assoc]
  · rintro ⟨hv, hw⟩ k hk
    by_cases hlt : k < v.length
    · rw [hv k hlt, List.getElem?_append_left hlt]
    · rw [List.getElem?_append_right (by omega)]
      rw [List.length_append] at hk
      have hcell := hw (k - v.length) (by omega)
      rw [← hcell]
      congr 1
      omega

/-- Reallocation keeps the cells. -/
theorem Holds.grow {b : List α} {off : Nat} {w : List α} (h : Holds b off w)
    (hFit : off + w.length ≤ b.length) (more : List α) : Holds (b ++ more) off w := by
  intro k hk
  rw [List.getElem?_append_left (by omega), h k hk]

/-- Reading the cells back. -/
theorem Holds.read {b : List α} {off : Nat} {w : List α} (h : Holds b off w)
    {n : Nat} (hn : n = w.length) :
    (b.drop off).take n = w := by
  subst hn
  refine List.ext_getElem? fun k => ?_
  by_cases hk : k < w.length
  · rw [List.getElem?_take_of_lt hk, List.getElem?_drop, h k hk]
  · rw [List.getElem?_eq_none (by rw [List.length_take]; omega),
      List.getElem?_eq_none (by omega)]

end Lftp.Verified.Block
