import Mathlib.Order.Lattice
import Mathlib.Order.Basic
import Mathlib.Order.Defs.LinearOrder

/-!
# Binary heaps in an array

An array with positions from 1 on is read as a tree: the parent of `i` is `i / 2`.
`HeapOrdered a n` says that none of the first `n` keys is below its parent's.

A heap is repaired by exchanging a key with a neighbour until nothing is out of
order. `UpHole` and `DownHole` are the two invariants of that, with at most the
edges at one position out of order.

* `UpHole.exchange`, `UpHole.ordered`: a turn towards the root, and the end.
* `DownHole.exchange`, `DownHole.upHole`: a turn towards the leaves, and the end.
* `HeapOrdered.root_le`: the first key is the least.
-/

namespace Lftp.Verified

variable {κ : Type} {a b : Nat → κ} {n i j c : Nat}

/-- The two positions exchange what they hold. -/
def exchange (a : Nat → κ) (i j : Nat) (k : Nat) : κ :=
  if k = i then a j else if k = j then a i else a k

@[simp] theorem exchange_left (a : Nat → κ) (i j : Nat) : exchange a i j i = a j := if_pos rfl

@[simp] theorem exchange_right (a : Nat → κ) (i j : Nat) : exchange a i j j = a i := by
  unfold exchange
  split
  · next h => rw [h]
  · exact if_pos rfl

theorem exchange_of_ne {k : Nat} (hi : k ≠ i) (hj : k ≠ j) : exchange a i j k = a k := by
  rw [exchange, if_neg hi, if_neg hj]

theorem map_exchange {β : Type} (f : κ → β) (a : Nat → κ) (i j k : Nat) :
    f (exchange a i j k) = exchange (fun k => f (a k)) i j k := by
  unfold exchange
  split_ifs <;> rfl

variable [LinearOrder κ]

/-- None of the first `n` keys is below its parent's. -/
def HeapOrdered (a : Nat → κ) (n : Nat) : Prop := ∀ j, 2 ≤ j → j ≤ n → a (j / 2) ≤ a j

/-- All is in order but the edge above `i`, and below `i` it would be without `i`. -/
structure UpHole (a : Nat → κ) (n i : Nat) : Prop where
  except : ∀ j, 2 ≤ j → j ≤ n → j ≠ i → a (j / 2) ≤ a j
  grand : 2 ≤ i → ∀ j, j ≤ n → j / 2 = i → a (i / 2) ≤ a j

/-- All is in order but the edges at `i`, and it would be without `i`. -/
structure DownHole (a : Nat → κ) (n i : Nat) : Prop where
  except : ∀ j, 2 ≤ j → j ≤ n → j ≠ i → j / 2 ≠ i → a (j / 2) ≤ a j
  grand : 2 ≤ i → ∀ j, j ≤ n → j / 2 = i → a (i / 2) ≤ a j

theorem HeapOrdered.mono {m : Nat} (h : HeapOrdered a n) (hm : m ≤ n) : HeapOrdered a m :=
  fun j h2 hj => h j h2 (Nat.le_trans hj hm)

theorem HeapOrdered.congr (h : HeapOrdered a n) (hEq : ∀ k, 1 ≤ k → k ≤ n → b k = a k) :
    HeapOrdered b n := by
  intro j h2 hj
  rw [hEq j (by omega) hj, hEq (j / 2) (by omega) (by omega)]
  exact h j h2 hj

theorem HeapOrdered.upHole (h : HeapOrdered a n) (i : Nat) : UpHole a n i where
  except j h2 hj _ := h j h2 hj
  grand h2 j hj hParent := by
    have hUp := h j (by omega) hj
    rw [hParent] at hUp
    exact (h i h2 (by omega)).trans hUp

/-- A heap in which the key of one position was changed. -/
theorem HeapOrdered.downHole (h : HeapOrdered a n)
    (hEq : ∀ k, 1 ≤ k → k ≤ n → k ≠ i → b k = a k) : DownHole b n i where
  except j h2 hj hNe hParent := by
    rw [hEq j (by omega) hj hNe, hEq (j / 2) (by omega) (by omega) hParent]
    exact h j h2 hj
  grand h2 j hj hParent := by
    rw [hEq j (by omega) hj (by omega), hEq (i / 2) (by omega) (by omega) (by omega)]
    exact (h.upHole i).grand h2 j hj hParent

/-- The first key is the least. -/
theorem HeapOrdered.root_le (h : HeapOrdered a n) (hj : 1 ≤ j) (hn : j ≤ n) : a 1 ≤ a j := by
  induction j using Nat.strongRecOn with
  | ind j ih =>
      rcases Nat.lt_or_ge j 2 with hLt | hGe
      · have hOne : j = 1 := by omega
        rw [hOne]
      · exact (ih (j / 2) (by omega) (by omega) (by omega)).trans (h j hGe hn)

/-! ## Towards the root -/

/-- A turn of the way up. -/
theorem UpHole.exchange (h : UpHole a n i) (h2 : 2 ≤ i) (hi : i ≤ n) (hLt : a i < a (i / 2)) :
    UpHole (exchange a i (i / 2)) n (i / 2) where
  except j hj2 hj hNe := by
    rcases eq_or_ne j i with rfl | hji
    · rw [exchange_left, exchange_right]
      exact hLt.le
    · rw [exchange_of_ne hji hNe]
      rcases eq_or_ne (j / 2) i with hParent | hParent
      · rw [hParent, exchange_left]
        exact h.grand h2 j hj hParent
      · have hUp := h.except j hj2 hj hji
        rcases eq_or_ne (j / 2) (i / 2) with hSame | hOther
        · rw [hSame, exchange_right]
          rw [hSame] at hUp
          exact hLt.le.trans hUp
        · rw [exchange_of_ne hParent hOther]
          exact hUp
  grand hp2 j hj hParent := by
    rw [exchange_of_ne (by omega : i / 2 / 2 ≠ i) (by omega : i / 2 / 2 ≠ i / 2)]
    have hUp := h.except (i / 2) hp2 (by omega) (by omega)
    rcases eq_or_ne j i with rfl | hji
    · rw [exchange_left]
      exact hUp
    · rw [exchange_of_ne hji (by omega)]
      have hSibling := h.except j (by omega) hj hji
      rw [hParent] at hSibling
      exact hUp.trans hSibling

/-- The end of the way up. -/
theorem UpHole.ordered (h : UpHole a n i) (hStop : 2 ≤ i → a (i / 2) ≤ a i) :
    HeapOrdered a n := by
  intro j h2 hj
  rcases eq_or_ne j i with rfl | hji
  · exact hStop h2
  · exact h.except j h2 hj hji

/-! ## Towards the leaves -/

/-- A turn of the way down, to the child `c` with the smaller key. The edge above
`c` is in order. -/
theorem DownHole.exchange (h : DownHole a n i) (hi : 1 ≤ i) (hc : c ≤ n) (hChild : c / 2 = i)
    (hLe : a c ≤ a i) (hLeast : ∀ j, j ≤ n → j / 2 = i → a c ≤ a j) :
    DownHole (exchange a i c) n c ∧ exchange a i c i ≤ exchange a i c c := by
  have hGrand : 2 ≤ i → a (i / 2) ≤ a c := fun h2 => h.grand h2 c hc hChild
  refine ⟨⟨fun j h2 hj hNe hParent => ?_, fun _ j hj hParent => ?_⟩, ?_⟩
  · rcases eq_or_ne j i with rfl | hji
    · rw [exchange_left, exchange_of_ne (by omega) (by omega)]
      exact hGrand h2
    · rw [exchange_of_ne hji hNe]
      rcases eq_or_ne (j / 2) i with hSibling | hOther
      · rw [hSibling, exchange_left]
        exact hLeast j hj hSibling
      · rw [exchange_of_ne hOther hParent]
        exact h.except j h2 hj hji hOther
  · rw [hChild, exchange_left, exchange_of_ne (by omega) (by omega), ← hParent]
    exact h.except j (by omega) hj (by omega) (by omega)
  · rw [exchange_left, exchange_right]
    exact hLe

/-- The end of the way down: no child is below. -/
theorem DownHole.upHole (h : DownHole a n i)
    (hStop : ∀ j, 2 ≤ j → j ≤ n → j / 2 = i → a i ≤ a j) : UpHole a n i where
  except j h2 hj hNe := by
    rcases eq_or_ne (j / 2) i with hParent | hParent
    · rw [hParent]
      exact hStop j h2 hj hParent
    · exact h.except j h2 hj hNe hParent
  grand := h.grand

end Lftp.Verified
