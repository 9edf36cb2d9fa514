import Mathlib.Data.List.Sort

/-!
# What `qsort` promises

`qsort` rearranges an array so that it is in order, if the comparison is an order on the elements
that are there; it promises nothing of equal elements. `QSorts` says so of a function from lists to
lists.

* `sorted_unique`: there is one way to sort elements with different keys.
* `qsorts_insertionSorted`: a function that keeps the promise.
-/

namespace Lftp.Verified.Sorting

variable {α κ : Type}

/-- The comparison is an order on the elements of the list. -/
structure Consistent (cmp : α → α → Ordering) (l : List α) : Prop where
  swap : ∀ a ∈ l, ∀ b ∈ l, cmp a b = (cmp b a).swap
  trans : ∀ a ∈ l, ∀ b ∈ l, ∀ c ∈ l, cmp a b ≠ .gt → cmp b c ≠ .gt → cmp a c ≠ .gt

/-- `qsort`. -/
structure QSorts (sort : (α → α → Ordering) → List α → List α) : Prop where
  perm : ∀ cmp l, (sort cmp l).Perm l
  sorted : ∀ cmp l, Consistent cmp l → (sort cmp l).Pairwise (cmp · · ≠ .gt)

section Keys

variable [Ord κ] {l₁ l₂ : List κ}

theorem nodup_of_lt [Std.ReflOrd κ] (h : l₁.Pairwise (compare · · = .lt)) : l₁.Nodup := by
  refine h.imp fun {a b} hLt hEq => ?_
  rw [hEq, Std.ReflOrd.compare_self] at hLt
  cases hLt

variable [Std.TransOrd κ]

/-- Elements are compared by their keys. -/
theorem consistent_of_key (key : α → κ) {cmp : α → α → Ordering} {l : List α}
    (h : ∀ a ∈ l, ∀ b ∈ l, cmp a b = compare (key a) (key b)) : Consistent cmp l := by
  constructor
  · intro a ha b hb
    rw [h a ha b hb, h b hb a ha]
    exact Std.OrientedCmp.eq_swap
  · intro a ha b hb c hc hab hbc
    rw [h a ha b hb] at hab
    rw [h b hb c hc] at hbc
    rw [h a ha c hc]
    exact Ordering.isLE_iff_ne_gt.mp (Std.TransCmp.isLE_trans (Ordering.isLE_iff_ne_gt.mpr hab)
      (Ordering.isLE_iff_ne_gt.mpr hbc))

/-- Two sorted lists of the same elements are the same, if no two of these have the same key. -/
theorem sorted_unique [Std.LawfulEqOrd κ] (key : α → κ) {l l' : List α}
    (h : l.Pairwise fun a b => compare (key a) (key b) ≠ .gt)
    (h' : l'.Pairwise fun a b => compare (key a) (key b) ≠ .gt) (hPerm : l.Perm l')
    (hNodup : (l.map key).Nodup) : l = l' := by
  refine List.Perm.eq_of_pairwise (fun a b ha hb hab hba => ?_) h h' hPerm
  apply List.inj_on_of_nodup_map hNodup ha (hPerm.symm.subset hb)
  cases hCmp : compare (key a) (key b) with
  | lt => exact absurd (Std.OrientedCmp.gt_of_lt hCmp) hba
  | eq => exact Std.LawfulEqOrd.eq_of_compare hCmp
  | gt => exact absurd hCmp hab

end Keys

/-- Insertion sort. -/
def insertionSorted (cmp : α → α → Ordering) (l : List α) : List α :=
  l.insertionSort fun a b => cmp a b ≠ .gt

theorem qsorts_insertionSorted : QSorts (insertionSorted (α := α)) := by
  constructor
  · intro cmp l
    exact List.perm_insertionSort _ l
  · intro cmp l h
    let le (a b : { x // x ∈ l }) : Prop := cmp a b ≠ .gt
    have hTotal : Std.Total le := by
      constructor
      intro a b
      have hSwap := h.swap a a.2 b b.2
      unfold le
      cases hCmp : cmp b a <;> simp [hSwap, hCmp]
    have hTrans : IsTrans _ le := ⟨fun a b c => h.trans a a.2 b b.2 c c.2⟩
    have hSorted := List.pairwise_insertionSort le l.attach
    have hMap := List.map_insertionSort le (fun a b => cmp a b ≠ .gt) Subtype.val l.attach
      fun a _ b _ => Iff.rfl
    rw [List.attach_map_subtype_val] at hMap
    unfold insertionSorted
    rw [← hMap, List.pairwise_map]
    exact hSorted

end Lftp.Verified.Sorting
