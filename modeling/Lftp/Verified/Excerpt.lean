import Mathlib.Algebra.Order.Ring.Int
import Mathlib.Data.List.Basic

/-!
# Excerpts

A source gives a value for every offset. `Excerpt src off l` says that the list
`l` is what the source holds from `off` on. Pieces that follow one another make
a longer excerpt, and a part of an excerpt is one.
-/

namespace Lftp.Verified

variable {α : Type} {src : Int → α} {off : Int} {l m : List α}

/-- The source holds `l` from `off` on. -/
def Excerpt (src : Int → α) (off : Int) (l : List α) : Prop :=
  ∀ i (h : i < l.length), l[i] = src (off + i)

instance [DecidableEq α] : Decidable (Excerpt src off l) :=
  inferInstanceAs (Decidable (∀ i (h : i < l.length), l[i] = src (off + i)))

@[simp] theorem excerpt_nil : Excerpt src off [] := fun _ h => absurd h (Nat.not_lt_zero _)

theorem excerpt_append :
    Excerpt src off (l ++ m) ↔ Excerpt src off l ∧ Excerpt src (off + l.length) m := by
  constructor
  · intro h
    refine ⟨fun i hi => ?_, fun i hi => ?_⟩
    · have hAll := h i (by simp only [List.length_append]; omega)
      rwa [List.getElem_append_left hi] at hAll
    · have hAll := h (l.length + i) (by simp only [List.length_append]; omega)
      rw [List.getElem_append_right (Nat.le_add_right _ _)] at hAll
      simpa [Int.add_assoc] using hAll
  · rintro ⟨hl, hm⟩ i hi
    rcases Nat.lt_or_ge i l.length with hLt | hGe
    · rw [List.getElem_append_left hLt]
      exact hl i hLt
    · rw [List.length_append] at hi
      rw [List.getElem_append_right hGe, hm (i - l.length) (by omega)]
      congr 1
      omega

theorem Excerpt.take (h : Excerpt src off l) (n : Nat) : Excerpt src off (l.take n) := by
  rw [← List.take_append_drop n l, excerpt_append] at h
  exact h.1

theorem Excerpt.drop (h : Excerpt src off l) (n : Nat) :
    Excerpt src (off + (l.take n).length) (l.drop n) := by
  rw [← List.take_append_drop n l, excerpt_append] at h
  exact h.2

end Lftp.Verified
