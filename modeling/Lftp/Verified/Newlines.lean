import Mathlib.Data.List.Basic

/-!
# Two ways to end a line

One way to end a line is the byte `l`, the other is `c` and `l` after one another. `expand` goes
from the first to the second and `contract` back.

* `contract_expand`: no text is changed by both.
* `contract_cons` is the rule for a converter that sees one element and the next.
-/

namespace Lftp.Verified.Newlines

variable {α : Type} [DecidableEq α] {c l x : α}

/-- Each `l` becomes `c` and `l`. -/
def expand (c l : α) (s : List α) : List α := s.flatMap fun x => if x = l then [c, l] else [x]

/-- Each `c` before an `l` is left out. -/
def contract (c l : α) : List α → List α
  | [] => []
  | x :: s => if x = c ∧ s.head? = some l then contract c l s else x :: contract c l s

@[simp] theorem expand_nil (c l : α) : expand c l [] = [] := rfl

theorem expand_append (c l : α) (s t : List α) : expand c l (s ++ t) = expand c l s ++ expand c l t :=
  List.flatMap_append

theorem length_expand (c l : α) (s : List α) : (expand c l s).length = s.length + s.count l := by
  induction s with
  | nil => rfl
  | cons x s ih =>
      have hLength : (expand c l (x :: s)).length
          = (if x = l then [c, l] else [x]).length + (expand c l s).length := List.length_append
      rw [hLength, ih, List.length_cons, List.count_cons]
      split_ifs with hx hSame hSame
      · simp only [List.length_cons, List.length_nil]
        omega
      · exact absurd (beq_iff_eq.mpr hx) hSame
      · exact absurd (beq_iff_eq.mp hSame) hx
      · simp only [List.length_cons, List.length_nil]
        omega

theorem contract_cons {s : List α} (h : ¬(x = c ∧ s.head? = some l)) :
    contract c l (x :: s) = x :: contract c l s := by
  rw [contract, if_neg h]

theorem contract_pair (c l : α) (s : List α) :
    contract c l (c :: l :: s) = contract c l (l :: s) := by
  rw [contract, if_pos ⟨rfl, rfl⟩]

/-- No text begins with the second half of a line end when it is expanded. -/
theorem head?_expand (h : c ≠ l) (s : List α) : (expand c l s).head? ≠ some l := by
  cases s with
  | nil => nofun
  | cons x s =>
      show ((if x = l then [c, l] else [x]) ++ expand c l s).head? ≠ some l
      split_ifs with hx
      · simpa using h
      · simpa using hx

theorem contract_expand (h : c ≠ l) (s : List α) : contract c l (expand c l s) = s := by
  induction s with
  | nil => rfl
  | cons x s ih =>
      show contract c l ((if x = l then [c, l] else [x]) ++ expand c l s) = x :: s
      split_ifs with hx
      · subst hx
        show contract c x (c :: x :: expand c x s) = x :: s
        rw [contract_pair, contract_cons fun hAnd => h hAnd.1.symm, ih]
      · show contract c l (x :: expand c l s) = x :: s
        rw [contract_cons fun hAnd => head?_expand h s hAnd.2, ih]

end Lftp.Verified.Newlines
