import Mathlib.Logic.Relation

/-!
# Ancestry in a changing forest

`up x p` says that `p` is the parent of `x`. `Under up x y` says that `y` is a
proper ancestor of `x`, `Below` allows `x` itself, and a forest is `Acyclic` when
nothing is its own ancestor.

* `Acyclic.of_le`: edges may be removed, or replaced by an edge to an ancestor.
* `Acyclic.attach`: a new edge is harmless when it does not close a loop.
* `Acyclic.siblings`: what is below one child is not below another.
-/

namespace Lftp.Verified

open Relation

variable {α : Type} {up up' : α → α → Prop} {x y z p q : α}

/-- `y` is a proper ancestor of `x`. -/
abbrev Under (up : α → α → Prop) (x y : α) : Prop := TransGen up x y

/-- `y` is `x` or an ancestor of it. -/
abbrev Below (up : α → α → Prop) (x y : α) : Prop := ReflTransGen up x y

/-- Nothing is its own ancestor. -/
def Acyclic (up : α → α → Prop) : Prop := ∀ x, ¬ Under up x x

/-- Every edge of `up'` leads to an ancestor in `up`. -/
def Shortens (up up' : α → α → Prop) : Prop := ∀ x p, up' x p → Under up x p

theorem Shortens.under (h : Shortens up up') (hUnder : Under up' x y) : Under up x y := by
  induction hUnder with
  | single hEdge => exact h _ _ hEdge
  | tail _ hEdge ih => exact ih.trans (h _ _ hEdge)

theorem Shortens.below (h : Shortens up up') (hBelow : Below up' x y) : Below up x y := by
  rcases reflTransGen_iff_eq_or_transGen.mp hBelow with hEq | hUnder
  · rw [hEq]
  · exact (h.under hUnder).to_reflTransGen

theorem Shortens.refl (up : α → α → Prop) : Shortens up up := fun _ _ h => .single h

theorem Shortens.trans {up'' : α → α → Prop} (h : Shortens up up') (h' : Shortens up' up'') :
    Shortens up up'' := fun _ _ hEdge => h.under (h' _ _ hEdge)

theorem Acyclic.of_le (h : Acyclic up) (hLe : Shortens up up') : Acyclic up' :=
  fun x hx => h x (hLe.under hx)

/-- A child does not have its parent below it. -/
theorem Acyclic.not_below (h : Acyclic up) (hUp : up x p) : ¬ Below up p x :=
  fun hBelow => h x (.head' hUp hBelow)

theorem Acyclic.ne (h : Acyclic up) (hUp : up x p) : p ≠ x := by
  intro hEq
  subst hEq
  exact h p (.single hUp)

/-- A way that uses the new edge from `j` to `a` leads through both. -/
theorem under_attach {j a : α} (hUp : ∀ x p, up' x p → up x p ∨ x = j ∧ p = a)
    (h : Under up' x y) : Under up x y ∨ Below up x j ∧ Below up a y := by
  induction h with
  | single hEdge =>
      rcases hUp _ _ hEdge with hOld | ⟨hx, hy⟩
      · exact .inl (.single hOld)
      · subst hx hy
        exact .inr ⟨.refl, .refl⟩
  | tail _ hEdge ih =>
      rcases hUp _ _ hEdge with hOld | ⟨hx, hy⟩
      · rcases ih with hUnder | ⟨hFrom, hTo⟩
        · exact .inl (hUnder.tail hOld)
        · exact .inr ⟨hFrom, hTo.tail hOld⟩
      · subst hx hy
        rcases ih with hUnder | ⟨hFrom, _⟩
        · exact .inr ⟨hUnder.to_reflTransGen, .refl⟩
        · exact .inr ⟨hFrom, .refl⟩

/-- A new edge is harmless when it does not close a loop. -/
theorem Acyclic.attach {j a : α} (h : Acyclic up)
    (hUp : ∀ x p, up' x p → up x p ∨ x = j ∧ p = a) (hLoop : ¬ Below up a j) :
    Acyclic up' := by
  intro x hx
  rcases under_attach hUp hx with hUnder | ⟨hFrom, hTo⟩
  · exact h x hUnder
  · exact hLoop (hTo.trans hFrom)

/-- What is below one child is not below another. -/
theorem Acyclic.siblings (h : Acyclic up) (hUnique : Relator.RightUnique up) (hx : up x p)
    (hy : up y p) (hNe : x ≠ y) (hzx : Below up z x) : ¬ Below up z y := by
  have hDisjoint : ∀ u v, up u p → up v p → u ≠ v → ¬ Below up u v := by
    intro u v hu hv hNe' hBelow
    rcases hBelow.cases_head with hEq | ⟨w, hw, hRest⟩
    · exact hNe' hEq
    · rw [hUnique hw hu] at hRest
      exact h.not_below hv hRest
  intro hzy
  rcases ReflTransGen.total_of_right_unique hUnique hzx hzy with hBelow | hBelow
  · exact hDisjoint x y hx hy hNe hBelow
  · exact hDisjoint y x hy hx hNe.symm hBelow

end Lftp.Verified
