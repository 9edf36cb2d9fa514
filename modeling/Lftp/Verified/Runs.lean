/-!
# Runs of a transition system

A system is given by its initial states and a labelled step relation. `Reach`
is the set of states on its runs, and `Reach.invariant` the rule by which every
safety result of the development goes: what holds at the start and is kept by a
step holds in every state reached.

A condition on steps is put into the step relation, so that "every run whose
steps meet the condition" is a run of the restricted system; `Reach.mono` says
that restricting loses no more than that. `Guarded` is such a relation when the
labels act as functions, `Reach.foldl` the way to a state on one of its runs, and `allOk_iff`
and `allOk_iff_of_bad` say when a condition is the exact one.
-/

namespace Lftp.Verified

variable {σ ο : Type} {init : σ → Prop} {step step' : σ → ο → σ → Prop}

/-- The states on the runs that start in `init` and go by `step`. -/
inductive Reach (init : σ → Prop) (step : σ → ο → σ → Prop) : σ → Prop
  | start {s : σ} (h : init s) : Reach init step s
  | next {s s' : σ} (o : ο) (hs : Reach init step s) (h : step s o s') : Reach init step s'

/-- What holds initially and is preserved by steps holds in every state reached. -/
theorem Reach.invariant {I : σ → Prop} (hInit : ∀ s, init s → I s)
    (hStep : ∀ s o s', I s → step s o s' → I s') {s : σ} (h : Reach init step s) : I s := by
  induction h with
  | start h => exact hInit _ h
  | next o _ h ih => exact hStep _ o _ ih h

/-- The steps of `act` whose label meets `ok` in the state before. -/
def Guarded (act : σ → ο → σ) (ok : σ → ο → Prop) (s : σ) (o : ο) (s' : σ) : Prop :=
  ok s o ∧ s' = act s o

/-- All labels of a list meet `ok` when they act one after another. -/
def AllOk (act : σ → ο → σ) (ok : σ → ο → Prop) : σ → List ο → Prop
  | _, [] => True
  | s, o :: os => ok s o ∧ AllOk act ok (act s o) os

instance decidableAllOk {act : σ → ο → σ} {ok : σ → ο → Prop} [∀ s o, Decidable (ok s o)] :
    ∀ s os, Decidable (AllOk act ok s os)
  | _, [] => inferInstanceAs (Decidable True)
  | s, o :: os =>
    have : Decidable (AllOk act ok (act s o) os) := decidableAllOk (act s o) os
    inferInstanceAs (Decidable (_ ∧ _))

theorem Reach.foldl {act : σ → ο → σ} {ok : σ → ο → Prop} {s : σ}
    (h : Reach init (Guarded act ok) s) (os : List ο) (hOk : AllOk act ok s os) :
    Reach init (Guarded act ok) (os.foldl act s) := by
  induction os generalizing s with
  | nil => exact h
  | cons o os ih => exact ih (.next o h ⟨hOk.1, rfl⟩) hOk.2

/-- Where a step is good exactly when its label meets `ok`, the states of a run are good exactly
when all labels do. `J` holds anyway. -/
theorem allOk_iff {act : σ → ο → σ} {ok : σ → ο → Prop} {J Q : σ → Prop}
    (hJ : ∀ s o, J s → J (act s o)) (hStep : ∀ s o, J s → Q s → (Q (act s o) ↔ ok s o)) {s : σ}
    (hs : J s) (hQ : Q s) (os : List ο) :
    (∀ ps, ps <+: os → Q (ps.foldl act s)) ↔ AllOk act ok s os := by
  induction os generalizing s with
  | nil => exact iff_of_true (fun ps h => by rwa [List.prefix_nil.mp h]) trivial
  | cons o os ih =>
      constructor
      · intro h
        have hNext : Q (act s o) := h [o] ⟨os, rfl⟩
        exact ⟨(hStep s o hs hQ).mp hNext, (ih (hJ s o hs) hNext).mp fun ps hps =>
          h (o :: ps) (List.cons_prefix_cons.mpr ⟨rfl, hps⟩)⟩
      · rintro ⟨hOk, hRest⟩ ps hps
        cases ps with
        | nil => exact hQ
        | cons p ps =>
            obtain ⟨rfl, hRun⟩ := List.cons_prefix_cons.mp hps
            exact (ih (hJ s p hs) ((hStep s p hs hQ).mpr hOk)).mpr hRest ps hRun

/-- As `allOk_iff`, where labels that meet `ok` keep the invariant `J`, which makes a state good, and
one that does not leads to a bad state whatever came before. -/
theorem allOk_iff_of_bad {act : σ → ο → σ} {ok : σ → ο → Prop} {J Q : σ → Prop}
    (hJ : ∀ s o, J s → ok s o → J (act s o)) (hQ : ∀ s, J s → Q s)
    (hBad : ∀ s o, Q (act s o) → ok s o) {s : σ} (hs : J s) (os : List ο) :
    (∀ ps, ps <+: os → Q (ps.foldl act s)) ↔ AllOk act ok s os := by
  induction os generalizing s with
  | nil =>
      refine iff_of_true (fun ps h => ?_) trivial
      rw [List.prefix_nil.mp h]
      exact hQ s hs
  | cons o os ih =>
      constructor
      · intro h
        have hOk : ok s o := hBad s o (h [o] ⟨os, rfl⟩)
        exact ⟨hOk, (ih (hJ s o hs hOk)).mp fun ps hps =>
          h (o :: ps) (List.cons_prefix_cons.mpr ⟨rfl, hps⟩)⟩
      · rintro ⟨hOk, hRest⟩ ps hps
        cases ps with
        | nil => exact hQ s hs
        | cons p ps =>
            obtain ⟨rfl, hRun⟩ := List.cons_prefix_cons.mp hps
            exact (ih (hJ s p hs hOk)).mpr hRest ps hRun

theorem Reach.mono (hStep : ∀ s o s', step s o s' → step' s o s') {s : σ}
    (h : Reach init step s) : Reach init step' s := by
  induction h with
  | start h => exact .start h
  | next o _ h ih => exact .next o ih (hStep _ o _ h)

end Lftp.Verified
