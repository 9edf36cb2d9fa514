import Lftp.Verified.Loop

/-!
# Programs that may fail

A program that may fail is an `Except`. `Yields E Q x` says how `x` may end: with
a result in `Q`, or with an error in `E`. With `E` empty it is total correctness,
and `Yields.exists` gives the result.

* `Yields.bind`, `Yields.ite`, `Yields.foldlM` are the rules for composition.
* `loopOr` is a loop without a bound whose turns may fail, `Yields.loopOr` its rule
  for total and `Yields.loopOr_partial` that for partial correctness.
-/

namespace Lftp.Verified

variable {ε α β σ ρ : Type} {E E' : ε → Prop} {Q Q' : α → Prop} {R : β → Prop}

/-- A result in `Q` or an error in `E`. -/
def Yields (E : ε → Prop) (Q : α → Prop) : Except ε α → Prop
  | .ok a => Q a
  | .error e => E e

/-- No error at all. -/
def Never (_ : ε) : Prop := False

@[simp] theorem ok_bind (a : α) (f : α → Except ε β) : (Except.ok a >>= f) = f a := rfl

theorem exists_of_bind {x : Except ε α} {f : α → Except ε β} {b : β} (h : x >>= f = .ok b) :
    ∃ a, x = .ok a ∧ f a = .ok b := by
  cases x with
  | ok a => exact ⟨a, rfl, h⟩
  | error e => cases h

theorem Yields.mono {x : Except ε α} (h : Yields E Q x) (hE : ∀ e, E e → E' e)
    (hQ : ∀ a, Q a → Q' a) : Yields E' Q' x := by
  cases x with
  | ok a => exact hQ a h
  | error e => exact hE e h

theorem Yields.imp {x : Except ε α} (h : Yields E Q x) (hQ : ∀ a, Q a → Q' a) :
    Yields E Q' x :=
  h.mono (fun _ => id) hQ

/-- What never fails may be used where an error is allowed. -/
theorem Yields.total {x : Except ε α} (h : Yields Never Q x) : Yields E Q x :=
  h.mono (fun _ => False.elim) fun _ => id

theorem Yields.bind {x : Except ε α} {f : α → Except ε β} (h : Yields E Q x)
    (hf : ∀ a, Q a → Yields E R (f a)) : Yields E R (x >>= f) := by
  cases x with
  | ok a => exact hf a h
  | error e => exact h

theorem Yields.map {x : Except ε α} {f : α → β} (h : Yields E (fun a => R (f a)) x) :
    Yields E R (f <$> x) := by
  cases x with
  | ok a => exact h
  | error e => exact h

theorem Yields.ite {p : Prop} [Decidable p] {x y : Except ε α} (hx : p → Yields E Q x)
    (hy : ¬p → Yields E Q y) : Yields E Q (if p then x else y) := by
  by_cases h : p
  · rw [if_pos h]
    exact hx h
  · rw [if_neg h]
    exact hy h

theorem Yields.option {o : Option β} {x : Except ε α} {f : β → Except ε α}
    (hx : o = none → Yields E Q x) (hf : ∀ b, o = some b → Yields E Q (f b)) :
    Yields E Q (o.elim x f) := by
  cases o with
  | none => exact hx rfl
  | some b => exact hf b rfl

theorem Yields.exists {x : Except ε α} (h : Yields Never Q x) : ∃ a, x = .ok a ∧ Q a := by
  cases x with
  | ok a => exact ⟨a, rfl, h⟩
  | error e => exact h.elim

/-- The rule for a loop over a list: `I` speaks of what is still to come. -/
theorem Yields.foldlM {f : σ → α → Except ε σ} {I : List α → σ → Prop}
    (hStep : ∀ a l s, I (a :: l) s → Yields E (I l) (f s a)) {l : List α} {s : σ} (h : I l s) :
    Yields E (I []) (l.foldlM f s) := by
  induction l generalizing s with
  | nil => exact h
  | cons a l ih =>
      rw [List.foldlM_cons]
      exact (hStep a l s h).bind fun s' => ih

/-! ## Loops -/

/-- A turn that fails leaves the loop. -/
def failing (turn : σ → Except ε (σ ⊕ ρ)) (s : σ) : σ ⊕ Except ε ρ :=
  match turn s with
  | .ok (.inl s') => .inl s'
  | .ok (.inr r) => .inr (.ok r)
  | .error e => .inr (.error e)

/-- The loop with at most `n` turns; `out` when it has not left by then. -/
def loopOr (out : ε) (turn : σ → Except ε (σ ⊕ ρ)) (n : Nat) (s : σ) : Except ε ρ :=
  (loop (failing turn) n s).getD (.error out)

/-- The loop leaves with a result in `Q` when every turn does or makes a measure
smaller, and keeps `I`. -/
theorem Yields.loopOr {I : σ → Prop} {Q : ρ → Prop} (measure : σ → Nat)
    {turn : σ → Except ε (σ ⊕ ρ)} (out : ε)
    (hTurn : ∀ s, I s →
      Yields E (Sum.elim (fun s' => I s' ∧ measure s' < measure s) Q) (turn s))
    {s : σ} (hs : I s) {n : Nat} (hn : measure s < n) :
    Yields E Q (loopOr out turn n s) := by
  have hTotal : ∃ r, loop (failing turn) n s = some r ∧ Yields E Q r := by
    refine loop_total measure (fun t ht => ?_) hs hn
    have hYields := hTurn t ht
    unfold failing
    cases hEq : turn t with
    | error e =>
        rw [hEq] at hYields
        exact .inl ⟨_, rfl, hYields⟩
    | ok r =>
        rw [hEq] at hYields
        cases r with
        | inl s' => exact .inr ⟨s', rfl, hYields⟩
        | inr r => exact .inl ⟨_, rfl, hYields⟩
  obtain ⟨r, hLoop, hr⟩ := hTotal
  unfold Lftp.Verified.loopOr
  rw [hLoop]
  exact hr

/-- The rule for partial correctness: not to have left by then is an error in `E`. -/
theorem Yields.loopOr_partial {I : σ → Prop} {Q : ρ → Prop} {turn : σ → Except ε (σ ⊕ ρ)}
    {out : ε} (hOut : E out) (hTurn : ∀ s, I s → Yields E (Sum.elim I Q) (turn s)) {s : σ}
    (hs : I s) (n : Nat) : Yields E Q (Lftp.Verified.loopOr out turn n s) := by
  unfold Lftp.Verified.loopOr
  cases hLoop : loop (failing turn) n s with
  | none => exact hOut
  | some r =>
      refine Leaves.rule (I := I) (Q := Yields E Q) ?_ ?_ ⟨n, hLoop⟩ hs
      · intro t t' ht hNext
        have hYields := hTurn t ht
        unfold failing at hNext
        split at hNext
        · rename_i hEq
          rw [hEq] at hYields
          cases hNext
          exact hYields
        · cases hNext
        · cases hNext
      · intro t r ht hLeave
        have hYields := hTurn t ht
        unfold failing at hLeave
        split at hLeave
        · cases hLeave
        · rename_i hEq
          rw [hEq] at hYields
          cases hLeave
          exact hYields
        · rename_i hEq
          rw [hEq] at hYields
          cases hLeave
          exact hYields

end Lftp.Verified
