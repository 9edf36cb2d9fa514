import Mathlib.Data.Nat.Find

/-!
# Progress of a program that is called again and again

The program answers a call in state `s` with the state `act s i`, where the input `i` is
what its surroundings have for it this time. It may wait: on an input that is not `live` a
call may leave the state as it is. `Leads act ok live Q` holds of the states from which `Q`
comes to hold by calls with `ok` inputs, whatever they are, when waits come to an end.

* `Leads.intro` is the rule for one call, `Leads.via` that for a call which goes where a
  call in another state goes: code that falls from one case into the next.
* `Leads.eventually`: on every stream of `ok` inputs with live ones for ever, `Q` comes to
  hold.
-/

namespace Lftp.Verified

variable {σ ι : Type} {act : σ → ι → σ} {ok live : ι → Prop} {Q : σ → Prop}

/-- `Q` comes to hold, by a call or more, when waits come to an end. -/
inductive Leads (act : σ → ι → σ) (ok live : ι → Prop) (Q : σ → Prop) : σ → Prop
  | call {s : σ} (h : ∀ i, ok i → live i ∨ act s i ≠ s → ¬Q (act s i) →
      Leads act ok live Q (act s i)) : Leads act ok live Q s

/-- A call waits, or `Q` holds after it, or it goes on from there. -/
theorem Leads.intro {s : σ}
    (h : ∀ i, ok i → (¬live i ∧ act s i = s) ∨ Q (act s i) ∨ Leads act ok live Q (act s i)) :
    Leads act ok live Q s := by
  apply Leads.call
  intro i hOk hMove hNot
  rcases h i hOk with ⟨hLive, hSame⟩ | hQ | hLeads
  · exact (hMove.elim hLive fun hne => hne hSame).elim
  · exact absurd hQ hNot
  · exact hLeads

theorem Leads.step {s : σ} (h : Leads act ok live Q s) (i : ι) (hOk : ok i) :
    Q (act s i) ∨ Leads act ok live Q (act s i) := by
  cases h with
  | call h =>
      by_cases hMove : live i ∨ act s i ≠ s
      · by_cases hQ : Q (act s i)
        · exact .inl hQ
        · exact .inr (h i hOk hMove hQ)
      · have hSame : act s i = s := by
          by_contra hne
          exact hMove (.inr hne)
        rw [hSame]
        exact .inr (.call h)

/-- A call waits, or goes to `t`, or where a call in `t` goes. -/
theorem Leads.via {s t : σ} (h : Leads act ok live Q t)
    (hEq : ∀ i, ok i → (¬live i ∧ act s i = s) ∨ act s i = t ∨ act s i = act t i) :
    Leads act ok live Q s := by
  apply Leads.intro
  intro i hOk
  rcases hEq i hOk with hWait | hTo | hAs
  · exact .inl hWait
  · rw [hTo]
    exact .inr (.inr h)
  · rw [hAs]
    exact .inr (h.step i hOk)

/-! ## Streams of inputs -/

/-- The state after `n` calls. -/
def stateAt (act : σ → ι → σ) (s : σ) (input : Nat → ι) : Nat → σ
  | 0 => s
  | n + 1 => act (stateAt act s input n) (input n)

theorem stateAt_wait {s t : σ} {input : Nat → ι} {n : Nat} (h : stateAt act s input n = t)
    {m : Nat} (hm : n ≤ m) (hWait : ∀ j, n ≤ j → j < m → act t (input j) = t) :
    stateAt act s input m = t := by
  induction m, hm using Nat.le_induction with
  | base => exact h
  | succ m hm ih =>
      show act (stateAt act s input m) (input m) = t
      rw [ih fun j hj hLess => hWait j hj (Nat.lt_succ_of_lt hLess)]
      exact hWait m hm (Nat.lt_succ_self m)

/-- What a state leads to comes to hold, whatever the inputs. -/
theorem Leads.eventually {s₀ : σ} {input : Nat → ι} (hOk : ∀ n, ok (input n))
    (hLive : ∀ n, ∃ m, n ≤ m ∧ live (input m)) {s : σ} (h : Leads act ok live Q s) {n : Nat}
    (hAt : stateAt act s₀ input n = s) : ∃ m, n ≤ m ∧ Q (stateAt act s₀ input m) := by
  induction h generalizing n with
  | @call s _ ih =>
      have hMove : ∃ m, n ≤ m ∧ (live (input m) ∨ act s (input m) ≠ s) := by
        rcases hLive n with ⟨m, hm, hAlive⟩
        exact ⟨m, hm, .inl hAlive⟩
      classical
      have hFirst := Nat.find_spec hMove
      have hBefore : stateAt act s₀ input (Nat.find hMove) = s := by
        apply stateAt_wait hAt hFirst.1
        intro j hj hLess
        by_contra hne
        exact Nat.find_min hMove hLess ⟨hj, .inr hne⟩
      have hNext : stateAt act s₀ input (Nat.find hMove + 1) = act s (input (Nat.find hMove)) := by
        show act (stateAt act s₀ input (Nat.find hMove)) _ = _
        rw [hBefore]
      by_cases hQ : Q (act s (input (Nat.find hMove)))
      · exact ⟨_, Nat.le_succ_of_le hFirst.1, hNext.symm ▸ hQ⟩
      · rcases ih _ (hOk _) hFirst.2 hQ hNext with ⟨m, hm, hm'⟩
        exact ⟨m, by omega, hm'⟩

end Lftp.Verified
