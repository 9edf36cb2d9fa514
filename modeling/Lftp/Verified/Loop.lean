import Mathlib.Data.List.Forall2
import Mathlib.Data.Nat.Basic
import Mathlib.Logic.Relation

/-!
# Loops without a bound

A `for(;;)` loop is given by its turn, which goes on in another state or leaves
with a result. `loop` runs it for a number of turns, so that it can be
evaluated, and `Leaves` forgets the number.

* `Leaves.unique`: a loop leaves with one result, whatever the bound.
* `Leaves.rule`: what every turn keeps may be used when the loop leaves.
* `loop_total`: the loop leaves, when every other turn makes a measure smaller; `leaves_of_wf` is this
  for any well-founded order.
* `Along.leaves`: a loop leaves like another one, when this is so of every turn.
-/

namespace Lftp.Verified

variable {σ ρ : Type} {turn : σ → σ ⊕ ρ}

/-- At most `n` turns; `none` when the loop has not left by then. -/
def loop (turn : σ → σ ⊕ ρ) : Nat → σ → Option ρ
  | 0, _ => none
  | n + 1, s =>
    match turn s with
    | .inl s' => loop turn n s'
    | .inr r => some r

/-- The loop leaves with `r` when it starts in `s`. -/
def Leaves (turn : σ → σ ⊕ ρ) (s : σ) (r : ρ) : Prop := ∃ n, loop turn n s = some r

theorem loop_inl {s s' : σ} (h : turn s = .inl s') (n : Nat) :
    loop turn (n + 1) s = loop turn n s' := by
  simp only [loop, h]

theorem loop_inr {s : σ} {r : ρ} (h : turn s = .inr r) (n : Nat) :
    loop turn (n + 1) s = some r := by
  simp only [loop, h]

theorem Leaves.inl {s s' : σ} {r : ρ} (h : turn s = .inl s') (hNext : Leaves turn s' r) :
    Leaves turn s r := by
  obtain ⟨n, hn⟩ := hNext
  exact ⟨n + 1, (loop_inl h n).trans hn⟩

theorem Leaves.inr {s : σ} {r : ρ} (h : turn s = .inr r) : Leaves turn s r :=
  ⟨1, loop_inr h 0⟩

/-- States with the same turn are left alike. -/
theorem Leaves.of_turn_eq {s s' : σ} {r : ρ} (h : turn s = turn s') (hs : Leaves turn s' r) :
    Leaves turn s r := by
  obtain ⟨n, hn⟩ := hs
  cases n with
  | zero => cases hn
  | succ n => exact ⟨n + 1, by rw [← hn]; simp only [loop, h]⟩

theorem Leaves.next {s s' : σ} {r : ρ} (h : Leaves turn s r) (hTurn : turn s = .inl s') :
    Leaves turn s' r := by
  obtain ⟨n, hn⟩ := h
  cases n with
  | zero => cases hn
  | succ n => exact ⟨n, (loop_inl hTurn n).symm.trans hn⟩

/-- A loop leaves like it does further on its way. -/
theorem Leaves.along {s t : σ} {r : ρ} (hWay : Relation.ReflTransGen (fun a b => turn a = .inl b) s t)
    (h : Leaves turn t r) : Leaves turn s r := by
  induction hWay using Relation.ReflTransGen.head_induction_on with
  | refl => exact h
  | head hTurn _ ih => exact ih.inl hTurn

theorem Leaves.last {s : σ} {r r' : ρ} (h : Leaves turn s r) (hTurn : turn s = .inr r') :
    r' = r := by
  obtain ⟨n, hn⟩ := h
  cases n with
  | zero => cases hn
  | succ n => exact Option.some.inj ((loop_inr hTurn n).symm.trans hn)

/-- What every turn keeps may be used when the loop leaves. -/
theorem Leaves.rule {I : σ → Prop} {Q : ρ → Prop}
    (hTurn : ∀ s s', I s → turn s = .inl s' → I s')
    (hLeave : ∀ s r, I s → turn s = .inr r → Q r) {s : σ} {r : ρ}
    (h : Leaves turn s r) (hs : I s) : Q r := by
  obtain ⟨n, hn⟩ := h
  induction n generalizing s with
  | zero => cases hn
  | succ n ih =>
      cases hTurn' : turn s with
      | inl s' =>
          rw [loop_inl hTurn'] at hn
          exact ih (hTurn s s' hs hTurn') hn
      | inr r' =>
          rw [loop_inr hTurn'] at hn
          exact Option.some.inj hn ▸ hLeave s r' hs hTurn'

/-- The rule for total correctness: every turn leaves with a result in `Q`, or
keeps `I` and makes the measure smaller. -/
theorem loop_total {f : σ → σ ⊕ ρ} {I : σ → Prop} {Q : ρ → Prop} (measure : σ → Nat)
    (hTurn : ∀ s, I s → (∃ r, f s = .inr r ∧ Q r)
      ∨ ∃ s', f s = .inl s' ∧ I s' ∧ measure s' < measure s)
    {s : σ} (hs : I s) {n : Nat} (hn : measure s < n) : ∃ r, loop f n s = some r ∧ Q r := by
  induction n generalizing s with
  | zero => exact absurd hn (Nat.not_lt_zero _)
  | succ n ih =>
      rcases hTurn s hs with ⟨r, hLeave, hQ⟩ | ⟨s', hNext, hs', hLess⟩
      · exact ⟨r, loop_inr hLeave n, hQ⟩
      · rw [loop_inl hNext]
        exact ih hs' (by omega)

/-- A loop leaves, when it leaves from a state or goes on and down in a well-founded order. -/
theorem leaves_of_wf {α : Type} {below : α → α → Prop} (hWf : WellFounded below) (measure : σ → α)
    {I : σ → Prop}
    (hTurn : ∀ s, I s → (∃ r, Leaves turn s r)
      ∨ ∃ s', turn s = .inl s' ∧ I s' ∧ below (measure s') (measure s)) {s : σ} (hs : I s) :
    ∃ r, Leaves turn s r := by
  generalize hm : measure s = m
  induction m using hWf.induction generalizing s with
  | _ m ih =>
      rcases hTurn s hs with h | ⟨s', hNext, hs', hBelow⟩
      · exact h
      · obtain ⟨r, hr⟩ := ih _ (hm ▸ hBelow) hs' rfl
        exact ⟨r, hr.inl hNext⟩

theorem Leaves.unique {s : σ} {r r' : ρ} (h : Leaves turn s r) (h' : Leaves turn s r') :
    r = r' := by
  have hQ := Leaves.rule (I := fun t => Leaves turn t r') (Q := fun q => q = r') ?_ ?_ h h'
  · exact hQ
  · exact fun t t' ht hTurn => ht.next hTurn
  · exact fun t q ht hTurn => ht.last hTurn

/-! ## What holds along a loop -/

/-- `ok` holds of the states in which the first `n` turns are made. -/
def Along (turn : σ → σ ⊕ ρ) (ok : σ → Prop) : Nat → σ → Prop
  | 0, _ => True
  | n + 1, s =>
    ok s ∧ match turn s with
      | .inl s' => Along turn ok n s'
      | .inr _ => True

instance decidableAlong (turn : σ → σ ⊕ ρ) {ok : σ → Prop} [DecidablePred ok] :
    ∀ n s, Decidable (Along turn ok n s)
  | 0, _ => inferInstanceAs (Decidable True)
  | n + 1, s =>
    have : Decidable (match turn s with
        | .inl s' => Along turn ok n s'
        | .inr _ => True) :=
      match turn s with
      | .inl s' => decidableAlong turn n s'
      | .inr _ => .isTrue trivial
    inferInstanceAs (Decidable (_ ∧ _))

theorem Along.next {ok : σ → Prop} {s s' : σ} (hTurn : turn s = .inl s')
    (h : ∀ n, Along turn ok n s) (n : Nat) : Along turn ok n s' := by
  have hMore := (h (n + 1)).2
  rwa [hTurn] at hMore

/-- Nothing comes after the turn that leaves. -/
theorem Along.all {ok : σ → Prop} {m : Nat} {s : σ} {r : ρ} (h : Along turn ok m s)
    (hLoop : loop turn m s = some r) (n : Nat) : Along turn ok n s := by
  induction m generalizing s n with
  | zero => cases hLoop
  | succ m ih =>
      cases n with
      | zero => trivial
      | succ n =>
          refine ⟨h.1, ?_⟩
          have hRest := h.2
          cases hTurn : turn s with
          | inl s' =>
              rw [hTurn] at hRest
              rw [loop_inl hTurn] at hLoop
              exact ih hRest hLoop n
          | inr r' => trivial

/-- A loop leaves like another one, when this is so of every turn: where it leaves the other one does,
and where it goes on the other one is left alike from both states. -/
theorem Along.leaves {f g : σ → σ ⊕ ρ} {ok : σ → Prop}
    (hLeave : ∀ s r, ok s → f s = .inr r → Leaves g s r)
    (hNext : ∀ s s' r, ok s → f s = .inl s' → Leaves g s' r → Leaves g s r) {n : Nat} {s : σ} {r : ρ}
    (h : Along f ok n s) (hLoop : loop f n s = some r) : Leaves g s r := by
  induction n generalizing s with
  | zero => cases hLoop
  | succ n ih =>
      obtain ⟨hOk, hRest⟩ := h
      cases hTurn : f s with
      | inl s' =>
          rw [hTurn] at hRest
          rw [loop_inl hTurn] at hLoop
          exact hNext s s' r hOk hTurn (ih hRest hLoop)
      | inr r' =>
          rw [loop_inr hTurn] at hLoop
          exact hLeave s r hOk (hTurn.trans (congrArg _ (Option.some.inj hLoop)))

/-- What is so wherever the loop leaves is so of its result. -/
theorem Along.result {f : σ → σ ⊕ ρ} {ok : σ → Prop} {Q : ρ → Prop}
    (hLeave : ∀ s r, ok s → f s = .inr r → Q r) {n : Nat} {s : σ} {r : ρ} (h : Along f ok n s)
    (hLoop : loop f n s = some r) : Q r := by
  induction n generalizing s with
  | zero => cases hLoop
  | succ n ih =>
      obtain ⟨hOk, hRest⟩ := h
      cases hTurn : f s with
      | inl s' =>
          rw [hTurn] at hRest
          rw [loop_inl hTurn] at hLoop
          exact ih hRest hLoop
      | inr r' =>
          rw [loop_inr hTurn] at hLoop
          exact hLeave s r hOk (hTurn.trans (congrArg _ (Option.some.inj hLoop)))

/-! ## Loops over a list that may stop -/

/-- What every turn keeps holds at the end, of all that was read. -/
theorem foldlM_rule {α : Type} {f : σ → α → Option σ} {I : σ → List α → Prop}
    (hTurn : ∀ s s' done a, I s done → f s a = some s' → I s' (done ++ [a])) {l : List α}
    {s s' : σ} {d : List α} (h : l.foldlM f s = some s') (hs : I s d) : I s' (d ++ l) := by
  induction l generalizing s d with
  | nil =>
      cases h
      rwa [List.append_nil]
  | cons a l ih =>
      rw [List.foldlM_cons] at h
      obtain ⟨t, ht, hRest⟩ := Option.bind_eq_some_iff.mp h
      have hAll := ih hRest (hTurn s t d a hs ht)
      rwa [List.append_assoc] at hAll

/-- A loop over a list comes to its end where every turn goes on. -/
theorem foldlM_total {α : Type} {f : σ → α → Option σ} {I : σ → Prop} {l : List α}
    (hTurn : ∀ s, ∀ a ∈ l, I s → ∃ s', f s a = some s' ∧ I s') {s : σ} (hs : I s) :
    ∃ s', l.foldlM f s = some s' ∧ I s' := by
  induction l generalizing s with
  | nil => exact ⟨s, rfl, hs⟩
  | cons a l ih =>
      obtain ⟨t, ht, hI⟩ := hTurn s a List.mem_cons_self hs
      obtain ⟨s', hs', hI'⟩ := ih (fun s b hb => hTurn s b (List.mem_cons_of_mem a hb)) hI
      exact ⟨s', by rw [List.foldlM_cons, ht]; exact hs', hI'⟩

/-- Where all elements have a result, the list has the list of them. -/
theorem mapM_total {α β : Type} {f : α → Option β} {P : α → β → Prop} {l : List α}
    (h : ∀ a ∈ l, ∃ b, f a = some b ∧ P a b) :
    ∃ bs, l.mapM f = some bs ∧ List.Forall₂ P l bs := by
  induction l with
  | nil => exact ⟨[], rfl, .nil⟩
  | cons a l ih =>
      obtain ⟨b, hb, hP⟩ := h a List.mem_cons_self
      obtain ⟨bs, hbs, hAll⟩ := ih fun a' ha' => h a' (List.mem_cons_of_mem a ha')
      exact ⟨b :: bs, by rw [List.mapM_cons, hb, hbs]; rfl, .cons hP hAll⟩

end Lftp.Verified
