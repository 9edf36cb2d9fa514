import Mathlib.Data.List.Basic

/-!
# Spans that tile a range

What is on order, in no particular order: the pieces of `[lo, hi)` that were
asked for and have not come. `Tiling spans lo hi limit` says that they lie in
the range, do not overlap, and leave out nothing of it below `limit`, where the
source ends.

The lemmas are what can happen to them: the range is extended by a new piece
(`extend`), its first piece comes in whole or in part (`advance`, `split`,
`retreat`), or a piece beyond the limit is given up (`drop_beyond`). Each keeps
the tiling, and `exhausted` says when nothing is left to come.
-/

namespace Lftp.Verified

/-- `len` cells from `pos` on. -/
structure Span where
  pos : Nat
  len : Nat

namespace Span

/-- No cell is in both. -/
def Apart (a b : Span) : Prop := a.pos + a.len ≤ b.pos ∨ b.pos + b.len ≤ a.pos

theorem Apart.symm {a b : Span} (h : Apart a b) : Apart b a := Or.symm h

end Span

/-- The spans tile the part of `[lo, hi)` below `limit`. -/
structure Tiling (spans : List Span) (lo hi limit : Nat) : Prop where
  le : lo ≤ hi
  within : ∀ s ∈ spans, lo ≤ s.pos ∧ s.pos + s.len ≤ hi ∧ 0 < s.len
  apart : spans.Pairwise Span.Apart
  covered : ∀ x, lo ≤ x → x < hi → x < limit → ∃ s ∈ spans, s.pos ≤ x ∧ x < s.pos + s.len

namespace Tiling

variable {spans spans' : List Span} {lo hi limit n k : Nat} {s : Span}

theorem nil (lo limit : Nat) : Tiling [] lo lo limit :=
  ⟨Nat.le_refl lo, nofun, List.Pairwise.nil, fun x hlo hhi _ => by omega⟩

theorem perm (h : Tiling spans lo hi limit) (hPerm : spans.Perm spans') :
    Tiling spans' lo hi limit where
  le := h.le
  within s hs := h.within s (hPerm.mem_iff.mpr hs)
  apart := (hPerm.pairwise_iff Span.Apart.symm).mp h.apart
  covered x hlo hhi hx := by
    rcases h.covered x hlo hhi hx with ⟨s, hs, hIn⟩
    exact ⟨s, hPerm.mem_iff.mp hs, hIn⟩

/-- A piece is asked for at the end of the range. -/
theorem extend (h : Tiling spans lo hi limit) (hn : 0 < n) :
    Tiling (⟨hi, n⟩ :: spans) lo (hi + n) limit where
  le := Nat.le_trans h.le (Nat.le_add_right hi n)
  within s hs := by
    rcases List.mem_cons.mp hs with rfl | hs
    · exact ⟨h.le, Nat.le_refl _, hn⟩
    · have hIn := h.within s hs
      omega
  apart := by
    refine List.pairwise_cons.mpr ⟨fun s hs => ?_, h.apart⟩
    have hIn := h.within s hs
    exact Or.inr hIn.2.1
  covered x hlo hhi hx := by
    by_cases hOld : x < hi
    · rcases h.covered x hlo hOld hx with ⟨s, hs, hIn⟩
      exact ⟨s, List.mem_cons_of_mem _ hs, hIn⟩
    · exact ⟨⟨hi, n⟩, List.mem_cons_self, Nat.le_of_not_lt hOld, hhi⟩

/-- The pieces after the first begin where it ends. -/
theorem after_first (h : Tiling (⟨lo, n⟩ :: spans) lo hi limit) :
    ∀ s ∈ spans, lo + n ≤ s.pos := by
  intro s hs
  have hApart := List.rel_of_pairwise_cons h.apart hs
  have hIn := h.within s (List.mem_cons_of_mem _ hs)
  have hFirst := h.within ⟨lo, n⟩ List.mem_cons_self
  rcases hApart with hAfter | hBefore
  · exact hAfter
  · dsimp only at hBefore hFirst
    omega

/-- `k` cells of the first piece come in, all of it or all below the limit. -/
theorem advance (h : Tiling (⟨lo, n⟩ :: spans) lo hi limit) (hk : k ≤ n)
    (hWhole : k = n ∨ limit ≤ lo + k) : Tiling spans (lo + k) hi limit where
  le := by
    have hFirst := h.within ⟨lo, n⟩ List.mem_cons_self
    dsimp only at hFirst
    omega
  within s hs := by
    have hAfter := h.after_first s hs
    have hIn := h.within s (List.mem_cons_of_mem _ hs)
    omega
  apart := h.apart.of_cons
  covered x hlo hhi hx := by
    rcases h.covered x (by omega) hhi hx with ⟨s, hs, hIn⟩
    rcases List.mem_cons.mp hs with rfl | hs
    · dsimp only at hIn
      omega
    · exact ⟨s, hs, hIn⟩

/-- `k` cells of the first piece come in, and the rest is asked for again. -/
theorem split (h : Tiling (⟨lo, n⟩ :: spans) lo hi limit) (hk : k < n) :
    Tiling (⟨lo + k, n - k⟩ :: spans) (lo + k) hi limit where
  le := by
    have hFirst := h.within ⟨lo, n⟩ List.mem_cons_self
    dsimp only at hFirst
    omega
  within s hs := by
    have hFirst := h.within ⟨lo, n⟩ List.mem_cons_self
    dsimp only at hFirst
    rcases List.mem_cons.mp hs with rfl | hs
    · dsimp only
      omega
    · have hAfter := h.after_first s hs
      have hIn := h.within s (List.mem_cons_of_mem _ hs)
      omega
  apart := by
    refine List.pairwise_cons.mpr ⟨fun s hs => Or.inl ?_, h.apart.of_cons⟩
    have hAfter := h.after_first s hs
    dsimp only
    omega
  covered x hlo hhi hx := by
    rcases h.covered x (by omega) hhi hx with ⟨s, hs, hIn⟩
    rcases List.mem_cons.mp hs with rfl | hs
    · dsimp only at hIn
      exact ⟨⟨lo + k, n - k⟩, List.mem_cons_self, hlo, by dsimp only; omega⟩
    · exact ⟨s, List.mem_cons_of_mem _ hs, hIn⟩

/-- `k` cells of the first piece come in; it was the last, and the range is cut
to fit. -/
theorem retreat (h : Tiling (⟨lo, n⟩ :: spans) lo hi limit) (hLast : lo + n = hi) :
    Tiling spans (lo + k) (lo + k) limit := by
  have hNone : spans = [] := by
    apply List.eq_nil_iff_forall_not_mem.mpr
    intro s hs
    have hAfter := h.after_first s hs
    have hIn := h.within s (List.mem_cons_of_mem _ hs)
    omega
  rw [hNone]
  exact Tiling.nil (lo + k) limit

/-- A piece beyond the limit is given up. -/
theorem drop_beyond (h : Tiling (s :: spans) lo hi limit) (hs : limit ≤ s.pos) :
    Tiling spans lo hi limit where
  le := h.le
  within s hs := h.within s (List.mem_cons_of_mem _ hs)
  apart := h.apart.of_cons
  covered x hlo hhi hx := by
    rcases h.covered x hlo hhi hx with ⟨s', hs', hIn⟩
    rcases List.mem_cons.mp hs' with rfl | hs'
    · omega
    · exact ⟨s', hs', hIn⟩

/-- Nothing below the limit is left when it was all asked for and no piece below
it is on order. -/
theorem exhausted (h : Tiling spans lo hi limit) (hhi : limit ≤ hi)
    (hNone : ∀ s ∈ spans, limit ≤ s.pos) : limit ≤ lo := by
  by_contra hLt
  rcases h.covered lo (Nat.le_refl lo) (by omega) (by omega) with ⟨s, hs, hIn⟩
  have hBeyond := hNone s hs
  omega

end Tiling

end Lftp.Verified
