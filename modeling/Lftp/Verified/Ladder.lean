import Lftp.Verified.BitPrefix
import Mathlib.Data.List.Basic

/-!
# A key space split along the path to one key

Cells are given by a prefix. The first cell of a ladder holds the key `own`; the
others, from longer prefixes to shorter, are what was split off on the way to
it: the one of `m+1` bits holds the keys that leave the path of `own` at bit `m`.

* `Ladder.countP_eq_one`: every key is in one cell.
* `Ladder.unique`: two positions that hold the same key are one.
* `Ladder.split` splits the first cell once more.
* `Ladder.reached_iff` says which cells a search comes to that takes the first cell which
  matches, and looks at one bit less of the prefixes each time.
-/

namespace Lftp.Verified

/-- The keys with a given prefix. -/
structure Cell where
  bits : Nat
  path : Nat → Bool

namespace Cell

/-- The key is in the cell. -/
def Covers (c : Cell) (key : Nat → Bool) : Prop := Agree c.bits c.path key

instance (c : Cell) (key : Nat → Bool) : Decidable (c.Covers key) :=
  inferInstanceAs (Decidable (Agree _ _ _))

end Cell

/-- The cells split off, the longest prefix being of `m` bits. -/
def Rungs (own : Nat → Bool) : Nat → List Cell → Prop
  | 0, [] => True
  | m + 1, c :: cs =>
    (c.bits = m + 1 ∧ Agree m c.path own ∧ c.path m ≠ own m) ∧ Rungs own m cs
  | _, _ => False

/-- The first cell holds `own`, the others were split off on the way. -/
def Ladder (own : Nat → Bool) : List Cell → Prop
  | [] => False
  | c :: cs => Agree c.bits c.path own ∧ Rungs own c.bits cs

variable {own key : Nat → Bool} {c c₀ c₁ : Cell} {cs : List Cell} {m : Nat}

/-- A rung holds the keys that leave the path at its last bit. -/
theorem covers_rung_iff (h : c.bits = m + 1 ∧ Agree m c.path own ∧ c.path m ≠ own m) :
    c.Covers key ↔ Agree m own key ∧ ¬ Agree (m + 1) own key := by
  unfold Cell.Covers
  rw [h.1, agree_succ_iff, agree_succ_iff, not_and]
  constructor
  · rintro ⟨hAgree, hBit⟩
    refine ⟨h.2.1.symm.trans hAgree, fun _ hOwn => ?_⟩
    exact h.2.2 (hBit.trans hOwn.symm)
  · rintro ⟨hAgree, hLeave⟩
    refine ⟨h.2.1.trans hAgree, ?_⟩
    have hNe := hLeave hAgree
    have hNe' := h.2.2
    revert hNe hNe'
    cases c.path m <;> cases own m <;> cases key m <;> simp

/-- The rungs together hold the keys that leave the path. -/
theorem countP_rungs (h : Rungs own m cs) :
    (cs.countP fun c => decide (c.Covers key)) = if Agree m own key then 0 else 1 := by
  induction cs generalizing m with
  | nil =>
      cases m with
      | zero =>
          have hZero : Agree 0 own key := fun k hk => absurd hk (Nat.not_lt_zero k)
          rw [if_pos hZero]
          rfl
      | succ m => exact h.elim
  | cons c cs ih =>
      cases m with
      | zero => exact h.elim
      | succ m =>
          rw [List.countP_cons, ih h.2]
          have hCovers : c.Covers key ↔ Agree m own key ∧ ¬ Agree (m + 1) own key :=
            covers_rung_iff h.1
          by_cases hLong : Agree (m + 1) own key
          · have hShort := hLong.mono (Nat.le_succ m)
            rw [if_pos hShort, if_pos hLong, decide_eq_false (fun hc => (hCovers.mp hc).2 hLong)]
            rfl
          · rw [if_neg hLong]
            by_cases hShort : Agree m own key
            · rw [if_pos hShort, decide_eq_true (hCovers.mpr ⟨hShort, hLong⟩)]
              rfl
            · rw [if_neg hShort, decide_eq_false (fun hc => hShort (hCovers.mp hc).1)]
              rfl

/-- Every key is in one cell. -/
theorem Ladder.countP_eq_one (h : Ladder own cs) (key : Nat → Bool) :
    (cs.countP fun c => decide (c.Covers key)) = 1 := by
  cases cs with
  | nil => exact h.elim
  | cons c cs =>
      have hCovers : c.Covers key ↔ Agree c.bits own key :=
        ⟨fun hc => h.1.symm.trans hc, fun hc => h.1.trans hc⟩
      rw [List.countP_cons, countP_rungs h.2]
      by_cases hOwn : Agree c.bits own key
      · rw [if_pos hOwn, decide_eq_true (hCovers.mpr hOwn)]
        rfl
      · rw [if_neg hOwn, decide_eq_false (fun hc => hOwn (hCovers.mp hc))]
        rfl

/-- Where one element only meets a test, the positions that meet it are one. -/
theorem index_unique_of_countP_eq_one {α : Type} {p : α → Bool} {l : List α}
    (h : l.countP p = 1) {i j : Nat} {a b : α} (hi : l[i]? = some a) (hj : l[j]? = some b)
    (ha : p a = true) (hb : p b = true) : i = j := by
  induction l generalizing i j with
  | nil => cases hi
  | cons x l ih =>
      -- the head takes the one place, so that nothing else may meet the test
      have hTail : p x = true → ∀ k : Nat, ∀ c, l[k]? = some c → p c = true → False := by
        intro hx k c hk hc
        rw [List.countP_cons_of_pos hx] at h
        exact List.countP_eq_zero.mp (by omega : l.countP p = 0) c (List.mem_of_getElem? hk) hc
      cases i with
      | zero =>
          cases Option.some.inj hi
          cases j with
          | zero => rfl
          | succ j => exact (hTail ha j b hj hb).elim
      | succ i =>
          cases j with
          | zero =>
              cases Option.some.inj hj
              exact (hTail hb i a hi ha).elim
          | succ j =>
              by_cases hx : p x = true
              · exact (hTail hx i a hi ha).elim
              · rw [List.countP_cons_of_neg hx] at h
                rw [ih h hi hj]

/-- The whole space is a ladder of one cell. -/
theorem ladder_whole (own : Nat → Bool) (path : Nat → Bool) : Ladder own [⟨0, path⟩] :=
  ⟨fun k hk => absurd hk (Nat.not_lt_zero k), trivial⟩

/-- The first cell is split in the half of `own` and the other one. -/
theorem Ladder.split (h : Ladder own (c :: cs)) (h₀ : c₀.bits = c.bits + 1)
    (h₁ : c₁.bits = c.bits + 1) (hPath₀ : Agree c.bits c₀.path c.path)
    (hPath₁ : Agree c.bits c₁.path c.path) (hOwn : c₀.path c.bits = own c.bits)
    (hOther : c₁.path c.bits ≠ own c.bits) : Ladder own (c₀ :: c₁ :: cs) := by
  show Agree c₀.bits c₀.path own ∧ Rungs own c₀.bits (c₁ :: cs)
  rw [h₀, agree_succ_iff]
  exact ⟨⟨hPath₀.trans h.1, hOwn⟩, ⟨h₁, hPath₁.trans h.1, hOther⟩, h.2⟩

/-- A key of the first cell is in the half that has its bit. -/
theorem covers_half (h : c.Covers key) (h₀ : c₀.bits = c.bits + 1)
    (hPath : Agree c.bits c₀.path c.path) (hBit : c₀.path c.bits = key c.bits) :
    c₀.Covers key := by
  unfold Cell.Covers
  rw [h₀, agree_succ_iff]
  exact ⟨hPath.trans h, hBit⟩

/-! ## Looking at fewer bits -/

/-- The key is in the cell as far as all but the last `skew` bits of the prefix go. -/
def Cell.Near (c : Cell) (skew : Nat) (key : Nat → Bool) : Prop := Agree (c.bits - skew) c.path key

instance (c : Cell) (skew : Nat) (key : Nat → Bool) : Decidable (c.Near skew key) :=
  inferInstanceAs (Decidable (Agree _ _ _))

/-- A key that leaves the path below `m` does so at some bit. -/
theorem exists_leaves (h : ¬ Agree m own key) :
    ∃ k < m, Agree k own key ∧ ¬ Agree (k + 1) own key := by
  induction m with
  | zero => exact absurd (fun k hk => absurd hk (Nat.not_lt_zero k)) h
  | succ m ih =>
      by_cases hShort : Agree m own key
      · exact ⟨m, Nat.lt_succ_self m, hShort, h⟩
      · rcases ih hShort with ⟨k, hk, hBoth⟩
        exact ⟨k, Nat.lt_succ_of_lt hk, hBoth⟩

section

variable {α : Type} {f : α → Cell} {l : List α} {x a : α} {skew n : Nat}

theorem Rungs.mem (h : Rungs own m (l.map f)) (ha : a ∈ l) :
    0 < (f a).bits ∧ (f a).bits ≤ m ∧ Agree ((f a).bits - 1) (f a).path own ∧
      ¬ Agree (f a).bits (f a).path own := by
  induction l generalizing m with
  | nil => exact absurd ha List.not_mem_nil
  | cons y l ih =>
      cases m with
      | zero => exact h.elim
      | succ m =>
          rcases List.mem_cons.mp ha with hFirst | hRest
          · subst hFirst
            rcases h.1 with ⟨hBits, hPath, hBit⟩
            rw [hBits]
            refine ⟨Nat.succ_pos m, Nat.le_refl _, hPath, fun hAgree => ?_⟩
            exact hBit (agree_succ_iff.mp hAgree).2
          · have hLater := ih h.2 hRest
            exact ⟨hLater.1, Nat.le_succ_of_le hLater.2.1, hLater.2.2⟩

/-- Short of its last bit a rung is on the path. -/
theorem Rungs.near_iff (h : Rungs own m (l.map f)) (ha : a ∈ l) (hSkew : 0 < skew) :
    (f a).Near skew key ↔ Agree ((f a).bits - skew) own key := by
  have hPath := (h.mem ha).2.2.1.mono (m := (f a).bits - skew) (by omega)
  exact ⟨fun hNear => hPath.symm.trans hNear, fun hOwn => hPath.trans hOwn⟩

/-- The first rung that matches short of some bits is the longest one whose rest the key does
not leave. -/
theorem Rungs.find?_near_iff (h : Rungs own m (l.map f)) (hSkew : 0 < skew) :
    l.find? (fun a => decide ((f a).Near skew key)) = some a ↔
      a ∈ l ∧ Agree ((f a).bits - skew) own key ∧
        ((f a).bits = m ∨ ¬ Agree ((f a).bits + 1 - skew) own key) := by
  induction l generalizing m with
  | nil => simp
  | cons y l ih =>
      cases m with
      | zero => exact h.elim
      | succ m =>
          have hBits : (f y).bits = m + 1 := h.1.1
          have hNear : (f y).Near skew key ↔ Agree ((f y).bits - skew) own key :=
            h.near_iff List.mem_cons_self hSkew
          have hRest : ∀ b ∈ l, (f b).bits ≤ m := fun b hb => (h.2.mem hb).2.1
          rw [hBits] at hNear
          by_cases hFirst : Agree (m + 1 - skew) own key
          · rw [List.find?_cons_of_pos (by exact decide_eq_true (hNear.mpr hFirst))]
            constructor
            · intro hEq
              rw [← Option.some.inj hEq, hBits]
              exact ⟨List.mem_cons_self, hFirst, .inl rfl⟩
            · intro ⟨hMem, hAgree, hLast⟩
              rcases List.mem_cons.mp hMem with hEq | hLater
              · rw [hEq]
              · have hLe := hRest a hLater
                rcases hLast with hTop | hLeaves
                · omega
                · exact absurd (hFirst.mono (by omega)) hLeaves
          · rw [List.find?_cons_of_neg (by simpa using fun hN => hFirst (hNear.mp hN)), ih h.2]
            constructor
            · intro ⟨hMem, hAgree, hLast⟩
              refine ⟨List.mem_cons_of_mem y hMem, hAgree, .inr ?_⟩
              rcases hLast with hTop | hLeaves
              · rw [hTop]
                exact hFirst
              · exact hLeaves
            · intro ⟨hMem, hAgree, hLast⟩
              rcases List.mem_cons.mp hMem with hEq | hLater
              · rw [hEq, hBits] at hAgree
                exact absurd hAgree hFirst
              · have hLe := hRest a hLater
                exact ⟨hLater, hAgree, hLast.imp (fun hTop => by omega) id⟩

/-- The first rung that matches is the one of the bit at which the key leaves the path. -/
theorem Rungs.find?_covers_iff (h : Rungs own m (l.map f)) :
    l.find? (fun a => decide ((f a).Near 0 key)) = some a ↔
      a ∈ l ∧ Agree ((f a).bits - 1) own key ∧ ¬ Agree (f a).bits own key := by
  induction l generalizing m with
  | nil => simp
  | cons y l ih =>
      cases m with
      | zero => exact h.elim
      | succ m =>
          have hBits : (f y).bits = m + 1 := h.1.1
          have hCovers : (f y).Near 0 key ↔ Agree m own key ∧ ¬ Agree (m + 1) own key :=
            covers_rung_iff h.1
          by_cases hFirst : (f y).Near 0 key
          · have hLeaves := hCovers.mp hFirst
            rw [List.find?_cons_of_pos (by exact decide_eq_true hFirst)]
            constructor
            · intro hEq
              rw [← Option.some.inj hEq, hBits]
              exact ⟨List.mem_cons_self, hLeaves⟩
            · intro ⟨hMem, _, hLater⟩
              rcases List.mem_cons.mp hMem with hEq | hRest
              · rw [hEq]
              · exact absurd (hLeaves.1.mono (h.2.mem hRest).2.1) hLater
          · rw [List.find?_cons_of_neg (by simpa using hFirst), ih h.2]
            constructor
            · intro ⟨hMem, hLeaves⟩
              exact ⟨List.mem_cons_of_mem y hMem, hLeaves⟩
            · intro ⟨hMem, hLeaves⟩
              rcases List.mem_cons.mp hMem with hEq | hRest
              · rw [hEq, hBits] at hLeaves
                exact absurd (hCovers.mpr hLeaves) hFirst
              · exact ⟨hRest, hLeaves⟩

/-- The cells of a ladder with `top` bits in the first one that a search for the key comes to
when it looks at up to `n-1` bits less: the first one, unless the key leaves the path too early;
and those from which the key leaves the path within the prefix, but of the longest two only the
one that holds it. -/
def Cell.Reached (own key : Nat → Bool) (top n : Nat) (c : Cell) : Prop :=
  if Agree c.bits c.path own then Agree (c.bits - (n - 1)) own key
  else ¬ Agree c.bits own key ∧ (c.bits < top ∨ Agree (c.bits - 1) own key)

instance (own key : Nat → Bool) (top n : Nat) (c : Cell) : Decidable (c.Reached own key top n) :=
  inferInstanceAs (Decidable (if Agree c.bits c.path own then Agree (c.bits - (n - 1)) own key
    else ¬ Agree c.bits own key ∧ (c.bits < top ∨ Agree (c.bits - 1) own key)))

theorem Ladder.reached_iff (h : Ladder own ((x :: l).map f)) (hTop : (f x).bits ≤ n)
    (hn : 0 < n) :
    (∃ skew < n, (x :: l).find? (fun a => decide ((f a).Near skew key)) = some a) ↔
      a ∈ x :: l ∧ (f a).Reached own key (f x).bits n := by
  rcases h with ⟨hOwn, hRungs⟩
  have hNear : ∀ skew, (f x).Near skew key ↔ Agree ((f x).bits - skew) own key := fun skew =>
    have hPath := hOwn.mono (Nat.sub_le _ skew)
    ⟨fun hN => hPath.symm.trans hN, fun hA => hPath.trans hA⟩
  unfold Cell.Reached
  constructor
  · intro ⟨skew, hLt, hFind⟩
    by_cases hFirst : (f x).Near skew key
    · rw [List.find?_cons_of_pos (by exact decide_eq_true hFirst)] at hFind
      rw [← Option.some.inj hFind, if_pos hOwn]
      exact ⟨List.mem_cons_self, ((hNear skew).mp hFirst).mono (by omega)⟩
    · rw [List.find?_cons_of_neg (by simpa using hFirst)] at hFind
      rw [hNear] at hFirst
      rcases Nat.eq_zero_or_pos skew with hZero | hPos
      · rw [hZero] at hFind
        rcases hRungs.find?_covers_iff.mp hFind with ⟨hMem, hShort, hLong⟩
        rw [if_neg (hRungs.mem hMem).2.2.2]
        exact ⟨List.mem_cons_of_mem x hMem, hLong, .inr hShort⟩
      · rcases (hRungs.find?_near_iff hPos).mp hFind with ⟨hMem, hAgree, hLast⟩
        have hRung := hRungs.mem hMem
        have hNotTop : (f a).bits ≠ (f x).bits := fun hEq => hFirst (hEq ▸ hAgree)
        have hLeaves := hLast.resolve_left hNotTop
        rw [if_neg hRung.2.2.2]
        refine ⟨List.mem_cons_of_mem x hMem, fun hLong => ?_, .inl (by omega)⟩
        exact hLeaves (hLong.mono (by omega))
  · intro ⟨hMem, hReached⟩
    rcases List.mem_cons.mp hMem with hEq | hRest
    · subst hEq
      rw [if_pos hOwn] at hReached
      refine ⟨n - 1, by omega, ?_⟩
      exact List.find?_cons_of_pos (by exact decide_eq_true ((hNear _).mpr hReached))
    · have hRung := hRungs.mem hRest
      rw [if_neg hRung.2.2.2] at hReached
      rcases hReached with ⟨hLong, hLess | hShort⟩
      · rcases exists_leaves hLong with ⟨k, hk, hAgree, hLeaves⟩
        have hPast : ¬ (f x).Near ((f a).bits - k) key := fun hN =>
          hLeaves (((hNear _).mp hN).mono (by omega))
        refine ⟨(f a).bits - k, by omega, ?_⟩
        rw [List.find?_cons_of_neg (by simpa using hPast), hRungs.find?_near_iff (by omega)]
        refine ⟨hRest, ?_, .inr ?_⟩
        · rwa [show (f a).bits - ((f a).bits - k) = k by omega]
        · rwa [show (f a).bits + 1 - ((f a).bits - k) = k + 1 by omega]
      · have hPast : ¬ (f x).Near 0 key := fun hN =>
          hLong (((hNear 0).mp hN).mono hRung.2.1)
        refine ⟨0, hn, ?_⟩
        rw [List.find?_cons_of_neg (by simpa using hPast), hRungs.find?_covers_iff]
        exact ⟨hRest, hShort, hLong⟩

end

end Lftp.Verified
