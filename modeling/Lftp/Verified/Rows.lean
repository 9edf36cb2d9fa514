import Mathlib.Data.List.Basic

/-!
# Rows kept in the order of a key

A row is a list whose elements have increasing keys, so that each key stands in it at
most once. `lookup` finds the element with a key; a row that is searched by bisection,
cut down or merged with another is known by what `lookup` finds afterwards.

* `lowerBound_position`: bisection finds the place of a key.
* `lookup_filter`, `lookup_insertAt`, `lookup_modify`: lookups after each change.
* `mergeRows_merged`: two rows merged by walking along both.
-/

namespace Lftp.Verified.Rows

/-! ## Bisection -/

/-- The first place from `l` to `u` that is not below, when `u` is not. -/
def bisect (cmp : Nat → Ordering) (l u : Nat) : Nat :=
  if _h : l < u then
    match cmp ((l + u) / 2) with
    | .gt => bisect cmp l ((l + u) / 2)
    | .lt => bisect cmp ((l + u) / 2 + 1) u
    | .eq => (l + u) / 2
  else u
termination_by u - l
decreasing_by all_goals omega

/-- Where bisection ends: what is to the left is below, and it is not below itself. -/
theorem bisect_spec {cmp : Nat → Ordering} {l u : Nat} (hLe : l ≤ u)
    (hOrder : ∀ i j, i < j → j ≤ u → cmp j ≠ .gt → cmp i = .lt)
    (hBelow : ∀ i, i < l → cmp i = .lt) (hTop : cmp u ≠ .lt) :
    bisect cmp l u ≤ u ∧ cmp (bisect cmp l u) ≠ .lt ∧ ∀ i, i < bisect cmp l u → cmp i = .lt := by
  fun_induction bisect cmp l u with
  | case1 l u hlt hMid ih =>
      obtain ⟨hUpper, hRest⟩ := ih (by omega) (fun i j hij hj => hOrder i j hij (by omega)) hBelow
        (by rw [hMid]; decide)
      exact ⟨by omega, hRest⟩
  | case2 l u hlt hMid ih =>
      refine ih (by omega) hOrder (fun i hi => ?_) hTop
      rcases Nat.lt_or_eq_of_le (Nat.le_of_lt_succ hi) with hLess | hEq
      · exact hOrder i _ hLess (by omega) (by rw [hMid]; decide)
      · rw [hEq, hMid]
  | case3 l u hlt hMid =>
      exact ⟨by omega, by rw [hMid]; decide,
        fun i hi => hOrder i _ hi (by omega) (by rw [hMid]; decide)⟩
  | case4 l u hlt =>
      have hEq : l = u := by omega
      subst hEq
      exact ⟨Nat.le_refl _, hTop, hBelow⟩

/-! ## Rows -/

variable {α κ : Type} [Ord κ] {key : α → κ} {row left right : List α} {a : α} {k : κ}

/-- The keys increase from left to right. -/
def Increasing (key : α → κ) (row : List α) : Prop :=
  row.Pairwise fun a b => compare (key a) (key b) = .lt

/-- The first element with the key. -/
def lookup (key : α → κ) (row : List α) (k : κ) : Option α :=
  row.find? fun a => compare (key a) k == .eq

/-- `p` is the place of the key `k`. -/
structure Position (key : α → κ) (row : List α) (k : κ) (p : Nat) : Prop where
  bound : p ≤ row.length
  left : ∀ b ∈ row.take p, compare (key b) k = .lt
  right : ∀ b ∈ row.drop p, compare (key b) k ≠ .lt

theorem Increasing.filter (h : Increasing key row) (p : α → Bool) :
    Increasing key (row.filter p) :=
  List.Pairwise.filter p h

theorem lookup_append (row row' : List α) (k : κ) :
    lookup key (row ++ row') k = (lookup key row k).or (lookup key row' k) :=
  List.find?_append

theorem lookup_cons (a : α) (row : List α) (k : κ) : lookup key (a :: row) k
    = if compare (key a) k = .eq then some a else lookup key row k := by
  unfold lookup
  rw [List.find?_cons]
  by_cases h : compare (key a) k = .eq
  · simp [h]
  · have hFalse : (compare (key a) k == Ordering.eq) = false := by
      rw [beq_eq_false_iff_ne]
      exact h
    simp [hFalse, h]

theorem lookup_singleton (a : α) (k : κ) :
    lookup key [a] k = if compare (key a) k = .eq then some a else none :=
  lookup_cons a [] k

theorem increasing_middle (h : Increasing key (left ++ right))
    (hLeft : ∀ b ∈ left, compare (key b) (key a) = .lt)
    (hRight : ∀ b ∈ right, compare (key a) (key b) = .lt) :
    Increasing key (left ++ a :: right) := by
  have hParts := List.pairwise_append.mp h
  refine List.pairwise_append.mpr ⟨hParts.1, List.pairwise_cons.mpr ⟨hRight, hParts.2.1⟩, ?_⟩
  intro b hb c hc
  rcases List.mem_cons.mp hc with hEq | hTail
  · rw [hEq]
    exact hLeft b hb
  · exact hParts.2.2 b hb c hTail

/-! ## Places -/

section
variable [Std.TransOrd κ]

/-- What stands before an element that is not above `k` is below `k`. -/
theorem Increasing.below (h : Increasing key row) {i j : Nat} (hij : i < j)
    (hj : j < row.length) (hNot : compare (key row[j]) k ≠ .gt) :
    compare (key row[i]) k = .lt := by
  have hLt := List.pairwise_iff_getElem.mp h i j (Nat.lt_trans hij hj) hj hij
  apply Std.TransCmp.lt_of_lt_of_isLE hLt
  rw [Ordering.isLE_iff_ne_gt]
  exact hNot

/-- What is below the head is below the whole row. -/
theorem Increasing.before (h : Increasing key (a :: row)) (hLt : compare k (key a) = .lt) :
    ∀ b ∈ a :: row, compare k (key b) = .lt := by
  intro b hb
  rcases List.mem_cons.mp hb with hHead | hTail
  · rw [hHead]
    exact hLt
  · exact Std.TransCmp.lt_trans hLt ((List.pairwise_cons.mp h).1 b hTail)

/-- A place is known from the elements around it. -/
theorem position_of_index (h : Increasing key row) {p : Nat} (hp : p ≤ row.length)
    (hLeft : ∀ i (hi : i < row.length), i < p → compare (key row[i]) k = .lt)
    (hHere : ∀ hi : p < row.length, compare (key row[p]) k ≠ .lt) : Position key row k p := by
  constructor
  · exact hp
  · intro b hb
    obtain ⟨i, hi, hEq⟩ := List.getElem_of_mem hb
    rw [List.length_take] at hi
    rw [← hEq, List.getElem_take]
    exact hLeft i (by omega) (by omega)
  · intro b hb hLt
    obtain ⟨i, hi, hEq⟩ := List.getElem_of_mem hb
    rw [List.length_drop] at hi
    rw [List.getElem_drop] at hEq
    have hNot := hHere (by omega)
    rcases Nat.eq_zero_or_pos i with hZero | hPos
    · subst hZero
      subst hEq
      exact hNot hLt
    · rw [← hEq] at hLt
      apply hNot
      apply h.below (Nat.lt_add_of_pos_right hPos) (by omega)
      rw [hLt]
      decide

/-- The place that bisection finds for the key `k`. -/
def lowerBound (key : α → κ) (row : List α) (k : κ) : Nat :=
  match row.getLast? with
  | none => 0
  | some last =>
    if compare (key last) k = .lt then row.length
    else bisect (fun i => (row[i]?.map fun a => compare (key a) k).getD .gt) 0 (row.length - 1)

theorem lowerBound_position (h : Increasing key row) (k : κ) :
    Position key row k (lowerBound key row k) := by
  rcases Nat.eq_zero_or_pos row.length with hNil | hPos
  · rw [List.length_eq_zero_iff] at hNil
    subst hNil
    exact ⟨Nat.le_refl _, by simp, by simp⟩
  · unfold lowerBound
    rw [List.getLast?_eq_getElem?, List.getElem?_eq_getElem (by omega)]
    dsimp only
    have hAt : ∀ i (hi : i < row.length),
        (row[i]?.map fun a => compare (key a) k).getD .gt = compare (key row[i]) k := by
      intro i hi
      rw [List.getElem?_eq_getElem hi]
      rfl
    by_cases hLast : compare (key row[row.length - 1]) k = .lt
    · rw [if_pos hLast]
      apply position_of_index h (Nat.le_refl _)
      · intro i hi _
        rcases Nat.lt_or_eq_of_le (Nat.le_sub_one_of_lt hi) with hLess | hEq
        · apply h.below hLess (by omega)
          rw [hLast]
          decide
        · subst hEq
          exact hLast
      · omega
    · rw [if_neg hLast]
      have hOrder : ∀ i j, i < j → j ≤ row.length - 1 →
          (row[j]?.map fun a => compare (key a) k).getD .gt ≠ .gt →
          (row[i]?.map fun a => compare (key a) k).getD .gt = .lt := by
        intro i j hij hj hNot
        rw [hAt j (by omega)] at hNot
        rw [hAt i (by omega)]
        exact h.below hij (by omega) hNot
      obtain ⟨hLe, hHere, hLeft⟩ := bisect_spec (Nat.zero_le (row.length - 1)) hOrder (by omega)
        (by rw [hAt _ (by omega)]; exact hLast)
      apply position_of_index h (by omega)
      · intro i hi hLt
        rw [← hAt i hi]
        exact hLeft i hLt
      · intro hi
        rw [← hAt _ hi]
        exact hHere

end

/-! ## Lookups -/

variable [Std.LawfulEqOrd κ]

theorem lookup_some (h : lookup key row k = some a) : a ∈ row ∧ key a = k := by
  have hKey := List.find?_some h
  rw [beq_iff_eq] at hKey
  exact ⟨List.mem_of_find?_eq_some h, Std.LawfulEqOrd.eq_of_compare hKey⟩

theorem lookup_none : lookup key row k = none ↔ ∀ a ∈ row, key a ≠ k := by
  unfold lookup
  simp [List.find?_eq_none]

/-- An element of a row is found under its key. -/
theorem lookup_mem (h : Increasing key row) (ha : a ∈ row) : lookup key row (key a) = some a := by
  induction row with
  | nil => cases ha
  | cons b row ih =>
      rw [lookup_cons]
      have hRow := List.pairwise_cons.mp h
      rcases List.mem_cons.mp ha with hHead | hTail
      · rw [hHead, if_pos Std.ReflOrd.compare_self]
      · have hLt := hRow.1 a hTail
        rw [if_neg (by rw [hLt]; decide)]
        exact ih hRow.2 hTail

theorem lookup_filter (h : Increasing key row) (p : α → Bool) (k : κ) :
    lookup key (row.filter p) k = (lookup key row k).filter p := by
  cases hFound : lookup key row k with
  | none =>
      rw [lookup_none] at hFound
      rw [Option.filter_none, lookup_none]
      exact fun b hb => hFound b (List.mem_filter.mp hb).1
  | some a =>
      obtain ⟨hMem, hKey⟩ := lookup_some hFound
      by_cases hp : p a = true
      · rw [Option.filter_some, if_pos hp, ← hKey]
        exact lookup_mem (h.filter p) (List.mem_filter.mpr ⟨hMem, hp⟩)
      · rw [Option.filter_some, if_neg hp, lookup_none]
        intro b hb hEq
        have hSame : b = a := by
          have hOther := lookup_mem h (List.mem_filter.mp hb).1
          rw [hEq, hFound] at hOther
          exact (Option.some.inj hOther).symm
        rw [hSame] at hb
        exact hp (List.mem_filter.mp hb).2

/-- What is found stands at the place of its key. -/
theorem lookup_place (h : Increasing key row) {p : Nat} (hPos : Position key row k p) :
    lookup key row k = (row[p]?).filter fun a => compare (key a) k == .eq := by
  have hLeft : lookup key (row.take p) k = none := by
    rw [lookup_none]
    intro b hb hEq
    have hLt := hPos.left b hb
    rw [hEq, Std.ReflOrd.compare_self] at hLt
    cases hLt
  conv_lhs => rw [← List.take_append_drop p row]
  rw [lookup_append, hLeft, Option.none_or]
  have hDrop : Increasing key (row.drop p) := List.Pairwise.drop h
  have hHead : row[p]? = (row.drop p).head? := by
    rw [List.head?_drop]
  rw [hHead]
  have hRight := hPos.right
  cases hCase : row.drop p with
  | nil => rfl
  | cons b rest =>
      rw [hCase] at hDrop hRight
      rw [lookup_cons, List.head?_cons, Option.filter_some]
      by_cases hEq : compare (key b) k = .eq
      · simp [hEq]
      · have hGt : compare (key b) k = .gt := by
          cases hCmp : compare (key b) k with
          | lt => exact absurd hCmp (hRight b List.mem_cons_self)
          | eq => exact absurd hCmp hEq
          | gt => rfl
        have hNone : lookup key rest k = none := by
          rw [lookup_none]
          intro c hc hKey
          have hLt := (List.pairwise_cons.mp hDrop).1 c hc
          rw [hKey, hGt] at hLt
          cases hLt
        rw [if_neg hEq, hNone, hGt]
        rfl

/-! ## One more element -/

theorem lookup_middle (hLeft : ∀ b ∈ left, compare (key b) (key a) = .lt) (k : κ) :
    lookup key (left ++ a :: right) k
      = if compare (key a) k = .eq then some a else lookup key (left ++ right) k := by
  rw [lookup_append, lookup_cons, lookup_append]
  by_cases hEq : compare (key a) k = .eq
  · have hNone : lookup key left k = none := by
      rw [lookup_none]
      intro b hb hKey
      have hLt := hLeft b hb
      rw [hKey, Std.LawfulEqOrd.eq_of_compare hEq, Std.ReflOrd.compare_self] at hLt
      cases hLt
    rw [if_pos hEq, if_pos hEq, hNone, Option.none_or]
  · rw [if_neg hEq, if_neg hEq]

/-! ## Merging -/

/-- What comes of an element of the first row and one of the second, with the same key. -/
def join (g : α → α → α) : Option α → Option α → Option α
  | some a, some b => some (g a b)
  | some a, none => some a
  | none, b => b

/-- `out` is the two rows together. -/
structure Merged (key : α → κ) (g : α → α → α) (row row' out : List α) : Prop where
  increasing : Increasing key out
  lookup_eq : ∀ k, lookup key out k = join g (lookup key row k) (lookup key row' k)

/-- Two rows merged by walking along both. -/
def mergeRows (key : α → κ) (g : α → α → α) : List α → List α → List α
  | [], row' => row'
  | row, [] => row
  | a :: row, b :: row' =>
    match compare (key a) (key b) with
    | .eq => g a b :: mergeRows key g row row'
    | .gt => b :: mergeRows key g (a :: row) row'
    | .lt => a :: mergeRows key g row (b :: row')

/-- One element merged into a row at its place. -/
def mergeOne (key : α → κ) (g : α → α → α) (row : List α) (a : α) : List α :=
  let p := lowerBound key row (key a)
  match row[p]? with
  | some b =>
    if compare (key b) (key a) = .eq then row.set p (g b a) else row.take p ++ a :: row.drop p
  | none => row.take p ++ a :: row.drop p

variable {g : α → α → α} {row' out : List α}

theorem lookup_none_of_lt (h : ∀ b ∈ row, compare k (key b) = .lt) : lookup key row k = none := by
  rw [lookup_none]
  intro b hb hEq
  have hLt := h b hb
  rw [hEq, Std.ReflOrd.compare_self] at hLt
  cases hLt

/-- Nothing but the keys of the two rows. -/
theorem Merged.mem_key (h : Merged key g row row' out) (ha : a ∈ out) :
    (∃ b ∈ row, key b = key a) ∨ ∃ b ∈ row', key b = key a := by
  have hFound := lookup_mem h.increasing ha
  rw [h.lookup_eq] at hFound
  cases hRow : lookup key row (key a) with
  | some b => exact .inl ⟨b, lookup_some hRow⟩
  | none =>
      rw [hRow] at hFound
      exact .inr ⟨a, lookup_some hFound⟩

/-- A row is known by what is found in it. -/
theorem eq_of_lookup_eq [Std.TransOrd κ] (h : Increasing key row) (h' : Increasing key row')
    (hLookup : ∀ k, lookup key row k = lookup key row' k) : row = row' := by
  have hNodup : ∀ {r : List α}, Increasing key r → r.Nodup := fun hr =>
    hr.imp fun hLt hEq => by
      rw [hEq, Std.ReflOrd.compare_self] at hLt
      cases hLt
  have hPerm : row.Perm row' := by
    rw [List.perm_ext_iff_of_nodup (hNodup h) (hNodup h')]
    intro a
    constructor
    · intro ha
      have hFound := lookup_mem h ha
      rw [hLookup] at hFound
      exact (lookup_some hFound).1
    · intro ha
      have hFound := lookup_mem h' ha
      rw [← hLookup] at hFound
      exact (lookup_some hFound).1
  refine List.Perm.eq_of_pairwise (fun a b _ _ hab hba => ?_) h h' hPerm
  rw [Std.OrientedCmp.gt_of_lt hba] at hab
  cases hab

theorem Merged.unique [Std.TransOrd κ] {out' : List α} (h : Merged key g row row' out)
    (h' : Merged key g row row' out') : out = out' :=
  eq_of_lookup_eq h.increasing h'.increasing fun k => by rw [h.lookup_eq, h'.lookup_eq]

/-- An element before everything in both rows goes first. -/
theorem Merged.cons_lt (h : Merged key g row row' out) (hRow : ∀ b ∈ row, compare (key a) (key b) = .lt)
    (hRow' : ∀ b ∈ row', compare (key a) (key b) = .lt) : Increasing key (a :: out) := by
  refine List.pairwise_cons.mpr ⟨fun c hc => ?_, h.increasing⟩
  rcases h.mem_key hc with ⟨b, hb, hKey⟩ | ⟨b, hb, hKey⟩
  · rw [← hKey]
    exact hRow b hb
  · rw [← hKey]
    exact hRow' b hb

theorem mergeRows_merged [Std.TransOrd κ] (hg : ∀ a b, key a = key b → key (g a b) = key a)
    (h : Increasing key row) (h' : Increasing key row') :
    Merged key g row row' (mergeRows key g row row') := by
  fun_induction mergeRows key g row row' with
  | case1 row' => exact ⟨h', fun k => by cases lookup key row' k <;> rfl⟩
  | case2 row hne => exact ⟨h, fun k => by cases lookup key row k <;> rfl⟩
  | case3 a row b row' hEq ih =>
      have hRow := List.pairwise_cons.mp h
      have hRow' := List.pairwise_cons.mp h'
      have hKey := Std.LawfulEqOrd.eq_of_compare hEq
      have hMerged := ih hRow.2 hRow'.2
      constructor
      · apply hMerged.cons_lt
        · rw [hg a b hKey]
          exact hRow.1
        · rw [hg a b hKey, hKey]
          exact hRow'.1
      · intro k
        rw [lookup_cons, lookup_cons, lookup_cons, hg a b hKey, ← hKey, hMerged.lookup_eq]
        by_cases hk : compare (key a) k = .eq
        · rw [if_pos hk, if_pos hk, if_pos hk]
          rfl
        · rw [if_neg hk, if_neg hk, if_neg hk]
  | case4 a row b row' hGt ih =>
      have hLt := Std.OrientedCmp.gt_iff_lt.mp hGt
      have hRow := List.pairwise_cons.mp h
      have hRow' := List.pairwise_cons.mp h'
      have hBefore := h.before hLt
      have hMerged := ih h hRow'.2
      refine ⟨hMerged.cons_lt hBefore hRow'.1, fun k => ?_⟩
      rw [lookup_cons, lookup_cons b row', hMerged.lookup_eq]
      by_cases hk : compare (key b) k = .eq
      · rw [if_pos hk, if_pos hk, ← Std.LawfulEqOrd.eq_of_compare hk,
          lookup_none_of_lt hBefore]
        rfl
      · rw [if_neg hk, if_neg hk]
  | case5 a row b row' hLt ih =>
      have hRow := List.pairwise_cons.mp h
      have hRow' := List.pairwise_cons.mp h'
      have hBefore := h'.before hLt
      have hMerged := ih hRow.2 h'
      refine ⟨hMerged.cons_lt hRow.1 hBefore, fun k => ?_⟩
      rw [lookup_cons, lookup_cons a row, hMerged.lookup_eq]
      by_cases hk : compare (key a) k = .eq
      · rw [if_pos hk, if_pos hk, ← Std.LawfulEqOrd.eq_of_compare hk,
          lookup_none_of_lt hBefore]
        rfl
      · rw [if_neg hk, if_neg hk]

/-- An element with a new key is put in at its place. -/
theorem merged_insert [Std.TransOrd κ] (h : Increasing key row) {p : Nat}
    (hPos : Position key row (key a) p) (hNone : lookup key row (key a) = none) :
    Merged key g row [a] (row.take p ++ a :: row.drop p) := by
  have hSplit : row.take p ++ row.drop p = row := List.take_append_drop p row
  constructor
  · apply increasing_middle
    · rw [hSplit]
      exact h
    · exact hPos.left
    · intro b hb
      have hNe : key b ≠ key a := lookup_none.mp hNone b (List.mem_of_mem_drop hb)
      have hNot := hPos.right b hb
      rw [← Std.OrientedCmp.gt_iff_lt]
      cases hCmp : compare (key b) (key a) with
      | lt => exact absurd hCmp hNot
      | eq => exact absurd (Std.LawfulEqOrd.eq_of_compare hCmp) hNe
      | gt => rfl
  · intro k
    rw [lookup_middle hPos.left, hSplit, lookup_singleton]
    by_cases hk : compare (key a) k = .eq
    · rw [if_pos hk, if_pos hk, ← Std.LawfulEqOrd.eq_of_compare hk, hNone]
      rfl
    · rw [if_neg hk, if_neg hk]
      cases lookup key row k <;> rfl

theorem mergeOne_merged [Std.TransOrd κ] (hg : ∀ a b, key a = key b → key (g a b) = key a)
    (h : Increasing key row) (a : α) : Merged key g row [a] (mergeOne key g row a) := by
  have hPos := lowerBound_position h (key a)
  have hFound := lookup_place h hPos
  unfold mergeOne
  dsimp only
  generalize lowerBound key row (key a) = p at hPos hFound
  cases hAt : row[p]? with
  | none =>
      rw [hAt] at hFound
      exact merged_insert h hPos hFound
  | some b =>
      rw [hAt, Option.filter_some] at hFound
      dsimp only
      by_cases hEq : compare (key b) (key a) = .eq
      · rw [if_pos hEq]
        have hKey : key b = key a := Std.LawfulEqOrd.eq_of_compare hEq
        have hLt : p < row.length := (List.getElem?_eq_some_iff.mp hAt).1
        have hRow : row = row.take p ++ b :: row.drop (p + 1) := by
          conv_lhs => rw [← List.take_append_drop p row, List.drop_eq_getElem_cons hLt]
          rw [(List.getElem?_eq_some_iff.mp hAt).2]
        have hLeft := hPos.left
        rw [← hKey] at hLeft
        have hParts := List.pairwise_append.mp (hRow ▸ h)
        rw [List.set_eq_take_append_cons_drop, if_pos hLt]
        constructor
        · apply increasing_middle
          · apply List.Pairwise.sublist _ h
            conv_rhs => rw [hRow]
            exact (List.sublist_cons_self b _).append_left _
          · rw [hg b a hKey]
            exact hLeft
          · rw [hg b a hKey]
            exact (List.pairwise_cons.mp hParts.2.1).1
        · intro k
          rw [lookup_middle (by rw [hg b a hKey]; exact hLeft), hg b a hKey, lookup_singleton,
            ← hKey]
          conv_rhs => rw [hRow, lookup_middle hLeft]
          by_cases hk : compare (key b) k = .eq
          · rw [if_pos hk, if_pos hk, if_pos hk]
            rfl
          · rw [if_neg hk, if_neg hk, if_neg hk]
            cases lookup key (row.take p ++ row.drop (p + 1)) k <;> rfl
      · rw [if_neg hEq]
        have hFalse : (compare (key b) (key a) == Ordering.eq) = false := by
          rw [beq_eq_false_iff_ne]
          exact hEq
        rw [hFalse] at hFound
        exact merged_insert h hPos hFound

/-- A whole row merged in, one element after the other. -/
theorem foldl_mergeOne_merged [Std.TransOrd κ] (hg : ∀ a b, key a = key b → key (g a b) = key a)
    (h : Increasing key row) (h' : Increasing key row') :
    Merged key g row row' (row'.foldl (mergeOne key g) row) := by
  induction row' generalizing row with
  | nil =>
      rw [List.foldl_nil]
      exact ⟨h, fun k => by cases lookup key row k <;> rfl⟩
  | cons a row' ih =>
      have hOne := mergeOne_merged hg h a
      have hRow' := List.pairwise_cons.mp h'
      have hRest := ih hOne.increasing hRow'.2
      refine ⟨hRest.increasing, fun k => ?_⟩
      rw [List.foldl_cons, hRest.lookup_eq, hOne.lookup_eq, lookup_singleton, lookup_cons]
      by_cases hk : compare (key a) k = .eq
      · rw [if_pos hk, if_pos hk, ← Std.LawfulEqOrd.eq_of_compare hk, lookup_none_of_lt hRow'.1]
        cases lookup key row (key a) <;> rfl
      · rw [if_neg hk, if_neg hk]
        cases lookup key row k <;> rfl

theorem foldl_join (as : List α) (a : α) :
    as.foldl (fun o b => join g o (some b)) (some a) = some (as.foldl g a) := by
  induction as generalizing a with
  | nil => rfl
  | cons b as ih => exact ih (g a b)

/-- Elements merged one after the other: what is found under a key comes of those with the key. -/
theorem foldl_mergeOne [Std.TransOrd κ] (hg : ∀ a b, key a = key b → key (g a b) = key a)
    (h : Increasing key row) (as : List α) :
    Increasing key (as.foldl (mergeOne key g) row) ∧
      ∀ k, lookup key (as.foldl (mergeOne key g) row) k
        = (as.filter fun a => compare (key a) k == .eq).foldl (fun o a => join g o (some a))
          (lookup key row k) := by
  induction as generalizing row with
  | nil => exact ⟨h, fun k => rfl⟩
  | cons a as ih =>
      have hMerged := mergeOne_merged hg h a
      obtain ⟨hIncreasing, hLookup⟩ := ih hMerged.increasing
      refine ⟨hIncreasing, fun k => ?_⟩
      rw [List.foldl_cons, hLookup, hMerged.lookup_eq, lookup_singleton, List.filter_cons]
      by_cases hk : compare (key a) k = .eq
      · rw [if_pos hk, if_pos (beq_iff_eq.mpr hk), List.foldl_cons]
      · rw [if_neg hk, if_neg (fun hEq => hk (beq_iff_eq.mp hEq))]
        cases lookup key row k <;> rfl

end Lftp.Verified.Rows
