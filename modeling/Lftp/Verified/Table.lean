import Mathlib.Algebra.BigOperators.Group.List.Basic
import Mathlib.Algebra.Order.BigOperators.Group.List
import Mathlib.Algebra.Group.Int.Defs
import Mathlib.Data.Set.Card
import Lftp.Verified.Assoc

/-!
# Tables of objects with identity

A table holds objects under distinct keys, which stand for their addresses. The
operations change one object, add one, or delete one, and `total` sums a weight
over all objects: the lemmas `total_modify`, `total_insert` and `total_erase`
are what a proof about counters needs. `count` is the total of a yes-or-no
weight.
-/

namespace Lftp.Verified

open Assoc

/-- Objects under distinct keys. -/
structure Table (κ α : Type) where
  entries : List (κ × α)
  nodup : (keys entries).Nodup

/-- One for yes. -/
def bit (b : Bool) : Int := if b then 1 else 0

@[simp] theorem bit_true : bit true = 1 := rfl

@[simp] theorem bit_false : bit false = 0 := rfl

namespace Table

variable {κ α : Type} [DecidableEq κ]

def empty : Table κ α := ⟨[], List.nodup_nil⟩

def get (t : Table κ α) (k : κ) : Option α := t.entries.lookup k

/-- Apply `f` to the object at `k`. -/
def modify (t : Table κ α) (k : κ) (f : α → α) : Table κ α where
  entries := t.entries.map fun e => (e.1, if e.1 = k then f e.2 else e.2)
  nodup := by
    have hKeys : keys (t.entries.map fun e => (e.1, if e.1 = k then f e.2 else e.2)) =
        keys t.entries := by
      simp [keys, Function.comp_def]
    rw [hKeys]
    exact t.nodup

/-- Add an object under a new key. -/
def insert (t : Table κ α) (k : κ) (a : α) : Table κ α :=
  if h : k ∈ keys t.entries then t
  else
    { entries := t.entries ++ [(k, a)]
      nodup := by
        rw [keys_append]
        apply List.nodup_append.mpr
        refine ⟨t.nodup, List.nodup_singleton k, fun i hi j hj => ?_⟩
        have hEq : j = k := List.mem_singleton.mp hj
        exact fun hSame => h (hEq ▸ hSame ▸ hi) }

/-- Delete the object at `k`. -/
def erase (t : Table κ α) (k : κ) : Table κ α where
  entries := t.entries.filter fun e => e.1 ≠ k
  nodup := t.nodup.sublist (List.filter_sublist.map Prod.fst)

/-- The keys. -/
def ids (t : Table κ α) : List κ := keys t.entries

/-- The sum of a weight over the objects. -/
def total (t : Table κ α) (w : α → Int) : Int := (t.entries.map fun e => w e.2).sum

/-- The number of objects with a property. -/
def count (t : Table κ α) (P : α → Bool) : Nat := t.entries.countP fun e => P e.2

variable {t : Table κ α} {k : κ} {a : α}

theorem get_eq_some_iff : t.get k = some a ↔ (k, a) ∈ t.entries := lookup_eq_some_iff t.nodup

theorem get_eq_none_iff : t.get k = none ↔ k ∉ keys t.entries := lookup_eq_none_iff

@[simp] theorem get_empty : (empty : Table κ α).get k = none := rfl

theorem get_modify (t : Table κ α) (k : κ) (f : α → α) (j : κ) :
    (t.modify k f).get j = if j = k then (t.get j).map f else t.get j := by
  cases t with
  | mk d hd =>
      show (d.map fun e => (e.1, if e.1 = k then f e.2 else e.2)).lookup j =
        if j = k then (d.lookup j).map f else d.lookup j
      clear hd
      induction d with
      | nil => simp
      | cons e d ih =>
          rcases e with ⟨i, a⟩
          rw [List.map_cons]
          by_cases hj : j = i
          · subst hj
            rw [lookup_cons_self, lookup_cons_self]
            split <;> rfl
          · rw [List.lookup_cons, List.lookup_cons, beq_eq_false_iff_ne.mpr hj]
            exact ih

theorem ids_modify (t : Table κ α) (k : κ) (f : α → α) : (t.modify k f).ids = t.ids := by
  simp [ids, modify, keys, Function.comp_def]

theorem mem_ids : k ∈ t.ids ↔ ∃ a, t.get k = some a := by
  rw [← Option.ne_none_iff_exists', ne_eq, get_eq_none_iff, not_not]
  rfl

theorem get_insert (h : t.get k = none) (a : α) (j : κ) :
    (t.insert k a).get j = if j = k then some a else t.get j := by
  have hNew := get_eq_none_iff.mp h
  unfold insert
  rw [dif_neg hNew]
  show (t.entries ++ [(k, a)]).lookup j = _
  rw [List.lookup_append]
  by_cases hj : j = k
  · subst hj
    rw [if_pos rfl, show t.entries.lookup j = none from h]
    exact lookup_cons_self j a []
  · rw [if_neg hj, lookup_cons_of_ne _ hj]
    exact Option.or_none

/-- An object that is there stays. -/
theorem get_insert_of_some {j : κ} {b : α} (h : t.get j = some b) (k : κ) (a : α) :
    (t.insert k a).get j = some b := by
  unfold insert
  split
  · exact h
  · have hEntries := List.mem_append_left [(k, a)] (get_eq_some_iff.mp h)
    exact get_eq_some_iff.mpr hEntries

theorem get_erase (t : Table κ α) (k j : κ) :
    (t.erase k).get j = if j = k then none else t.get j := by
  by_cases hj : j = k
  · rw [if_pos hj, get_eq_none_iff]
    intro hMem
    rcases List.mem_map.mp hMem with ⟨e, he, rfl⟩
    have hne := List.of_mem_filter he
    simp [hj] at hne
  · rw [if_neg hj]
    cases hGet : t.get j with
    | some a =>
        rw [get_eq_some_iff] at hGet ⊢
        exact List.mem_filter.mpr ⟨hGet, by simp [hj]⟩
    | none =>
        rw [get_eq_none_iff] at hGet ⊢
        intro hMem
        exact hGet ((List.filter_sublist.map Prod.fst).subset hMem)

/-! ## Totals -/

omit [DecidableEq κ] in
theorem total_bit (t : Table κ α) (P : α → Bool) :
    t.total (fun a => bit (P a)) = t.count P := by
  unfold total count
  induction t.entries with
  | nil => rfl
  | cons e d ih =>
      rw [List.map_cons, List.sum_cons, ih, List.countP_cons]
      cases hP : P e.2 with
      | true => simp [hP, Int.add_comm]
      | false => simp [hP]

theorem total_modify (h : t.get k = some a) (f : α → α) (w : α → Int) :
    (t.modify k f).total w = t.total w + (w (f a) - w a) := by
  have hMem := get_eq_some_iff.mp h
  rcases List.append_of_mem hMem with ⟨d₁, d₂, hSplit⟩
  have hApart : k ∉ keys d₁ ∧ k ∉ keys d₂ := by
    have hNodup := t.nodup
    rw [hSplit, keys_append, keys_cons] at hNodup
    have hParts := List.nodup_append.mp hNodup
    constructor
    · intro hIn
      exact hParts.2.2 k hIn k List.mem_cons_self rfl
    · exact (List.nodup_cons.mp hParts.2.1).1
  have hSame : ∀ d : List (κ × α), k ∉ keys d →
      ((d.map fun e => (e.1, if e.1 = k then f e.2 else e.2)).map fun e => w e.2) =
        d.map fun e => w e.2 := by
    intro d hNot
    rw [List.map_map]
    apply List.map_congr_left
    intro e he
    have hne : e.1 ≠ k := fun hEq => hNot (List.mem_map.mpr ⟨e, he, hEq⟩)
    show w (if e.1 = k then f e.2 else e.2) = w e.2
    rw [if_neg hne]
  have hEntries : (t.modify k f).entries =
      t.entries.map fun e => (e.1, if e.1 = k then f e.2 else e.2) := rfl
  unfold total
  rw [hEntries, hSplit]
  simp only [List.map_append, List.map_cons, List.sum_append, List.sum_cons, hSame d₁ hApart.1,
    hSame d₂ hApart.2, if_true]
  omega

theorem total_modify_of_none (h : t.get k = none) (f : α → α) (w : α → Int) :
    (t.modify k f).total w = t.total w := by
  have hNot := get_eq_none_iff.mp h
  unfold total modify
  rw [List.map_map]
  congr 1
  apply List.map_congr_left
  intro e he
  have hne : e.1 ≠ k := fun hEq => hNot (List.mem_map.mpr ⟨e, he, hEq⟩)
  show w (if e.1 = k then f e.2 else e.2) = w e.2
  rw [if_neg hne]

theorem total_modify_same {f : α → α} {w : α → Int} (h : ∀ a, w (f a) = w a) (t : Table κ α)
    (k : κ) : (t.modify k f).total w = t.total w := by
  cases hGet : t.get k with
  | none => exact total_modify_of_none hGet f w
  | some a =>
      have hTotal := total_modify hGet f w
      rw [h] at hTotal
      omega

theorem insert_of_some {b : α} (h : t.get k = some b) (a : α) : t.insert k a = t := by
  unfold insert
  apply dif_pos
  by_contra hNot
  rw [get_eq_none_iff.mpr hNot] at h
  exact absurd h nofun

theorem total_insert (h : t.get k = none) (a : α) (w : α → Int) :
    (t.insert k a).total w = t.total w + w a := by
  unfold insert
  rw [dif_neg (get_eq_none_iff.mp h)]
  simp [total]

theorem total_erase (h : t.get k = some a) (w : α → Int) :
    (t.erase k).total w = t.total w - w a := by
  have hMem := get_eq_some_iff.mp h
  rcases List.append_of_mem hMem with ⟨d₁, d₂, hSplit⟩
  have hNodup := t.nodup
  rw [hSplit, keys_append, keys_cons] at hNodup
  have hParts := List.nodup_append.mp hNodup
  have hFilter : ∀ d : List (κ × α), k ∉ keys d → d.filter (fun e => e.1 ≠ k) = d := by
    intro d hNot
    apply List.filter_eq_self.mpr
    intro e he
    have hne : e.1 ≠ k := fun hEq => hNot (List.mem_map.mpr ⟨e, he, hEq⟩)
    simpa using hne
  have hEntries : (t.erase k).entries = t.entries.filter fun e => e.1 ≠ k := rfl
  unfold total
  rw [hEntries, hSplit, List.filter_append, List.filter_cons_of_neg (by simp),
    hFilter d₁ fun hIn => hParts.2.2 k hIn k List.mem_cons_self rfl,
    hFilter d₂ (List.nodup_cons.mp hParts.2.1).1]
  simp only [List.map_append, List.map_cons, List.sum_append, List.sum_cons]
  omega

theorem total_erase_of_none (h : t.get k = none) (w : α → Int) :
    (t.erase k).total w = t.total w := by
  have hNot := get_eq_none_iff.mp h
  have hEntries : (t.erase k).entries = t.entries := by
    apply List.filter_eq_self.mpr
    intro e he
    have hne : e.1 ≠ k := fun hEq => hNot (List.mem_map.mpr ⟨e, he, hEq⟩)
    simpa using hne
  unfold total
  rw [hEntries]

theorem total_eq_zero {w : α → Int} (h : ∀ k a, t.get k = some a → w a = 0) : t.total w = 0 := by
  unfold total
  apply List.sum_eq_zero
  intro n hn
  rcases List.mem_map.mp hn with ⟨e, he, rfl⟩
  exact h e.1 e.2 (get_eq_some_iff.mpr he)

theorem total_nonneg {w : α → Int} (h : ∀ k a, t.get k = some a → 0 ≤ w a) : 0 ≤ t.total w := by
  unfold total
  apply List.sum_nonneg
  intro n hn
  rcases List.mem_map.mp hn with ⟨e, he, rfl⟩
  exact h e.1 e.2 (get_eq_some_iff.mpr he)

theorem total_congr {w w' : α → Int} (h : ∀ k a, t.get k = some a → w a = w' a) :
    t.total w = t.total w' := by
  unfold total
  congr 1
  apply List.map_congr_left
  intro e he
  exact h e.1 e.2 (get_eq_some_iff.mpr he)

/-- The keys of the objects with a property. -/
theorem ncard_eq_count (t : Table κ α) (P : α → Bool) :
    Set.ncard {k | ∃ a, t.get k = some a ∧ P a = true} = t.count P := by
  have hSet : {k | ∃ a, t.get k = some a ∧ P a = true}
      = ((t.entries.filter fun e => P e.2).map Prod.fst).toFinset := by
    ext k
    simp only [Set.mem_ofPred_eq, List.coe_toFinset, List.mem_map, List.mem_filter, get_eq_some_iff]
    constructor
    · rintro ⟨a, hMem, hP⟩
      exact ⟨(k, a), ⟨hMem, hP⟩, rfl⟩
    · rintro ⟨⟨i, a⟩, ⟨hMem, hP⟩, rfl⟩
      exact ⟨a, hMem, hP⟩
  have hNodup := t.nodup.sublist
    ((List.filter_sublist (p := fun e : κ × α => P e.2) (l := t.entries)).map Prod.fst)
  rw [hSet, Set.ncard_coe_finset, List.toFinset_card_of_nodup hNodup, List.length_map,
    ← List.countP_eq_length_filter]
  rfl

end Table

end Lftp.Verified
