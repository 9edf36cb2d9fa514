import Mathlib.Logic.Function.Basic

/-!
# Indexes over a heap

A table finds records in a heap by one of their fields when it maps a key to an
address exactly if the record there has that key. So no two records have the same
key, none is missing from the table, and no entry leads to a record that is gone.

* `IsIndex.insert`, `IsIndex.erase`: a record comes or goes with its entry.
* `IsIndex.congr`: other fields of the records do not matter.
-/

namespace Lftp.Verified

variable {κ ι α : Type} {lookup lookup' : κ → Option ι} {heap heap' : ι → Option α} {key : α → κ}

/-- The table `lookup` finds the records of `heap` by `key`. -/
def IsIndex (lookup : κ → Option ι) (heap : ι → Option α) (key : α → κ) : Prop :=
  ∀ k p, lookup k = some p ↔ ∃ a, heap p = some a ∧ key a = k

namespace IsIndex

/-- A record is found. -/
theorem found (h : IsIndex lookup heap key) {p : ι} {a : α} (ha : heap p = some a) :
    lookup (key a) = some p :=
  (h (key a) p).mpr ⟨a, ha, rfl⟩

/-- Records with the same key are one. -/
theorem unique (h : IsIndex lookup heap key) {p q : ι} {a b : α} (ha : heap p = some a)
    (hb : heap q = some b) (hKey : key a = key b) : p = q := by
  have hFound := h.found hb
  rw [← hKey, h.found ha] at hFound
  exact Option.some.inj hFound

/-- The table depends on the keys only. -/
theorem congr (h : IsIndex lookup heap key)
    (hKeys : ∀ p, (heap' p).map key = (heap p).map key) : IsIndex lookup heap' key := by
  intro k p
  rw [h k p, ← Option.map_eq_some_iff, ← Option.map_eq_some_iff, hKeys p]

variable [DecidableEq ι] [DecidableEq κ]

/-- A record goes with its entry. -/
theorem erase (h : IsIndex lookup heap key) {p : ι} {a : α} (ha : heap p = some a)
    (hLookup : ∀ k, lookup' k = if k = key a then none else lookup k) :
    IsIndex lookup' (fun q => if q = p then none else heap q) key := by
  intro k q
  rw [hLookup]
  dsimp only
  by_cases hq : q = p
  · subst hq
    rw [if_pos rfl]
    refine iff_of_false ?_ (fun ⟨_, hNone, _⟩ => nomatch hNone)
    split
    · exact fun hNone => nomatch hNone
    · rename_i hk
      intro hFound
      obtain ⟨b, hb, hKey⟩ := (h k q).mp hFound
      cases ha.symm.trans hb
      exact hk hKey.symm
  · rw [if_neg hq]
    split
    · rename_i hk
      refine iff_of_false (fun hNone => nomatch hNone) ?_
      rintro ⟨b, hb, hKey⟩
      exact hq (h.unique hb ha (hKey.trans hk))
    · exact h k q

/-- A record comes with its entry, at a free address and with a new key. -/
theorem insert (h : IsIndex lookup heap key) {p : ι} {a : α} (hp : heap p = none)
    (hNew : lookup (key a) = none)
    (hLookup : ∀ k, lookup' k = if k = key a then some p else lookup k) :
    IsIndex lookup' (fun q => if q = p then some a else heap q) key := by
  intro k q
  rw [hLookup]
  dsimp only
  by_cases hq : q = p
  · subst hq
    rw [if_pos rfl]
    split
    · rename_i hk
      exact iff_of_true rfl ⟨a, rfl, hk.symm⟩
    · rename_i hk
      refine iff_of_false (fun hFound => ?_) ?_
      · obtain ⟨b, hb, -⟩ := (h k q).mp hFound
        cases hp.symm.trans hb
      · rintro ⟨b, ⟨⟩, hKey⟩
        exact hk hKey.symm
  · rw [if_neg hq]
    split
    · rename_i hk
      refine iff_of_false (fun hEq => hq (Option.some.inj hEq).symm) ?_
      rintro ⟨b, hb, hKey⟩
      have hFound := h.found hb
      rw [hKey, hk, hNew] at hFound
      cases hFound
    · exact h k q

end IsIndex

end Lftp.Verified
