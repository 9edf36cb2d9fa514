import Mathlib.Data.List.Nodup
import Mathlib.Data.List.Perm.Basic
import Mathlib.Data.List.Sort

/-!
# Association lists as listings of a map

A keyed table is represented by the list of its entries, in whatever order the
table enumerates them. Two listings denote the same table when `List.lookup`
agrees on them; for listings without repeated keys that is membership of the
entry, so any permutation will do.

* `keys` are the keys in listing order.
* `add` stores a value under a key, over an older value if there is one.
* `lookup_eq_some_iff` characterises lookup in a listing with distinct keys.
* `perm_of_perm_keys` rebuilds the listing from its keys in any order.
-/

namespace Lftp.Verified.Assoc

variable {κ α β : Type}

/-- The keys of a listing. -/
def keys (d : List (κ × α)) : List κ := d.map Prod.fst

@[simp] theorem keys_nil : keys ([] : List (κ × α)) = [] := rfl

@[simp] theorem keys_cons (e : κ × α) (d : List (κ × α)) :
    keys (e :: d) = e.1 :: keys d := rfl

@[simp] theorem keys_append (d d' : List (κ × α)) :
    keys (d ++ d') = keys d ++ keys d' := by
  simp [keys]

theorem keys_map (f : α → β) (d : List (κ × α)) :
    keys (d.map fun e => (e.1, f e.2)) = keys d := by
  simp [keys, Function.comp_def]

variable [BEq κ]

/-- Store `v` under `k`. -/
def add (k : κ) (v : α) (d : List (κ × α)) : List (κ × α) :=
  if (keys d).contains k then d.map fun e => if e.1 == k then (k, v) else e
  else d ++ [(k, v)]

variable [LawfulBEq κ]

theorem add_of_notMem {k : κ} {d : List (κ × α)} (v : α) (h : k ∉ keys d) :
    add k v d = d ++ [(k, v)] := by
  simp [add, h]

/-! ## Lookup -/

theorem lookup_cons_self (k : κ) (v : α) (d : List (κ × α)) :
    ((k, v) :: d).lookup k = some v := by
  simp

theorem lookup_cons_of_ne {k : κ} {e : κ × α} (d : List (κ × α)) (h : k ≠ e.1) :
    (e :: d).lookup k = d.lookup k := by
  rw [List.lookup_cons, beq_eq_false_iff_ne.mpr h]

theorem lookup_eq_none_iff {k : κ} {d : List (κ × α)} :
    d.lookup k = none ↔ k ∉ keys d := by
  induction d with
  | nil => simp
  | cons e d ih =>
      obtain ⟨k', v⟩ := e
      by_cases h : k = k'
      · subst h
        simp
      · rw [lookup_cons_of_ne d h, ih, keys_cons, List.mem_cons]
        simp [h]

/-- In a listing with distinct keys lookup finds exactly the entries. -/
theorem lookup_eq_some_iff {d : List (κ × α)} (hd : (keys d).Nodup) {k : κ} {v : α} :
    d.lookup k = some v ↔ (k, v) ∈ d := by
  induction d with
  | nil => simp
  | cons e d ih =>
      obtain ⟨k', v'⟩ := e
      rw [keys_cons, List.nodup_cons] at hd
      rw [List.mem_cons, Prod.mk.injEq]
      by_cases h : k = k'
      · subst h
        have hnot : (k, v) ∉ d := fun hmem => hd.1 (List.mem_map.mpr ⟨_, hmem, rfl⟩)
        rw [lookup_cons_self]
        simp [hnot, eq_comm]
      · rw [lookup_cons_of_ne d h, ih hd.2]
        simp [h]

theorem lookup_map (f : α → β) (k : κ) (d : List (κ × α)) :
    (d.map fun e => (e.1, f e.2)).lookup k = (d.lookup k).map f := by
  induction d with
  | nil => simp
  | cons e d ih =>
      obtain ⟨k', v⟩ := e
      rw [List.map_cons]
      by_cases h : k = k'
      · subst h
        rw [lookup_cons_self, lookup_cons_self, Option.map_some]
      · rw [lookup_cons_of_ne _ h, lookup_cons_of_ne _ h, ih]

/-- Any listing of the keys, with the values looked up, lists the same entries. -/
theorem perm_of_perm_keys {d : List (κ × α)} (hd : (keys d).Nodup) {ks : List κ}
    (hks : ks.Perm (keys d)) :
    ∃ d' : List (κ × α), d'.Perm d ∧ keys d' = ks ∧
      ∀ e ∈ d', d.lookup e.1 = some e.2 := by
  induction ks generalizing d with
  | nil =>
      have hnil : d = [] := by
        simpa [keys] using hks.symm.eq_nil
      exact ⟨[], by simp [hnil], rfl, by simp⟩
  | cons k ks ih =>
      have hmem : k ∈ keys d := hks.subset List.mem_cons_self
      obtain ⟨⟨k', v⟩, he, rfl⟩ := List.mem_map.mp hmem
      obtain ⟨d₁, d₂, rfl⟩ := List.append_of_mem he
      have hperm : (d₁ ++ (k', v) :: d₂).Perm ((k', v) :: (d₁ ++ d₂)) := List.perm_middle
      have hrest : ks.Perm (keys (d₁ ++ d₂)) :=
        (hks.trans (hperm.map Prod.fst)).cons_inv
      have hnd : (keys (d₁ ++ d₂)).Nodup :=
        (List.nodup_cons.mp ((hperm.map Prod.fst).nodup_iff.mp hd)).2
      obtain ⟨d', hd', hkeys, hlook⟩ := ih hnd hrest
      refine ⟨(k', v) :: d', (hd'.cons _).trans hperm.symm, by simp [hkeys], ?_⟩
      intro e hmem'
      rw [lookup_eq_some_iff hd]
      rcases List.mem_cons.mp hmem' with rfl | hmem'
      · exact he
      · exact hperm.symm.subset (List.mem_cons_of_mem _ (hd'.subset hmem'))

end Lftp.Verified.Assoc
