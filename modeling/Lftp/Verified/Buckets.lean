import Mathlib.Data.List.Perm.Basic
import Mathlib.Data.List.GetD

/-!
# Chained buckets

The storage of a hash table with chaining: a list of chains, and a function
that names the slot of an element. `Placed` says that every element lies in the
chain of its slot, so a search may look at one chain only (`mem_chain_iff`).

The elements of the table are `bs.flatten`, in the order of the chains. An
insertion anywhere in a chain changes them up to order only (`perm_insert`),
and `rehash` distributes them over a new array of chains.
-/

namespace Lftp.Verified.Buckets

variable {β : Type} {slot : β → Nat} {bs : List (List β)} {b : β} {i n : Nat}

/-- The chain at a slot. There is none past the last slot. -/
def chain (bs : List (List β)) (i : Nat) : List β := bs.getD i []

/-- Every element lies in the chain of its slot. -/
def Placed (slot : β → Nat) (bs : List (List β)) : Prop :=
  ∀ i, ∀ b ∈ chain bs i, slot b = i

@[simp] theorem chain_nil : chain ([] : List (List β)) i = [] := rfl

@[simp] theorem chain_cons_zero (c : List β) : chain (c :: bs) 0 = c := rfl

@[simp] theorem chain_cons_succ (c : List β) : chain (c :: bs) (i + 1) = chain bs i := rfl

theorem mem_flatten_iff : b ∈ bs.flatten ↔ ∃ i, b ∈ chain bs i := by
  induction bs with
  | nil => simp
  | cons c bs ih =>
      rw [List.flatten_cons, List.mem_append, ih]
      constructor
      · rintro (h | ⟨i, h⟩)
        · exact ⟨0, h⟩
        · exact ⟨i + 1, h⟩
      · rintro ⟨_ | i, h⟩
        · exact Or.inl h
        · exact Or.inr ⟨i, h⟩

/-- A search for an element needs to look at the chain of its slot only. -/
theorem mem_chain_iff (h : Placed slot bs) : b ∈ chain bs (slot b) ↔ b ∈ bs.flatten := by
  rw [mem_flatten_iff]
  constructor
  · exact fun hb => ⟨_, hb⟩
  · rintro ⟨i, hb⟩
    rwa [h i b hb]

theorem chain_mem (h : i < bs.length) : chain bs i ∈ bs := by
  unfold chain
  rw [List.getD_eq_getElem _ _ h]
  exact List.getElem_mem h

theorem chain_of_le (h : bs.length ≤ i) : chain bs i = [] :=
  List.getD_eq_default _ _ h

theorem flatten_drop (i : Nat) :
    (bs.drop i).flatten = chain bs i ++ (bs.drop (i + 1)).flatten := by
  rcases Nat.lt_or_ge i bs.length with h | h
  · rw [List.drop_eq_getElem_cons h, List.flatten_cons]
    unfold chain
    rw [List.getD_eq_getElem _ _ h]
  · rw [chain_of_le h, List.drop_eq_nil_of_le h, List.drop_eq_nil_of_le (by omega)]
    rfl

/-! ## Changing every chain -/

theorem chain_map (f : List β → List β) (hf : f [] = []) (i : Nat) :
    chain (bs.map f) i = f (chain bs i) := by
  unfold chain
  rw [List.getD_eq_getElem?_getD, List.getD_eq_getElem?_getD, List.getElem?_map]
  cases bs[i]? with
  | none => exact hf.symm
  | some c => rfl

theorem placed_map (h : Placed slot bs) {f : β → β} (hf : ∀ b, slot (f b) = slot b) :
    Placed slot (bs.map (List.map f)) := by
  intro i b hb
  rw [chain_map _ rfl] at hb
  rcases List.mem_map.mp hb with ⟨a, ha, rfl⟩
  rw [hf, h i a ha]

theorem placed_filter (h : Placed slot bs) (p : β → Bool) :
    Placed slot (bs.map (List.filter p)) := by
  intro i b hb
  rw [chain_map _ rfl] at hb
  exact h i b (List.mem_of_mem_filter hb)

/-- Unlinking the one element with a given label. -/
theorem perm_unlink {γ : Type} [DecidableEq γ] {f : β → γ} {l : List β} (hl : (l.map f).Nodup)
    (hb : b ∈ l) : l.Perm (b :: l.filter fun a => f a ≠ f b) := by
  induction l with
  | nil => cases hb
  | cons a l ih =>
      rw [List.map_cons, List.nodup_cons] at hl
      rcases List.mem_cons.mp hb with rfl | hb
      · have hAll : (l.filter fun a => f a ≠ f b) = l := by
          apply List.filter_eq_self.mpr
          intro a ha
          have hNe : f a ≠ f b := fun hEq => hl.1 (hEq ▸ List.mem_map_of_mem ha)
          simpa using hNe
        rw [List.filter_cons_of_neg (by simp), hAll]
      · have hNe : f a ≠ f b := fun hEq => hl.1 (hEq ▸ List.mem_map_of_mem hb)
        rw [List.filter_cons_of_pos (by simpa using hNe)]
        exact ((ih hl.2 hb).cons a).trans (.swap b a _)

/-! ## Inserting into one chain -/

theorem chain_modify (f : List β → List β) (h : i < bs.length) (j : Nat) :
    chain (bs.modify i f) j = if j = i then f (chain bs j) else chain bs j := by
  unfold chain
  rw [List.getD_eq_getElem?_getD, List.getD_eq_getElem?_getD, List.getElem?_modify]
  by_cases hj : j = i
  · subst hj
    rw [List.getElem?_eq_getElem h, if_pos rfl]
    simp
  · rw [if_neg hj]
    simp [Ne.symm hj]

/-- An insertion into one chain, at either end of it. -/
def Inserts (f : List β → List β) (b : β) : Prop := ∀ c, (f c).Perm (b :: c)

theorem inserts_cons (b : β) : Inserts (b :: ·) b := fun c => .refl (b :: c)

theorem inserts_concat (b : β) : Inserts (· ++ [b]) b := fun c => List.perm_append_singleton b c

theorem perm_insert {f : List β → List β} (hf : Inserts f b) (h : i < bs.length) :
    (bs.modify i f).flatten.Perm (b :: bs.flatten) := by
  induction bs generalizing i with
  | nil => cases h
  | cons c bs ih =>
      cases i with
      | zero =>
          rw [List.modify_zero_cons, List.flatten_cons, List.flatten_cons]
          exact (hf c).append_right bs.flatten
      | succ i =>
          rw [List.modify_succ_cons, List.flatten_cons, List.flatten_cons]
          have hTail : (bs.modify i f).flatten.Perm (b :: bs.flatten) :=
            ih (Nat.lt_of_succ_lt_succ h)
          exact (hTail.append_left c).trans List.perm_middle

theorem placed_insert {f : List β → List β} (hf : Inserts f b) (hP : Placed slot bs)
    (h : slot b < bs.length) : Placed slot (bs.modify (slot b) f) := by
  intro i a ha
  rw [chain_modify f h] at ha
  split at ha
  · rcases List.mem_cons.mp ((hf _).subset ha) with hNew | hOld
    · rw [hNew]
      exact Eq.symm ‹_›
    · exact hP i a hOld
  · exact hP i a ha

/-! ## Rehashing -/

theorem flatten_replicate_nil (n : Nat) : (List.replicate n ([] : List β)).flatten = [] := by
  simp

theorem chain_replicate_nil (n i : Nat) : chain (List.replicate n ([] : List β)) i = [] := by
  unfold chain
  rw [List.getD_eq_getElem?_getD, List.getElem?_replicate]
  split <;> rfl

theorem placed_replicate_nil (n : Nat) : Placed slot (List.replicate n []) := by
  intro i b hb
  rw [chain_replicate_nil] at hb
  cases hb

/-- Put elements one by one at the head of their chains. -/
def rehash (slot : β → Nat) (l : List β) (bs : List (List β)) : List (List β) :=
  l.foldl (fun bs b => bs.modify (slot b) (b :: ·)) bs

theorem length_rehash (l : List β) : (rehash slot l bs).length = bs.length := by
  induction l generalizing bs with
  | nil => rfl
  | cons b l ih =>
      show (rehash slot l (bs.modify (slot b) (b :: ·))).length = bs.length
      rw [ih, List.length_modify]

theorem placed_rehash {l : List β} (hP : Placed slot bs) (h : ∀ b ∈ l, slot b < bs.length) :
    Placed slot (rehash slot l bs) := by
  induction l generalizing bs with
  | nil => exact hP
  | cons b l ih =>
      apply ih (placed_insert (inserts_cons b) hP (h b List.mem_cons_self))
      intro a ha
      rw [List.length_modify]
      exact h a (List.mem_cons_of_mem b ha)

theorem perm_rehash {l : List β} (h : ∀ b ∈ l, slot b < bs.length) :
    (rehash slot l bs).flatten.Perm (l ++ bs.flatten) := by
  induction l generalizing bs with
  | nil => exact .refl _
  | cons b l ih =>
      have hRest : (rehash slot l (bs.modify (slot b) (b :: ·))).flatten.Perm
          (l ++ (bs.modify (slot b) (b :: ·)).flatten) := by
        apply ih
        intro a ha
        rw [List.length_modify]
        exact h a (List.mem_cons_of_mem b ha)
      have hHead := perm_insert (inserts_cons b) (h b List.mem_cons_self)
      exact hRest.trans ((hHead.append_left l).trans List.perm_middle)

end Lftp.Verified.Buckets
