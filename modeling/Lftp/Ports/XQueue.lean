import Mathlib.Data.List.Basic

/-!
# The queue of pointers

`_xqueue` is an array with the index of its first element. Elements before that index are left
over until the next `push` that finds more of them than of the others.

`items` is the queue as a list; each operation is one on this list, and `run_as_list` says so for
any sequence of them. `removeEach` is a loop over
the indexes which removes what meets a test: as the index goes on after a removal too, the
element after a removed one is passed over. `sweep` is what it does to the list.
-/

namespace Lftp.Ports

/-- `_xqueue`; `ptr` is never past the end. -/
structure XQueue (α : Type) where
  q : List α
  ptr : Nat
  ptr_le : ptr ≤ q.length

namespace XQueue

variable {α : Type} {x : XQueue α}

def new : XQueue α := ⟨[], 0, Nat.le_refl 0⟩

def count (x : XQueue α) : Nat := x.q.length - x.ptr

/-- The elements from `ptr` on. -/
def items (x : XQueue α) : List α := x.q.drop x.ptr

def push (x : XQueue α) (n : α) : XQueue α :=
  if x.count < x.ptr then ⟨x.q.drop x.ptr ++ [n], 0, Nat.zero_le _⟩
  else ⟨x.q ++ [n], x.ptr, by
    rw [List.length_append]
    exact Nat.le_add_right_of_le x.ptr_le⟩

/-- `remove(i)` of an element that is there. -/
def remove (x : XQueue α) (i : Nat) (h : i < x.count) : XQueue α :=
  if i = 0 then ⟨x.q, x.ptr + 1, by
    unfold count at h
    omega⟩
  else ⟨x.q.eraseIdx (x.ptr + i), x.ptr, by
    unfold count at h
    rw [List.length_eraseIdx]
    split <;> omega⟩

/-- `next()`; the queue has elements. -/
def next (x : XQueue α) (h : 0 < x.count) : α × XQueue α :=
  (x.q.get ⟨x.ptr, by
    unfold count at h
    omega⟩, x.remove 0 h)

/-- `operator[]` -/
def get (x : XQueue α) (i : Nat) (h : i < x.count) : α :=
  x.q.get ⟨x.ptr + i, by
    unfold count at h
    omega⟩

/-! ## As a list -/

@[simp] theorem length_items (x : XQueue α) : x.items.length = x.count := List.length_drop ..

@[simp] theorem items_new : (new : XQueue α).items = [] := rfl

theorem items_push (x : XQueue α) (n : α) : (x.push n).items = x.items ++ [n] := by
  unfold push items
  split
  · rfl
  · exact List.drop_append_of_le_length x.ptr_le

theorem items_remove (x : XQueue α) {i : Nat} (h : i < x.count) :
    (x.remove i h).items = x.items.eraseIdx i := by
  unfold remove items
  split
  · rename_i hZero
    subst hZero
    rw [List.eraseIdx_zero, List.tail_drop]
  · have hLen : (x.q.take x.ptr).length = x.ptr := List.length_take_of_le x.ptr_le
    show (x.q.eraseIdx (x.ptr + i)).drop x.ptr = _
    nth_rewrite 1 [← List.take_append_drop x.ptr x.q]
    rw [List.eraseIdx_append_of_length_le (by omega), hLen, Nat.add_sub_cancel_left]
    exact List.drop_left' hLen

theorem get_eq (x : XQueue α) {i : Nat} (h : i < x.count) :
    x.get i h = x.items.get ⟨i, by rw [length_items]; exact h⟩ := by
  unfold get items
  rw [List.get_eq_getElem, List.get_eq_getElem, List.getElem_drop]

theorem next_eq (x : XQueue α) (h : 0 < x.count) :
    x.items = (x.next h).1 :: (x.next h).2.items := by
  unfold next
  rw [items_remove, List.eraseIdx_zero]
  have hLt : x.ptr < x.q.length := by
    unfold count at h
    omega
  unfold items
  rw [List.tail_drop]
  exact List.drop_eq_getElem_cons hLt

/-! ## Runs -/

/-- A call of the queue, or of a list that is used as one. -/
inductive Op (α : Type)
  | push (n : α)
  | next
  | remove (i : Nat)
  | empty
  /-- `operator[]` -/
  | get (i : Nat)

/-- A call, and the element that it returns; there is none out of bounds. -/
def Op.onQueue (x : XQueue α) : Op α → Option (XQueue α × Option α)
  | push n => some (x.push n, none)
  | next => if h : 0 < x.count then some ((x.next h).2, some (x.next h).1) else none
  | remove i => if h : i < x.count then some (x.remove i h, none) else none
  | empty => some (new, none)
  | get i => if h : i < x.count then some (x, some (x.get i h)) else none

/-- What the call is for. -/
def Op.onList (l : List α) : Op α → Option (List α × Option α)
  | push n => some (l ++ [n], none)
  | next => l.head?.map fun a => (l.tail, some a)
  | remove i => if i < l.length then some (l.eraseIdx i, none) else none
  | empty => some ([], none)
  | get i => l[i]?.map fun a => (l, some a)

/-- A sequence of calls, and the elements that they return. -/
def run {σ : Type} (act : σ → Op α → Option (σ × Option α)) : σ → List (Op α) → Option (σ × List α)
  | s, [] => some (s, [])
  | s, o :: os => do
    let (s, a) ← act s o
    let (s, as) ← run act s os
    some (s, a.toList ++ as)

theorem onQueue_items (x : XQueue α) (o : Op α) :
    (o.onQueue x).map (fun r => (r.1.items, r.2)) = o.onList x.items := by
  cases o with
  | push n => exact congrArg (fun l => some (l, none)) (items_push x n)
  | next =>
      show Option.map _ (dite (0 < x.count) _ _) = x.items.head?.map _
      by_cases h : 0 < x.count
      · rw [dif_pos h, next_eq x h]
        rfl
      · have hNil : x.items = [] := List.eq_nil_of_length_eq_zero (by rw [length_items]; omega)
        rw [dif_neg h, hNil]
        rfl
  | remove i =>
      show Option.map _ (dite (i < x.count) _ _) = if i < x.items.length then _ else _
      rw [length_items]
      by_cases h : i < x.count
      · rw [dif_pos h, if_pos h]
        exact congrArg (fun l => some (l, none)) (items_remove x h)
      · rw [dif_neg h, if_neg h]
        rfl
  | empty => rfl
  | get i =>
      show Option.map _ (dite (i < x.count) _ _) = x.items[i]?.map _
      by_cases h : i < x.count
      · rw [dif_pos h, List.getElem?_eq_getElem (by rwa [length_items])]
        exact congrArg (fun a => some (x.items, some a)) (get_eq x h)
      · rw [dif_neg h, List.getElem?_eq_none (by rw [length_items]; omega)]
        rfl

theorem run_items (x : XQueue α) (os : List (Op α)) :
    (run Op.onQueue x os).map (fun r => (r.1.items, r.2)) = run Op.onList x.items os := by
  induction os generalizing x with
  | nil => rfl
  | cons o os ih =>
      have hStep := onQueue_items x o
      unfold run
      rw [← hStep]
      cases o.onQueue x with
      | none => rfl
      | some r =>
          have hRest := ih r.1
          dsimp only [Option.map_some, Option.bind_eq_bind, Option.bind_some]
          rw [← hRest]
          cases run Op.onQueue r.1 os <;> rfl

/-- The queue is a list: the same calls are within bounds and return the same elements, whether
elements that were taken are still left over or not. -/
theorem run_as_list (os : List (Op α)) :
    (run Op.onQueue new os).map (fun r => (r.1.items, r.1.count, r.2))
      = (run Op.onList [] os).map fun r => (r.1, r.1.length, r.2) := by
  have hRun := run_items (new : XQueue α) os
  rw [items_new] at hRun
  rw [← hRun, Option.map_map]
  exact congrArg (Option.map · _) (funext fun r => by simp)

/-! ## Removing in a loop -/

/-- `for(int i=0; i<count(); i++) if(test([i])) remove(i);` from `i` on, with so many turns. -/
def removeEach (test : α → Bool) : Nat → Nat → XQueue α → XQueue α
  | 0, _, x => x
  | n + 1, i, x =>
      if h : i < x.count then
        removeEach test n (i + 1) (if test (x.get i h) then x.remove i h else x)
      else x

/-- The list after such a loop. -/
def sweep (test : α → Bool) : List α → List α
  | [] => []
  | [a] => if test a then [] else [a]
  | a :: b :: l => if test a then b :: sweep test l else a :: sweep test (b :: l)

variable {test : α → Bool}

theorem removeEach_of_le {n i : Nat} (h : x.count ≤ i) : x.removeEach test n i = x := by
  cases n with
  | zero => rfl
  | succ n => exact dif_neg (Nat.not_lt.mpr h)

theorem sweep_of_false {a : α} (h : test a = false) (l : List α) :
    sweep test (a :: l) = a :: sweep test l := by
  cases l <;> simp [sweep, h]

/-- Before the index the elements stay, and from there on the list is swept. -/
theorem items_removeEach {n : Nat} {p l : List α} (hItems : x.items = p ++ l)
    (hn : l.length ≤ n) : (x.removeEach test n p.length).items = p ++ sweep test l := by
  induction n generalizing x p l with
  | zero =>
      have hNil : l = [] := List.eq_nil_of_length_eq_zero (by omega)
      subst hNil
      exact hItems
  | succ n ih =>
      have hCount : x.count = p.length + l.length := by
        rw [← length_items, hItems, List.length_append]
      cases l with
      | nil =>
          rw [removeEach_of_le (by rw [hCount]; exact Nat.le_refl _)]
          exact hItems
      | cons a l =>
          have hLt : p.length < x.count := by
            rw [hCount, List.length_cons]
            omega
          have hGet : x.get p.length hLt = a := by
            rw [get_eq]
            simp [hItems]
          rw [removeEach, dif_pos hLt, hGet]
          rw [List.length_cons] at hn
          cases hTest : test a
          · have hKept : x.items = (p ++ [a]) ++ l := by rw [hItems, List.append_assoc]; rfl
            have hRest := ih hKept (by omega)
            rw [List.length_append, List.length_singleton, List.append_assoc] at hRest
            rw [if_neg Bool.false_ne_true, sweep_of_false hTest]
            exact hRest
          · have hGone : (x.remove p.length hLt).items = p ++ l := by
              rw [items_remove, hItems, List.eraseIdx_append_of_length_le (Nat.le_refl _),
                Nat.sub_self, List.eraseIdx_cons_zero]
            rw [if_pos rfl]
            cases l with
            | nil =>
                rw [removeEach_of_le (by rw [← length_items, hGone]; simp), hGone]
                simp [sweep, hTest]
            | cons b l =>
                -- the index is past `b` now
                have hNext : (x.remove p.length hLt).items = (p ++ [b]) ++ l := by
                  rw [hGone, List.append_assoc]
                  rfl
                rw [List.length_cons] at hn
                have hRest := ih hNext (by omega)
                rw [List.length_append, List.length_singleton, List.append_assoc] at hRest
                rw [hRest]
                simp [sweep, hTest]

theorem sweep_sublist (l : List α) : (sweep test l).Sublist l := by
  fun_induction sweep test l with
  | case1 => exact List.Sublist.refl []
  | case2 a h => exact List.nil_sublist [a]
  | case3 a h => exact List.Sublist.refl [a]
  | case4 a b l h ih => exact (ih.cons_cons b).cons a
  | case5 a b l h ih => exact ih.cons_cons a

/-- What does not meet the test stays, in its order. -/
theorem filter_sweep (l : List α) :
    (sweep test l).filter (fun a => !test a) = l.filter fun a => !test a := by
  fun_induction sweep test l with
  | case1 => rfl
  | case2 a h => simp [h]
  | case3 a h => rfl
  | case4 a b l h ih => simp [List.filter_cons, h, ih]
  | case5 a b l h ih =>
      have hKeep : (!test a) = true := by simpa using h
      rw [List.filter_cons_of_pos (p := fun a => !test a) hKeep,
        List.filter_cons_of_pos (p := fun a => !test a) hKeep, ih]

theorem mem_sweep_of_false {a : α} (h : test a = false) (l : List α) :
    a ∈ sweep test l ↔ a ∈ l := by
  have hMem : ∀ k : List α, a ∈ k ↔ a ∈ k.filter fun a => !test a := by simp [h]
  rw [hMem, filter_sweep, ← hMem]

/-- No two neighbours meet the test. -/
def Sparse (test : α → Bool) (l : List α) : Prop :=
  l.IsChain fun a b => ¬ (test a = true ∧ test b = true)

/-- All that meet the test are gone exactly when no two of them were neighbours. -/
theorem sweep_clean_iff (l : List α) :
    (∀ a ∈ sweep test l, test a = false) ↔ Sparse test l := by
  unfold Sparse
  fun_induction sweep test l with
  | case1 => simp
  | case2 a h => simp
  | case3 a h => simp [h]
  | case4 a b l h ih =>
      rw [List.forall_mem_cons, ih, List.isChain_cons_cons]
      cases hTest : test b
      · cases l with
        | nil => simp
        | cons c l => simp [hTest]
      · simp [h]
  | case5 a b l h ih =>
      rw [List.forall_mem_cons, ih, List.isChain_cons_cons]
      simp [h]

end XQueue

end Lftp.Ports
