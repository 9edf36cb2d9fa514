import Lftp.Verified.Table

/-!
# Doubly linked lists

A heap is a table of nodes under their addresses, and a node has the addresses of its
neighbours. `Chain` is a part of a list with what stands before and after it.

* `chain_append`: two chains that are each other's neighbours.
* `Chain.setNext_last`, `Chain.setPrev_first`: an end of a chain gets another neighbour.
* `Chain.setNext`, `Chain.setPrev`: writes to other nodes.
-/

namespace Lftp.Verified.Linked

open Assoc

structure Node (α : Type) where
  val : α
  next : Option Nat
  prev : Option Nat
deriving DecidableEq

abbrev Heap (α : Type) := Table Nat (Node α)

variable {α : Type}

def setNext (h : Heap α) (a : Nat) (n : Option Nat) : Heap α :=
  h.modify a fun node => { node with next := n }

def setPrev (h : Heap α) (a : Nat) (p : Option Nat) : Heap α :=
  h.modify a fun node => { node with prev := p }

/-- The first address of a list, or `q` where it is empty. -/
def first (es : List (Nat × α)) (q : Option Nat) : Option Nat := (es.head?.map Prod.fst).or q

/-- The last address of a list, or `p` where it is empty. -/
def last (p : Option Nat) (es : List (Nat × α)) : Option Nat := (es.getLast?.map Prod.fst).or p

/-- The nodes with their values, one after the other, from the neighbour `p` to the
neighbour `q`. -/
def Chain (h : Heap α) : Option Nat → List (Nat × α) → Option Nat → Prop
  | _, [], _ => True
  | p, e :: es, q => h.get e.1 = some ⟨e.2, first es q, p⟩ ∧ Chain h (some e.1) es q

variable {h h' : Heap α} {p q n : Option Nat} {es es' : List (Nat × α)} {e : Nat × α} {a : Nat}

@[simp] theorem first_nil (q : Option Nat) : first ([] : List (Nat × α)) q = q := rfl

@[simp] theorem first_cons (e : Nat × α) (es : List (Nat × α)) (q : Option Nat) :
    first (e :: es) q = some e.1 := rfl

@[simp] theorem last_nil (p : Option Nat) : last p ([] : List (Nat × α)) = p := rfl

@[simp] theorem last_concat (p : Option Nat) (es : List (Nat × α)) (e : Nat × α) :
    last p (es ++ [e]) = some e.1 := by
  simp [last]

theorem first_append (es es' : List (Nat × α)) (q : Option Nat) :
    first (es ++ es') q = first es (first es' q) := by
  cases es <;> rfl

theorem last_append (p : Option Nat) (es es' : List (Nat × α)) :
    last p (es ++ es') = last (last p es) es' := by
  unfold last
  rw [List.getLast?_append]
  cases es'.getLast? <;> rfl

theorem last_cons (p : Option Nat) (e : Nat × α) (es : List (Nat × α)) :
    last p (e :: es) = last (some e.1) es :=
  last_append p [e] es

theorem first_eq_none : first es none = none ↔ es = [] := by
  cases es <;> simp

theorem last_eq_none : last none es = none ↔ es = [] := by
  rcases List.eq_nil_or_concat es with rfl | ⟨es, e, rfl⟩
  · simp
  · simp

theorem first_of_ne (h : es ≠ []) (p q : Option Nat) : first es p = first es q := by
  cases es with
  | nil => exact absurd rfl h
  | cons e es => rfl

theorem last_of_ne (h : es ≠ []) (p q : Option Nat) : last p es = last q es := by
  rcases List.eq_nil_or_concat es with rfl | ⟨es, e, rfl⟩
  · exact absurd rfl h
  · rw [List.concat_eq_append, last_concat, last_concat]

theorem first_mem (h : first es none = some a) : a ∈ keys es := by
  cases es with
  | nil => cases h
  | cons e es =>
      cases h
      exact List.mem_cons_self

/-! ## Chains -/

theorem chain_append {es es' : List (Nat × α)} : Chain h p (es ++ es') q
    ↔ Chain h p es (first es' q) ∧ Chain h (last p es) es' q := by
  induction es generalizing p with
  | nil => simp [Chain]
  | cons e es ih => rw [List.cons_append, Chain, Chain, ih, first_append, last_cons, and_assoc]

theorem chain_singleton : Chain h p [e] q ↔ h.get e.1 = some ⟨e.2, q, p⟩ := by
  simp [Chain]

/-- The node of an entry. -/
theorem Chain.get (hChain : Chain h p (es ++ e :: es') q) :
    h.get e.1 = some ⟨e.2, first es' q, last p es⟩ :=
  (chain_append.mp hChain).2.1

theorem Chain.get_of_mem (hChain : Chain h p es q) (ha : a ∈ keys es) : ∃ node, h.get a = some node := by
  obtain ⟨e, he, rfl⟩ := List.mem_map.mp ha
  obtain ⟨before, after, rfl⟩ := List.append_of_mem he
  exact ⟨_, hChain.get⟩

theorem Chain.congr (hChain : Chain h p es q) (hSame : ∀ a ∈ keys es, h'.get a = h.get a) :
    Chain h' p es q := by
  induction es generalizing p with
  | nil => trivial
  | cons e es ih =>
      rw [keys_cons, List.forall_mem_cons] at hSame
      exact ⟨hSame.1.trans hChain.1, ih hChain.2 hSame.2⟩

/-- Nodes with other neighbours than those of the chain. -/
theorem Chain.modify (hChain : Chain h p es q) (ha : a ∉ keys es) (f : Node α → Node α) :
    Chain (h.modify a f) p es q := by
  apply hChain.congr
  intro b hb
  rw [Table.get_modify, if_neg]
  rintro rfl
  exact ha hb

/-- The last node gets another neighbour. -/
theorem Chain.setNext_last (hChain : Chain h p (es ++ [e]) q) (he : e.1 ∉ keys es) (n : Option Nat) :
    Chain (setNext h e.1 n) p (es ++ [e]) n := by
  rw [chain_append, chain_singleton] at hChain ⊢
  refine ⟨hChain.1.modify he _, ?_⟩
  rw [setNext, Table.get_modify, if_pos rfl, hChain.2]
  rfl

/-- The first node gets another neighbour. -/
theorem Chain.setPrev_first (hChain : Chain h p (e :: es) q) (he : e.1 ∉ keys es) (n : Option Nat) :
    Chain (setPrev h e.1 n) n (e :: es) q := by
  refine ⟨?_, hChain.2.modify he _⟩
  rw [setPrev, Table.get_modify, if_pos rfl, hChain.1]
  rfl

end Lftp.Verified.Linked
