import Lftp.Verified.HeapOrder
import Lftp.Verified.Outcome
import Mathlib.Logic.Function.Basic

/-!
# `xheap`

The heap of `xheap.h`: an array of nodes, each of which knows where in the array
it is, so that any of them can be removed. The order is that of the template
argument, `lt`; it need agree with an order of keys on the nodes in the heap only.

* `Indexed` is the invariant of the array and the `heap_index`es.
* `add_spec`, `remove_spec`: what the operations do, and that no assertion fails.
-/

namespace Lftp.Ports

open Lftp.Verified

/-- `xheap`: `count()`, `ptr(i)`, and the `heap_index` of each node. -/
structure XHeap (α : Type) where
  count : Nat
  ptr : Nat → α
  index : α → Nat

namespace XHeap

/-- An assertion of the code that does not hold. -/
inductive Fault
  | assertion

variable {α : Type}

/-- Each node in the array knows its place, and no other node has one. -/
structure Indexed (h : XHeap α) : Prop where
  index_ptr : ∀ k, 1 ≤ k → k ≤ h.count → h.index (h.ptr k) = k
  ptr_index : ∀ x, h.index x ≠ 0 → h.index x ≤ h.count ∧ h.ptr (h.index x) = x

/-- The same nodes in other places. -/
structure Rearranged (h h' : XHeap α) : Prop where
  indexed : Indexed h'
  count : h'.count = h.count
  index_zero : ∀ x, h'.index x = 0 ↔ h.index x = 0

/-- `get_min`. -/
def getMin (h : XHeap α) : Option α := if 0 < h.count then some (h.ptr 1) else none

variable [DecidableEq α]

/-- `swap`. -/
def swap (h : XHeap α) (a b : Nat) : XHeap α :=
  let ptr := exchange h.ptr a b
  { h with ptr, index := Function.update (Function.update h.index (ptr a) a) (ptr b) b }

/-- `chop`. -/
def chop (h : XHeap α) : XHeap α :=
  { h with count := h.count - 1, index := Function.update h.index (h.ptr h.count) 0 }

variable (lt : α → α → Bool)

/-- `siftup`, with at most `n` turns of the loop. -/
def siftup (h : XHeap α) : Nat → Nat → XHeap α
  | 0, _ => h
  | n + 1, i =>
    if i > 1 ∧ lt (h.ptr i) (h.ptr (i / 2)) then siftup (h.swap i (i / 2)) n (i / 2) else h

/-- The smallest of the heirs. -/
def heir (h : XHeap α) (i : Nat) : Nat :=
  if i * 2 < h.count ∧ lt (h.ptr (i * 2 + 1)) (h.ptr (i * 2)) then i * 2 + 1 else i * 2

/-- `siftdown`, with at most `n` turns of the loop. -/
def siftdown (h : XHeap α) : Nat → Nat → XHeap α
  | 0, _ => h
  | n + 1, i =>
    if i ≤ h.count / 2 then
      if lt (h.ptr i) (h.ptr (h.heir lt i)) then h
      else siftdown (h.swap i (h.heir lt i)) n (h.heir lt i)
    else h

/-- `fix`. -/
def fix (h : XHeap α) (i : Nat) : XHeap α := (h.siftdown lt h.count i).siftup lt i i

/-- `remove(int)`. -/
def removeAt (h : XHeap α) (i : Nat) : Except Fault (XHeap α) :=
  if i = h.count then .ok h.chop
  else if 0 < i ∧ i < h.count then .ok ((h.swap i h.count).chop.fix lt i)
  else .error .assertion

/-- `add`. -/
def add (h : XHeap α) (x : α) : Except Fault (XHeap α) :=
  if h.index x ≠ 0 then
    if h.index x ≤ h.count ∧ h.ptr (h.index x) = x then .ok h else .error .assertion
  else
    let h : XHeap α :=
      { count := h.count + 1
        ptr := Function.update h.ptr (h.count + 1) x
        index := Function.update h.index x (h.count + 1) }
    .ok (h.siftup lt h.count h.count)

/-- `remove(node&)`. -/
def remove (h : XHeap α) (x : α) : Except Fault (XHeap α) :=
  if h.index x = 0 then .ok h
  else if h.ptr (h.index x) = x then do
    let h ← h.removeAt lt (h.index x)
    if h.index x = 0 then return h else throw .assertion
  else .error .assertion

/-- `pop_min`. -/
def popMin (h : XHeap α) : Except Fault (XHeap α) :=
  if 0 < h.count then h.removeAt lt 1 else .ok h

/-! ## Positions -/

section Positions

variable {h h' : XHeap α} {i j k : Nat} {x : α} {lt : α → α → Bool}

omit [DecidableEq α] in
theorem Indexed.rearranged (h' : Indexed h) : Rearranged h h := ⟨h', rfl, fun _ => Iff.rfl⟩

omit [DecidableEq α] in
theorem Rearranged.trans {h'' : XHeap α} (h₁ : Rearranged h h') (h₂ : Rearranged h' h'') :
    Rearranged h h'' :=
  ⟨h₂.indexed, h₂.count.trans h₁.count, fun x => (h₂.index_zero x).trans (h₁.index_zero x)⟩

omit [DecidableEq α] in
theorem Indexed.index_ne_zero (hI : Indexed h) (h1 : 1 ≤ k) (hk : k ≤ h.count) :
    h.index (h.ptr k) ≠ 0 := by
  rw [hI.index_ptr k h1 hk]
  omega

omit [DecidableEq α] in
theorem Indexed.ptr_inj (hI : Indexed h) (hj1 : 1 ≤ j) (hj : j ≤ h.count) (hk1 : 1 ≤ k)
    (hk : k ≤ h.count) (hEq : h.ptr j = h.ptr k) : j = k := by
  rw [← hI.index_ptr j hj1 hj, hEq, hI.index_ptr k hk1 hk]

/-- Which node is where after an exchange. -/
theorem index_swap (h : XHeap α) (i j : Nat) (x : α) :
    (h.swap i j).index x = if x = h.ptr i then j else if x = h.ptr j then i else h.index x := by
  simp only [XHeap.swap, exchange_left, exchange_right, Function.update_apply]

theorem Indexed.swap (hI : Indexed h) (hi1 : 1 ≤ i) (hi : i ≤ h.count) (hj1 : 1 ≤ j)
    (hj : j ≤ h.count) : Rearranged h (h.swap i j) := by
  refine ⟨⟨fun k hk1 hk => ?_, fun x hx => ?_⟩, rfl, fun x => ?_⟩
  · rw [index_swap]
    show (if exchange h.ptr i j k = h.ptr i then j
      else if exchange h.ptr i j k = h.ptr j then i else h.index (exchange h.ptr i j k)) = k
    rcases eq_or_ne k i with rfl | hki
    · rw [exchange_left]
      split
      · next hEq => exact hI.ptr_inj hj1 hj hi1 hi hEq
      · exact if_pos rfl
    · rcases eq_or_ne k j with rfl | hkj
      · rw [exchange_right, if_pos rfl]
      · rw [exchange_of_ne hki hkj, if_neg fun hEq => hki (hI.ptr_inj hk1 hk hi1 hi hEq),
          if_neg fun hEq => hkj (hI.ptr_inj hk1 hk hj1 hj hEq)]
        exact hI.index_ptr k hk1 hk
  · rw [index_swap] at hx ⊢
    show _ ≤ h.count ∧ exchange h.ptr i j _ = x
    split
    · next hEq => exact ⟨hj, by rw [exchange_right, hEq]⟩
    · next hNi =>
      split
      · next hEq => exact ⟨hi, by rw [exchange_left, hEq]⟩
      · next hNj =>
        rw [if_neg hNi, if_neg hNj] at hx
        obtain ⟨hLe, hPtr⟩ := hI.ptr_index x hx
        refine ⟨hLe, ?_⟩
        rw [exchange_of_ne]
        · exact hPtr
        · intro hEq
          rw [hEq] at hPtr
          exact hNi hPtr.symm
        · intro hEq
          rw [hEq] at hPtr
          exact hNj hPtr.symm
  · rw [index_swap]
    split
    · next hEq =>
      have hNonzero := hI.index_ne_zero hi1 hi
      rw [hEq]
      omega
    · split
      · next hEq =>
        have hNonzero := hI.index_ne_zero hj1 hj
        rw [hEq]
        omega
      · exact Iff.rfl

/-- The last node goes. -/
theorem Indexed.chop (hI : Indexed h) (hCount : 1 ≤ h.count) :
    Indexed h.chop ∧ ∀ x, h.chop.index x = 0 ↔ h.index x = 0 ∨ x = h.ptr h.count := by
  refine ⟨⟨fun k hk1 hk => ?_, fun x hx => ?_⟩, fun x => ?_⟩
  · change k ≤ h.count - 1 at hk
    show Function.update h.index (h.ptr h.count) 0 (h.ptr k) = k
    rw [Function.update_of_ne]
    · exact hI.index_ptr k hk1 (by omega)
    · intro hEq
      have hSame := hI.ptr_inj hk1 (by omega) hCount (le_refl _) hEq
      omega
  · change Function.update h.index (h.ptr h.count) 0 x ≠ 0 at hx
    show Function.update h.index (h.ptr h.count) 0 x ≤ h.count - 1 ∧
      h.ptr (Function.update h.index (h.ptr h.count) 0 x) = x
    rw [Function.update_apply] at hx ⊢
    split at hx
    · exact absurd rfl hx
    · next hNe =>
      rw [if_neg hNe]
      obtain ⟨hLe, hPtr⟩ := hI.ptr_index x hx
      refine ⟨?_, hPtr⟩
      rcases Nat.lt_or_ge (h.index x) h.count with hLt | hGe
      · omega
      · rw [show h.index x = h.count by omega] at hPtr
        exact absurd hPtr.symm hNe
  · show Function.update h.index (h.ptr h.count) 0 x = 0 ↔ _
    rw [Function.update_apply]
    split
    · next hEq => exact iff_of_true rfl (.inr hEq)
    · next hNe => exact (or_iff_left hNe).symm

end Positions

/-! ## Order -/

section Order

variable {κ : Type} [LinearOrder κ] {key : α → κ} {lt : α → α → Bool} {h h' : XHeap α} {i k : Nat}

/-- The keys in the array. -/
def keys (key : α → κ) (h : XHeap α) (k : Nat) : κ := key (h.ptr k)

/-- On the nodes in the heap, `lt` is the order of their keys. -/
def Keyed (lt : α → α → Bool) (key : α → κ) (h : XHeap α) : Prop :=
  ∀ x y, h.index x ≠ 0 → h.index y ≠ 0 → (lt x y = true ↔ key x < key y)

omit [LinearOrder κ] in
theorem keys_swap (key : α → κ) (h : XHeap α) (i j : Nat) :
    (h.swap i j).keys key = exchange (h.keys key) i j :=
  funext (map_exchange key h.ptr i j)

omit [DecidableEq α] in
theorem Keyed.rearranged (hK : Keyed lt key h) (hR : Rearranged h h') : Keyed lt key h' := by
  intro x y hx hy
  rw [ne_eq, hR.index_zero] at hx hy
  exact hK x y hx hy

omit [DecidableEq α] in
theorem Keyed.lt_iff {j : Nat} (hK : Keyed lt key h) (hI : Indexed h) (hj1 : 1 ≤ j)
    (hj : j ≤ h.count) (hk1 : 1 ≤ k) (hk : k ≤ h.count) :
    lt (h.ptr j) (h.ptr k) = true ↔ h.keys key j < h.keys key k :=
  hK _ _ (hI.index_ne_zero hj1 hj) (hI.index_ne_zero hk1 hk)

/-- `siftup` mends what is out of order above `i`. -/
theorem siftup_spec (hI : Indexed h) (hK : Keyed lt key h) {n : Nat} (hn : i ≤ n) (h1 : 1 ≤ i)
    (hi : i ≤ h.count) (hUp : UpHole (h.keys key) h.count i) :
    Rearranged h (h.siftup lt n i) ∧ HeapOrdered ((h.siftup lt n i).keys key) h.count := by
  induction n generalizing h i with
  | zero => omega
  | succ n ih =>
      unfold siftup
      split
      · next hTurn =>
        have hParent : 1 ≤ i / 2 ∧ i / 2 ≤ h.count ∧ i / 2 ≤ n := by omega
        have hLt := (hK.lt_iff hI h1 hi hParent.1 hParent.2.1).mp hTurn.2
        have hSwap := hI.swap h1 hi hParent.1 hParent.2.1
        have hTurned := hUp.exchange (by omega) hi hLt
        rw [← keys_swap] at hTurned
        obtain ⟨hRest, hOrdered⟩ := ih hSwap.indexed (hK.rearranged hSwap) hParent.2.2 hParent.1
          hParent.2.1 hTurned
        exact ⟨hSwap.trans hRest, hOrdered⟩
      · next hStop =>
        refine ⟨hI.rearranged, hUp.ordered fun h2 => ?_⟩
        rw [← not_lt]
        intro hLt
        exact hStop ⟨by omega, (hK.lt_iff hI h1 hi (by omega) (by omega)).mpr hLt⟩

omit [DecidableEq α] in
/-- The heir that is chosen is a child, and none has a smaller key. -/
theorem heir_spec (hI : Indexed h) (hK : Keyed lt key h) (h1 : 1 ≤ i) (hi : i ≤ h.count / 2) :
    h.heir lt i ≤ h.count ∧ h.heir lt i / 2 = i ∧
      ∀ j, j ≤ h.count → j / 2 = i → h.keys key (h.heir lt i) ≤ h.keys key j := by
  have hChildren : ∀ j, j / 2 = i → j = i * 2 ∨ j = i * 2 + 1 := by omega
  unfold heir
  split
  · next hRight =>
    have hLt := (hK.lt_iff hI (by omega) (by omega) (by omega) (by omega)).mp hRight.2
    refine ⟨by omega, by omega, fun j hj hParent => ?_⟩
    rcases hChildren j hParent with rfl | rfl
    · exact hLt.le
    · exact le_refl _
  · next hLeft =>
    refine ⟨by omega, by omega, fun j hj hParent => ?_⟩
    rcases hChildren j hParent with rfl | rfl
    · exact le_refl _
    · rw [← not_lt]
      intro hLt
      exact hLeft ⟨by omega, (hK.lt_iff hI (by omega) hj (by omega) (by omega)).mpr hLt⟩

/-- `siftdown` mends what is out of order below `i`, and only the edge above `i`
may remain so. -/
theorem siftdown_spec (hI : Indexed h) (hK : Keyed lt key h) {n : Nat} (hn : h.count < i + n)
    (h1 : 1 ≤ i) (hi : i ≤ h.count) (hDown : DownHole (h.keys key) h.count i) :
    Rearranged h (h.siftdown lt n i) ∧ UpHole ((h.siftdown lt n i).keys key) h.count i ∧
      ((2 ≤ i → h.keys key (i / 2) ≤ h.keys key i) →
        HeapOrdered ((h.siftdown lt n i).keys key) h.count) := by
  induction n generalizing h i with
  | zero => omega
  | succ n ih =>
      unfold siftdown
      split
      · next hInner =>
        obtain ⟨hHeir, hChild, hLeast⟩ := heir_spec hI hK h1 hInner
        have hIff := hK.lt_iff hI h1 hi (by omega) hHeir
        split
        · next hStop =>
          have hUp := hDown.upHole fun j h2 hj hParent =>
            (hIff.mp hStop).le.trans (hLeast j hj hParent)
          exact ⟨hI.rearranged, hUp, hUp.ordered⟩
        · next hTurn =>
          have hSwap := hI.swap h1 hi (by omega) hHeir
          have hLe : h.keys key (h.heir lt i) ≤ h.keys key i := not_lt.mp fun hLt =>
            hTurn (hIff.mpr hLt)
          have hTurned := hDown.exchange h1 hHeir hChild hLe hLeast
          rw [← keys_swap] at hTurned
          have hFuel : (h.swap i (h.heir lt i)).count < h.heir lt i + n := by
            show h.count < _
            omega
          obtain ⟨hRest, -, hOrdered⟩ :=
            ih hSwap.indexed (hK.rearranged hSwap) hFuel (by omega) hHeir hTurned.1
          have hAll := hOrdered fun _ => by
            rw [hChild]
            exact hTurned.2
          exact ⟨hSwap.trans hRest, hAll.upHole i, fun _ => hAll⟩
      · next hLeaf =>
        have hUp := hDown.upHole fun j h2 hj hParent => by omega
        exact ⟨hI.rearranged, hUp, hUp.ordered⟩

theorem fix_spec (hI : Indexed h) (hK : Keyed lt key h) (h1 : 1 ≤ i) (hi : i ≤ h.count)
    (hDown : DownHole (h.keys key) h.count i) :
    Rearranged h (h.fix lt i) ∧ HeapOrdered ((h.fix lt i).keys key) h.count := by
  obtain ⟨hR, hUp, -⟩ := siftdown_spec hI hK (by omega : h.count < i + h.count) h1 hi hDown
  obtain ⟨hR', hOrdered⟩ := siftup_spec hR.indexed (hK.rearranged hR) (le_refl i) h1
    (by rw [hR.count]; exact hi) (by rw [hR.count]; exact hUp)
  rw [hR.count] at hOrdered
  exact ⟨hR.trans hR', hOrdered⟩

/-! ## The operations -/

/-- The heap `h'` is in order and holds the nodes that satisfy `p`. -/
structure Holding (key : α → κ) (p : α → Prop) (h' : XHeap α) : Prop where
  indexed : Indexed h'
  ordered : HeapOrdered (h'.keys key) h'.count
  mem : ∀ x, h'.index x ≠ 0 ↔ p x

/-- `a` is the order in the array before the key of the node at `i` was changed. -/
theorem removeAt_spec (hI : Indexed h) {a : Nat → κ} (hOrdered : HeapOrdered a h.count)
    (h1 : 1 ≤ i) (hi : i ≤ h.count)
    (hKeys : ∀ k, 1 ≤ k → k ≤ h.count → k ≠ i → h.keys key k = a k)
    (hK : ∀ x y, h.index x ≠ 0 → h.index y ≠ 0 → x ≠ h.ptr i → y ≠ h.ptr i →
      (lt x y = true ↔ key x < key y)) :
    Yields Never (fun h' => Holding key (fun x => h.index x ≠ 0 ∧ x ≠ h.ptr i) h' ∧
      h'.count = h.count - 1) (h.removeAt lt i) := by
  unfold removeAt
  split
  · next hLast =>
    subst hLast
    obtain ⟨hChop, hMem⟩ := hI.chop h1
    refine ⟨⟨hChop, ?_, fun x => ?_⟩, rfl⟩
    · apply (hOrdered.mono (Nat.sub_le h.count 1)).congr
      intro k hk1 hk
      exact hKeys k hk1 (by omega) (by omega)
    · rw [ne_eq, hMem, not_or]
  · next hInner =>
    have hLt : i < h.count := by omega
    rw [if_pos ⟨h1, hLt⟩]
    have hSwap := hI.swap h1 hi (by omega) (le_refl _)
    obtain ⟨hChop, hMem⟩ := hSwap.indexed.chop (by show 1 ≤ h.count; omega)
    have hGone : (h.swap i h.count).ptr (h.swap i h.count).count = h.ptr i :=
      exchange_right h.ptr i h.count
    rw [hGone] at hMem
    have hKeyed : Keyed lt key (h.swap i h.count).chop := by
      intro x y hx hy
      rw [ne_eq, hMem, not_or, hSwap.index_zero] at hx hy
      exact hK x y hx.1 hy.1 hx.2 hy.2
    have hDown : DownHole ((h.swap i h.count).chop.keys key) (h.count - 1) i := by
      apply (hOrdered.mono (Nat.sub_le h.count 1)).downHole
      intro k hk1 hk hNe
      rw [← hKeys k hk1 (by omega) hNe]
      have hSame := congrFun (keys_swap key h i h.count) k
      rw [exchange_of_ne hNe (by omega)] at hSame
      exact hSame
    obtain ⟨hR, hFixed⟩ := fix_spec hChop hKeyed h1 (by show i ≤ h.count - 1; omega) hDown
    refine ⟨⟨hR.indexed, hR.count ▸ hFixed, fun x => ?_⟩, hR.count⟩
    rw [ne_eq, hR.index_zero, hMem, not_or, hSwap.index_zero]

/-- `remove` leaves the others, in order, also after a change of the node's key. -/
theorem remove_spec {x : α} {key₀ : α → κ} {p : α → Prop} (h₀ : Holding key₀ p h)
    (hKeys : ∀ y, p y → y ≠ x → key y = key₀ y)
    (hK : ∀ y z, p y → p z → y ≠ x → z ≠ x → (lt y z = true ↔ key y < key z)) :
    Yields Never (Holding key fun y => p y ∧ y ≠ x) (h.remove lt x) := by
  have hI := h₀.indexed
  unfold remove
  split
  · next hOut =>
    have hNe : ∀ y, p y → y ≠ x := by
      rintro y hy rfl
      exact (h₀.mem y).mpr hy hOut
    refine ⟨hI, ?_, fun y => ?_⟩
    · apply h₀.ordered.congr
      intro k hk1 hk
      have hp := (h₀.mem _).mp (hI.index_ne_zero hk1 hk)
      exact hKeys _ hp (hNe _ hp)
    · rw [h₀.mem]
      exact ⟨fun hy => ⟨hy, hNe y hy⟩, And.left⟩
  · next hIn =>
    obtain ⟨hLe, hPtr⟩ := hI.ptr_index x hIn
    rw [if_pos hPtr]
    have hRemoved : Yields Never (fun h' =>
        Holding key (fun y => h.index y ≠ 0 ∧ y ≠ h.ptr (h.index x)) h' ∧ h'.count = h.count - 1)
        (h.removeAt lt (h.index x)) := by
      apply removeAt_spec hI h₀.ordered (Nat.pos_of_ne_zero hIn) hLe
      · intro k hk1 hk hNe
        refine hKeys _ ((h₀.mem _).mp (hI.index_ne_zero hk1 hk)) fun hEq => hNe ?_
        rw [← hI.index_ptr k hk1 hk, hEq]
      · intro y z hy hz hNy hNz
        rw [hPtr] at hNy hNz
        exact hK y z ((h₀.mem y).mp hy) ((h₀.mem z).mp hz) hNy hNz
    rw [hPtr] at hRemoved
    apply hRemoved.bind
    rintro h' ⟨hh', -⟩
    have hZero : h'.index x = 0 := by
      by_contra hNonzero
      exact ((hh'.mem x).mp hNonzero).2 rfl
    rw [if_pos hZero]
    refine ⟨hh'.indexed, hh'.ordered, fun y => ?_⟩
    rw [hh'.mem, h₀.mem]

/-- A new node at the end of the array. -/
theorem Indexed.append (hI : Indexed h) {x : α} (hx : h.index x = 0) :
    Indexed { h with
      count := h.count + 1
      ptr := Function.update h.ptr (h.count + 1) x
      index := Function.update h.index x (h.count + 1) } := by
  refine ⟨fun k hk1 hk => ?_, fun y hy => ?_⟩
  · change k ≤ h.count + 1 at hk
    show Function.update h.index x (h.count + 1) (Function.update h.ptr (h.count + 1) x k) = k
    rcases eq_or_ne k (h.count + 1) with rfl | hNe
    · rw [Function.update_self, Function.update_self]
    · have hOld := hI.index_ptr k hk1 (by omega)
      rw [Function.update_of_ne hNe, Function.update_of_ne, hOld]
      intro hEq
      rw [hEq, hx] at hOld
      omega
  · change Function.update h.index x (h.count + 1) y ≠ 0 at hy
    show Function.update h.index x (h.count + 1) y ≤ h.count + 1 ∧
      Function.update h.ptr (h.count + 1) x (Function.update h.index x (h.count + 1) y) = y
    rcases eq_or_ne y x with rfl | hNe
    · rw [Function.update_self, Function.update_self]
      exact ⟨le_refl _, rfl⟩
    · rw [Function.update_of_ne hNe] at hy ⊢
      obtain ⟨hLe, hPtr⟩ := hI.ptr_index y hy
      rw [Function.update_of_ne (by omega)]
      exact ⟨by omega, hPtr⟩

/-- `add` puts a node that is not in the heap where it belongs. -/
theorem add_spec {x : α} {p : α → Prop} (h₀ : Holding key p h) (hx : ¬ p x)
    (hK : ∀ y z, (p y ∨ y = x) → (p z ∨ z = x) → (lt y z = true ↔ key y < key z)) :
    Yields Never (Holding key fun y => p y ∨ y = x) (h.add lt x) := by
  have hZero : h.index x = 0 := by
    by_contra hNonzero
    exact hx ((h₀.mem x).mp hNonzero)
  have hI := h₀.indexed.append hZero
  unfold add
  rw [if_neg (not_not.mpr hZero)]
  dsimp only
  generalize hAppended : ({ h with
      count := h.count + 1
      ptr := Function.update h.ptr (h.count + 1) x
      index := Function.update h.index x (h.count + 1) } : XHeap α) = d at hI
  have hCount : d.count = h.count + 1 := by rw [← hAppended]
  have hMem : ∀ y, d.index y ≠ 0 ↔ p y ∨ y = x := by
    intro y
    rw [← h₀.mem, ← hAppended]
    show Function.update h.index x (h.count + 1) y ≠ 0 ↔ _
    rw [Function.update_apply]
    split
    · next hEq => exact iff_of_true (Nat.succ_ne_zero _) (.inr hEq)
    · next hNe => exact (or_iff_left hNe).symm
  have hKeyed : Keyed lt key d := fun y z hy hz => hK y z ((hMem y).mp hy) ((hMem z).mp hz)
  have hUp : UpHole (d.keys key) d.count d.count := by
    have hOld : ∀ k, k ≤ h.count → d.keys key k = h.keys key k := by
      intro k hk
      rw [← hAppended]
      show key (Function.update h.ptr (h.count + 1) x k) = _
      rw [Function.update_of_ne (by omega)]
      rfl
    refine ⟨fun j h2 hj hNe => ?_, fun h2 j hj hParent => by omega⟩
    rw [hOld j (by omega), hOld (j / 2) (by omega)]
    exact h₀.ordered j h2 (by omega)
  obtain ⟨hR, hOrdered⟩ := siftup_spec hI hKeyed (le_refl _) (by omega) (le_refl _) hUp
  rw [← hCount]
  refine ⟨hR.indexed, ?_, fun y => ?_⟩
  · rw [hR.count]
    exact hOrdered
  · rw [ne_eq, hR.index_zero]
    exact hMem y

/-- `pop_min` takes the root. -/
theorem popMin_spec {x : α} {p : α → Prop} (h₀ : Holding key p h) (hMin : h.getMin = some x)
    (hK : ∀ y z, p y → p z → (lt y z = true ↔ key y < key z)) :
    Yields Never (fun h' => Holding key (fun y => p y ∧ y ≠ x) h' ∧ h'.count = h.count - 1)
      (h.popMin lt) := by
  unfold getMin at hMin
  split at hMin
  · next hCount =>
    cases hMin
    unfold popMin
    rw [if_pos hCount]
    have hRemoved := removeAt_spec h₀.indexed h₀.ordered (le_refl 1) hCount
      (fun _ _ _ _ => rfl)
      (fun y z hy hz _ _ => hK y z ((h₀.mem y).mp hy) ((h₀.mem z).mp hz))
    apply hRemoved.imp
    rintro h' ⟨hh', hCount'⟩
    refine ⟨⟨hh'.indexed, hh'.ordered, fun y => ?_⟩, hCount'⟩
    rw [hh'.mem, h₀.mem]
  · cases hMin

omit [DecidableEq α] in
/-- The root is in the heap, and no key is less than its key. -/
theorem getMin_spec {x : α} {p : α → Prop} (h₀ : Holding key p h) (hMin : h.getMin = some x) :
    p x ∧ ∀ y, p y → key x ≤ key y := by
  have hI := h₀.indexed
  unfold getMin at hMin
  split at hMin
  · next hCount =>
    cases hMin
    refine ⟨(h₀.mem _).mp (hI.index_ne_zero (le_refl 1) hCount), fun y hy => ?_⟩
    have hNonzero := (h₀.mem y).mpr hy
    obtain ⟨hLe, hPtr⟩ := hI.ptr_index y hNonzero
    have hRoot := h₀.ordered.root_le (Nat.pos_of_ne_zero hNonzero) hLe
    simp only [keys, hPtr] at hRoot
    exact hRoot
  · cases hMin

omit [DecidableEq α] in
/-- Without a root there is nothing in the heap. -/
theorem getMin_none {p : α → Prop} (h₀ : Holding key p h) (hMin : h.getMin = none) (x : α) :
    ¬ p x := by
  intro hp
  have hNonzero := (h₀.mem x).mpr hp
  have hLe := (h₀.indexed.ptr_index x hNonzero).1
  unfold getMin at hMin
  rw [if_pos (by omega)] at hMin
  cases hMin

end Order

end XHeap

end Lftp.Ports
