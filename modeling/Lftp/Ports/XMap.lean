import Mathlib.Data.Finmap
import Lftp.Verified.Buckets
import Lftp.Verified.Decimal

/-!
# `xmap`: the hash table

A translation of `xmap.cc` and of the templates over it in `xmap.h`. A pointer
to an entry is the entry's address, and the `next` of an entry is its successor
in the chain that holds it. A pointer that is followed after its entry was freed
is `none`.

* `Valid` is the invariant: the chains are indexed by the hash, keys and
  addresses are distinct, and `entry_count` counts the entries.
* `Refines` relates a table to a finite map; there is one lemma for each operation.
* `Pending` is the invariant of an iteration: what is still to be returned.
* `xmap_refines` is the run theorem over both.
-/

namespace Lftp.Ports

open Lftp.Verified
open Lftp.Verified.Buckets

/-- `_xmap::entry` with its payload. -/
structure XMap.Entry (α : Type) where
  addr : Nat
  key : Bytes
  value : α

/-- `_xmap`. The array keeps a null pointer after its last slot, which is what
`chain` gives there. -/
structure XMap (α : Type) where
  hashSize : Nat
  map : List (List (XMap.Entry α))
  entryCount : Int
  eachHash : Int
  eachEntry : Option Nat
  lastEntry : Option Nat

namespace XMap

variable {α : Type}

/-- The value an `int` takes. -/
def toInt (n : Int) : Int := n.bmod (2 ^ 32)

/-- A `char` added to an `unsigned` is sign-extended first. -/
def charToUnsigned (c : UInt8) : UInt32 := c.toInt8.toInt32.toUInt32

/-- `make_hash`. -/
def makeHash (hashSize : Nat) (s : Bytes) : Nat :=
  if hashSize = 1 then 0
  else
    let hash : UInt32 := s.foldl (fun hash c => hash + ((hash <<< 5) + charToUnsigned c)) 0x12345678
    let hash := hash + ((hash <<< 5) + UInt32.ofNat s.length)
    hash.toNat % hashSize

/-- The entries in the order of the chains. -/
def entries (t : XMap α) : List (Entry α) := t.map.flatten

/-- `new_map`. -/
def newMap (hashSize : Nat) : List (List (Entry α)) := List.replicate hashSize []

/-- The constructor. -/
def new : XMap α := ⟨1, newMap 1, 0, 0, none, none⟩

/-- `_lookup` and `_lookup_c`. -/
def find (t : XMap α) (key : Bytes) : Option (Entry α) :=
  (chain t.map (makeHash t.hashSize key)).find? fun e => e.key = key

/-- The table in `rebuild_map`. -/
def primes : List Int :=
  [17, 67, 257, 1031, 4099, 16411, 65537, 262147, 1048583, 4194319, 16777259,
    67108879, 268435459, 1073741827]

/-- The `hash_size` that `rebuild_map` chooses. -/
def rebuiltSize (entryCount : Int) : Nat :=
  let hashSize := toInt (entryCount * 2)
  ((primes.find? fun p => hashSize < p).getD hashSize).toNat

/-- `rebuild_map`. -/
def rebuildMap (t : XMap α) : XMap α :=
  let n := rebuiltSize t.entryCount
  { t with
    hashSize := n
    map := rehash (fun e => makeHash n e.key) t.entries (newMap n) }

/-- The address that `xmalloc` gives: some address not in use in the table. -/
def xmalloc (t : XMap α) : Nat := (t.entries.map Entry.addr).foldr max 0 + 1

/-- A new entry at the end of its chain. -/
def append (t : XMap α) (n : Entry α) : XMap α :=
  { t with
    map := t.map.modify (makeHash t.hashSize n.key) (· ++ [n])
    entryCount := toInt (t.entryCount + 1) }

/-- `_add`: the table and the address of the entry. -/
def addEntry [Inhabited α] (t : XMap α) (key : Bytes) : XMap α × Nat :=
  match t.find key with
  | some e => (t, e.addr)
  | none =>
    let n : Entry α := ⟨t.xmalloc, key, default⟩
    let t := t.append n
    if toInt (t.hashSize * 2) < t.entryCount then (t.rebuildMap, n.addr) else (t, n.addr)

/-- A store to `payload(e)`. -/
def setPayload (t : XMap α) (p : Nat) (v : α) : XMap α :=
  { t with map := t.map.map (List.map fun e => if e.addr = p then { e with value := v } else e) }

/-- `_remove` of the link to the entry at `p`. -/
def removeEntry (t : XMap α) (p : Nat) : XMap α :=
  { t with
    map := t.map.map (List.filter fun e => e.addr ≠ p)
    entryCount := toInt (t.entryCount - 1) }

/-! ## The templates -/

/-- `xmap<T>::lookup`; `zero` is the default value. -/
def lookup [Inhabited α] (t : XMap α) (key : Bytes) : α := ((t.find key).map Entry.value).getD default

/-- `exists`. -/
def isThere (t : XMap α) (key : Bytes) : Bool := (t.find key).isSome

/-- `count`. -/
def count (t : XMap α) : Int := t.entryCount

/-- `xmap<T>::add`. -/
def add [Inhabited α] (t : XMap α) (key : Bytes) (v : α) : XMap α :=
  (t.addEntry key).1.setPayload (t.addEntry key).2 v

/-- `lookup_Lv`, as far as it changes the table. -/
def lookupLv [Inhabited α] (t : XMap α) (key : Bytes) : XMap α :=
  match t.find key with
  | some _ => t
  | none => t.add key default

/-- `xmap<T>::remove`. -/
def remove (t : XMap α) (key : Bytes) : XMap α :=
  match t.find key with
  | some e => t.removeEntry e.addr
  | none => t

/-- `while(map[i]) _remove(&map[i])`. -/
def emptyChain (t : XMap α) (c : List (Entry α)) : XMap α :=
  c.foldl (fun t e => t.removeEntry e.addr) t

/-- `_empty`. -/
def empty (t : XMap α) : XMap α := t.map.foldl emptyChain t

/-- `_move_here`: this table after it. -/
def moveHere (t o : XMap α) : XMap α :=
  { t with hashSize := o.hashSize, map := o.map, entryCount := o.entryCount }

/-- `_move_here`: the other table after it. -/
def movedAway (o : XMap α) : XMap α :=
  { o with hashSize := 1, map := newMap 1, entryCount := 0 }

/-! ## Iteration -/

/-- The entry at an address and its `next`, within one chain. -/
def derefChain (p : Nat) : List (Entry α) → Option (Entry α × Option Nat)
  | [] => none
  | e :: c => if e.addr = p then some (e, c.head?.map Entry.addr) else derefChain p c

/-- The entry at an address and its `next`. -/
def deref (t : XMap α) (p : Nat) : Option (Entry α × Option Nat) :=
  t.map.findSome? (derefChain p)

/-- The loop of `_each_next`, by the number `hash_size - each_hash` of turns
left. It is `none` when it follows a pointer to a freed entry. -/
def eachLoop : Nat → XMap α → Option (XMap α × Option (Entry α))
  | 0, t => some ({ t with lastEntry := none }, none)
  | n + 1, t =>
    match t.eachEntry with
    | some p =>
      match t.deref p with
      | some (e, next) => some ({ t with lastEntry := some p, eachEntry := next }, some e)
      | none => none
    | none => eachLoop n { t with
        eachHash := t.eachHash + 1
        eachEntry := (chain t.map (t.eachHash + 1).toNat).head?.map Entry.addr }

/-- `_each_next`. -/
def eachNext (t : XMap α) : Option (XMap α × Option (Entry α)) :=
  eachLoop ((t.hashSize : Int) - t.eachHash).toNat t

/-- `_each_begin`. -/
def eachBegin (t : XMap α) : Option (XMap α × Option (Entry α)) :=
  eachNext { t with eachEntry := none, eachHash := -1 }

/-! ## The invariant -/

/-- What every operation keeps. -/
structure Valid (t : XMap α) : Prop where
  pos : 0 < t.hashSize
  size : t.map.length = t.hashSize
  placed : Placed (fun e => makeHash t.hashSize e.key) t.map
  keys : (t.entries.map Entry.key).Nodup
  addrs : (t.entries.map Entry.addr).Nodup
  counted : t.entryCount = toInt t.entries.length

variable {t o : XMap α} {key k : Bytes} {e : Entry α} {v : α}

theorem makeHash_lt {n : Nat} (hn : 0 < n) (s : Bytes) : makeHash n s < n := by
  unfold makeHash
  split
  · exact hn
  · exact Nat.mod_lt _ hn

theorem pos_of_mem_primes : ∀ p ∈ primes, 0 < p := by decide

/-- Whatever the count is, wrapped or not, the new table has a slot. -/
theorem rebuiltSize_pos (entryCount : Int) : 0 < rebuiltSize entryCount := by
  unfold rebuiltSize
  dsimp only
  generalize toInt (entryCount * 2) = n
  rw [Int.lt_toNat]
  rcases hFind : primes.find? fun p => n < p with _ | p
  · have h17 := List.find?_eq_none.mp hFind 17 List.mem_cons_self
    rw [decide_eq_true_eq] at h17
    show 0 < n
    omega
  · exact pos_of_mem_primes p (List.mem_of_find?_eq_some hFind)

theorem toInt_zero : toInt 0 = 0 := Int.zero_bmod

theorem toInt_add_one (n : Int) : toInt (toInt n + 1) = toInt (n + 1) := Int.bmod_add_bmod

theorem toInt_sub_one (n : Int) : toInt (toInt n - 1) = toInt (n - 1) := Int.bmod_sub_bmod

/-- The entry of a key is found, and nothing else is. -/
theorem Valid.find_eq_some_iff (h : Valid t) :
    t.find key = some e ↔ e ∈ t.entries ∧ e.key = key := by
  constructor
  · intro hFind
    have hKey : e.key = key := by simpa using List.find?_some hFind
    exact ⟨mem_flatten_iff.mpr ⟨_, List.mem_of_find?_eq_some hFind⟩, hKey⟩
  · rintro ⟨hMem, rfl⟩
    have hChain : e ∈ chain t.map (makeHash t.hashSize e.key) := (mem_chain_iff h.placed).mpr hMem
    have hSome : (t.find e.key).isSome := List.find?_isSome.mpr ⟨e, hChain, by simp⟩
    rcases Option.isSome_iff_exists.mp hSome with ⟨e', hFind⟩
    have hMem' : e' ∈ t.entries := mem_flatten_iff.mpr ⟨_, List.mem_of_find?_eq_some hFind⟩
    have hKey' : e'.key = e.key := by simpa using List.find?_some hFind
    rw [hFind, List.inj_on_of_nodup_map h.keys hMem' hMem hKey']

theorem Valid.find_eq_none_iff (h : Valid t) :
    t.find key = none ↔ key ∉ t.entries.map Entry.key := by
  rw [Option.eq_none_iff_forall_ne_some, List.mem_map]
  constructor
  · rintro hNone ⟨e, he, hKey⟩
    exact hNone e (h.find_eq_some_iff.mpr ⟨he, hKey⟩)
  · intro hNot e hFind
    exact hNot ⟨e, h.find_eq_some_iff.mp hFind⟩

/-- The value stored under a key. -/
def value? (t : XMap α) (key : Bytes) : Option α := (t.find key).map Entry.value

theorem Valid.value?_eq_some_iff (h : Valid t) :
    t.value? key = some v ↔ ∃ e ∈ t.entries, e.key = key ∧ e.value = v := by
  unfold value?
  rw [Option.map_eq_some_iff]
  constructor
  · rintro ⟨e, hFind, hv⟩
    exact ⟨e, (h.find_eq_some_iff.mp hFind).1, (h.find_eq_some_iff.mp hFind).2, hv⟩
  · rintro ⟨e, he, hKey, hv⟩
    exact ⟨e, h.find_eq_some_iff.mpr ⟨he, hKey⟩, hv⟩

/-- Two tables agree on a key when they have the same entries under it. -/
theorem Valid.value?_congr (h : Valid t) (ho : Valid o)
    (hSame : ∀ e : Entry α, e.key = key → (e ∈ t.entries ↔ e ∈ o.entries)) :
    t.value? key = o.value? key := by
  apply Option.ext
  intro v
  rw [h.value?_eq_some_iff, ho.value?_eq_some_iff]
  constructor
  · rintro ⟨e, he, hKey, hv⟩
    exact ⟨e, (hSame e hKey).mp he, hKey, hv⟩
  · rintro ⟨e, he, hKey, hv⟩
    exact ⟨e, (hSame e hKey).mpr he, hKey, hv⟩

/-! ## Adding -/

theorem valid_new : Valid (new : XMap α) where
  pos := Nat.one_pos
  size := rfl
  placed := placed_replicate_nil 1
  keys := List.nodup_nil
  addrs := List.nodup_nil
  counted := toInt_zero.symm

theorem perm_rebuildMap (t : XMap α) : t.rebuildMap.entries.Perm t.entries := by
  have hSlots : ∀ e ∈ t.entries, makeHash (rebuiltSize t.entryCount) e.key <
      (newMap (rebuiltSize t.entryCount) : List (List (Entry α))).length := by
    intro e _
    rw [newMap, List.length_replicate]
    exact makeHash_lt (rebuiltSize_pos t.entryCount) e.key
  have hPerm := perm_rehash hSlots
  have hNil : (newMap (rebuiltSize t.entryCount) : List (List (Entry α))).flatten = [] :=
    flatten_replicate_nil _
  rwa [hNil, List.append_nil] at hPerm

theorem Valid.rebuildMap (h : Valid t) : Valid t.rebuildMap where
  pos := rebuiltSize_pos t.entryCount
  size := by
    show (rehash _ t.entries (newMap _)).length = rebuiltSize t.entryCount
    rw [length_rehash, newMap, List.length_replicate]
  placed := by
    apply placed_rehash (placed_replicate_nil _)
    intro e _
    rw [List.length_replicate]
    exact makeHash_lt (rebuiltSize_pos t.entryCount) e.key
  keys := ((perm_rebuildMap t).map Entry.key).nodup_iff.mpr h.keys
  addrs := ((perm_rebuildMap t).map Entry.addr).nodup_iff.mpr h.addrs
  counted := by
    rw [(perm_rebuildMap t).length_eq]
    exact h.counted

theorem xmalloc_notMem (t : XMap α) : t.xmalloc ∉ t.entries.map Entry.addr := by
  have hLe : ∀ (l : List Nat), ∀ n ∈ l, n ≤ l.foldr max 0 := by
    intro l
    induction l with
    | nil => simp
    | cons m l ih =>
        intro n hn
        rcases List.mem_cons.mp hn with rfl | hn
        · exact le_max_left ..
        · exact (ih n hn).trans (le_max_right ..)
  intro hMem
  have := hLe _ _ hMem
  unfold xmalloc at this
  omega

theorem Valid.perm_append (h : Valid t) (n : Entry α) :
    (t.append n).entries.Perm (n :: t.entries) := by
  apply perm_insert (inserts_concat n)
  rw [h.size]
  exact makeHash_lt h.pos n.key

theorem Valid.append (h : Valid t) {n : Entry α} (hKey : n.key ∉ t.entries.map Entry.key)
    (hAddr : n.addr ∉ t.entries.map Entry.addr) : Valid (t.append n) where
  pos := h.pos
  size := by
    show (t.map.modify _ _).length = t.hashSize
    rw [List.length_modify, h.size]
  placed := by
    apply placed_insert (inserts_concat n) h.placed
    show makeHash t.hashSize n.key < t.map.length
    rw [h.size]
    exact makeHash_lt h.pos n.key
  keys := by
    rw [((h.perm_append n).map Entry.key).nodup_iff, List.map_cons, List.nodup_cons]
    exact ⟨hKey, h.keys⟩
  addrs := by
    rw [((h.perm_append n).map Entry.addr).nodup_iff, List.map_cons, List.nodup_cons]
    exact ⟨hAddr, h.addrs⟩
  counted := by
    show toInt (t.entryCount + 1) = _
    rw [(h.perm_append n).length_eq, h.counted, toInt_add_one, List.length_cons]
    rfl

/-- `_add` returns the entry of the key and leaves the others alone. -/
theorem Valid.addEntry [Inhabited α] (h : Valid t) (key : Bytes) :
    Valid (t.addEntry key).1
      ∧ (∃ e, (t.addEntry key).1.find key = some e ∧ e.addr = (t.addEntry key).2)
      ∧ ∀ k, k ≠ key → (t.addEntry key).1.value? k = t.value? k := by
  unfold XMap.addEntry
  rcases hFind : t.find key with _ | e
  · dsimp only
    generalize hn : (⟨t.xmalloc, key, default⟩ : Entry α) = n
    have hKey : n.key = key := by rw [← hn]
    have hAppend : Valid (t.append n) := by
      apply h.append
      · rw [hKey]
        exact h.find_eq_none_iff.mp hFind
      · rw [← hn]
        exact xmalloc_notMem t
    -- both tables have the same entries, so one argument serves for both
    have hDone : ∀ o : XMap α, Valid o → o.entries.Perm (t.append n).entries →
        Valid o ∧ (∃ e, o.find key = some e ∧ e.addr = n.addr)
          ∧ ∀ k, k ≠ key → o.value? k = t.value? k := by
      intro o ho hPerm
      have hMem : ∀ e, e ∈ o.entries ↔ e = n ∨ e ∈ t.entries := by
        intro e
        rw [(hPerm.trans (h.perm_append n)).mem_iff, List.mem_cons]
      refine ⟨ho, ⟨n, ho.find_eq_some_iff.mpr ⟨(hMem n).mpr (Or.inl rfl), hKey⟩, rfl⟩, ?_⟩
      intro k hk
      apply ho.value?_congr h
      intro e he
      rw [hMem]
      apply or_iff_right
      rintro rfl
      exact hk (he ▸ hKey)
    have hAddr : n.addr = t.xmalloc := by rw [← hn]
    rw [← hAddr]
    split
    · exact hDone _ hAppend.rebuildMap (perm_rebuildMap _)
    · exact hDone _ hAppend (.refl _)
  · exact ⟨h, ⟨e, hFind, rfl⟩, fun k _ => rfl⟩

theorem entries_setPayload (t : XMap α) (p : Nat) (v : α) :
    (t.setPayload p v).entries =
      t.entries.map fun e => if e.addr = p then { e with value := v } else e :=
  List.map_flatten.symm

theorem Valid.setPayload (h : Valid t) (p : Nat) (v : α) : Valid (t.setPayload p v) where
  pos := h.pos
  size := by
    show (t.map.map _).length = t.hashSize
    rw [List.length_map, h.size]
  placed := by
    apply placed_map h.placed
    intro e
    split <;> rfl
  keys := by
    have hSame : (Entry.key ∘ fun e : Entry α => if e.addr = p then { e with value := v } else e) =
        Entry.key := by
      funext e
      show (if e.addr = p then { e with value := v } else e).key = e.key
      split <;> rfl
    rw [entries_setPayload, List.map_map, hSame]
    exact h.keys
  addrs := by
    have hSame : (Entry.addr ∘ fun e : Entry α => if e.addr = p then { e with value := v } else e) =
        Entry.addr := by
      funext e
      show (if e.addr = p then { e with value := v } else e).addr = e.addr
      split <;> rfl
    rw [entries_setPayload, List.map_map, hSame]
    exact h.addrs
  counted := by
    rw [entries_setPayload, List.length_map]
    exact h.counted

theorem find_setPayload (t : XMap α) (p : Nat) (v : α) (k : Bytes) :
    (t.setPayload p v).find k =
      (t.find k).map fun e => if e.addr = p then { e with value := v } else e := by
  have hKey : ((fun e : Entry α => decide (e.key = k)) ∘
      fun e => if e.addr = p then { e with value := v } else e) = fun e => decide (e.key = k) := by
    funext e
    show decide ((if e.addr = p then { e with value := v } else e).key = k) = decide (e.key = k)
    split <;> rfl
  unfold find
  show (chain (t.map.map _) _).find? _ = _
  rw [chain_map _ rfl, List.find?_map, hKey]
  rfl

theorem Valid.value?_setPayload (h : Valid t) (he : t.find key = some e) (v : α) (k : Bytes) :
    (t.setPayload e.addr v).value? k = if k = key then some v else t.value? k := by
  unfold value?
  rw [find_setPayload]
  split
  · subst k
    rw [he, Option.map_some, if_pos rfl, Option.map_some]
  · rename_i hk
    rcases hFind : t.find k with _ | e'
    · rfl
    · have hIn := h.find_eq_some_iff.mp hFind
      have hIn' := h.find_eq_some_iff.mp he
      have hAddr : e'.addr ≠ e.addr := by
        intro hEq
        have hSame : e' = e := List.inj_on_of_nodup_map h.addrs hIn.1 hIn'.1 hEq
        exact hk (by rw [← hIn.2, ← hIn'.2, hSame])
      rw [Option.map_some, if_neg hAddr]

theorem Valid.add [Inhabited α] (h : Valid t) (key : Bytes) (v : α) : Valid (t.add key v) :=
  (h.addEntry key).1.setPayload _ v

theorem Valid.value?_add [Inhabited α] (h : Valid t) (key : Bytes) (v : α) (k : Bytes) :
    (t.add key v).value? k = if k = key then some v else t.value? k := by
  rcases h.addEntry key with ⟨hValid, ⟨e, hFind, hAddr⟩, hOthers⟩
  unfold XMap.add
  rw [← hAddr, hValid.value?_setPayload hFind]
  split
  · rfl
  · exact hOthers k ‹_›

/-! ## Removing -/

theorem entries_removeEntry (t : XMap α) (p : Nat) :
    (t.removeEntry p).entries = t.entries.filter fun e => e.addr ≠ p :=
  List.filter_flatten.symm

theorem Valid.perm_removeEntry (h : Valid t) (he : e ∈ t.entries) :
    t.entries.Perm (e :: (t.removeEntry e.addr).entries) := by
  rw [entries_removeEntry]
  exact perm_unlink h.addrs he

theorem Valid.removeEntry (h : Valid t) (he : e ∈ t.entries) : Valid (t.removeEntry e.addr) where
  pos := h.pos
  size := by
    show (t.map.map _).length = t.hashSize
    rw [List.length_map, h.size]
  placed := placed_filter h.placed _
  keys := by
    have hAll := ((h.perm_removeEntry he).map Entry.key).nodup_iff.mp h.keys
    exact (List.nodup_cons.mp hAll).2
  addrs := by
    have hAll := ((h.perm_removeEntry he).map Entry.addr).nodup_iff.mp h.addrs
    exact (List.nodup_cons.mp hAll).2
  counted := by
    have hLen := (h.perm_removeEntry he).length_eq
    rw [List.length_cons] at hLen
    show toInt (t.entryCount - 1) = _
    rw [h.counted, toInt_sub_one, hLen]
    push_cast
    rw [add_sub_cancel_right]

theorem Valid.remove (h : Valid t) (key : Bytes) : Valid (t.remove key) := by
  unfold XMap.remove
  split
  · rename_i e hFind
    exact h.removeEntry (h.find_eq_some_iff.mp hFind).1
  · exact h

theorem Valid.value?_remove (h : Valid t) (key k : Bytes) :
    (t.remove key).value? k = if k = key then none else t.value? k := by
  unfold XMap.remove
  rcases hFind : t.find key with _ | e
  · dsimp only
    split
    · subst k
      rw [value?, hFind, Option.map_none]
    · rfl
  · dsimp only
    rcases h.find_eq_some_iff.mp hFind with ⟨he, hKey⟩
    have hRest := h.removeEntry he
    have hMem : ∀ a, a ∈ t.entries ↔ a = e ∨ a ∈ (t.removeEntry e.addr).entries := by
      intro a
      rw [(h.perm_removeEntry he).mem_iff, List.mem_cons]
    split
    · subst k
      have hGone : (t.removeEntry e.addr).find key = none := by
        apply hRest.find_eq_none_iff.mpr
        have hAll := ((h.perm_removeEntry he).map Entry.key).nodup_iff.mp h.keys
        rw [← hKey]
        exact (List.nodup_cons.mp hAll).1
      rw [value?, hGone, Option.map_none]
    · apply hRest.value?_congr h
      intro a ha
      rw [hMem]
      apply (or_iff_right _).symm
      rintro rfl
      rename_i hk
      exact hk (by rw [← ha, hKey])

/-- Every entry is unlinked in turn, wherever it is. -/
theorem Valid.foldl_removeEntry (h : Valid t) {l : List (Entry α)} (hl : l.Perm t.entries) :
    Valid (l.foldl (fun t e => t.removeEntry e.addr) t)
      ∧ (l.foldl (fun t e => t.removeEntry e.addr) t).entries = [] := by
  induction l generalizing t with
  | nil => exact ⟨h, hl.nil_eq.symm⟩
  | cons e l ih =>
      have he : e ∈ t.entries := hl.subset List.mem_cons_self
      apply ih (h.removeEntry he)
      exact (hl.trans (h.perm_removeEntry he)).cons_inv

theorem empty_eq (t : XMap α) :
    t.empty = t.entries.foldl (fun t e => t.removeEntry e.addr) t := by
  unfold XMap.empty entries
  rw [List.foldl_flatten]
  rfl

theorem Valid.empty (h : Valid t) : Valid t.empty := by
  rw [empty_eq]
  exact (h.foldl_removeEntry (.refl _)).1

theorem Valid.entries_empty (h : Valid t) : t.empty.entries = [] := by
  rw [empty_eq]
  exact (h.foldl_removeEntry (.refl _)).2

/-- The assertion at the end of `_empty`. -/
theorem Valid.entryCount_empty (h : Valid t) : t.empty.entryCount = 0 := by
  rw [h.empty.counted, h.entries_empty]
  exact toInt_zero

theorem Valid.value?_of_entries_nil (h : Valid t) (hNil : t.entries = []) (k : Bytes) :
    t.value? k = none := by
  have hFind : t.find k = none := by
    rw [h.find_eq_none_iff, hNil]
    exact List.not_mem_nil
  rw [value?, hFind, Option.map_none]

theorem Valid.moveHere (ho : Valid o) (t : XMap α) : Valid (t.moveHere o) :=
  ⟨ho.pos, ho.size, ho.placed, ho.keys, ho.addrs, ho.counted⟩

theorem valid_movedAway (o : XMap α) : Valid o.movedAway :=
  ⟨Nat.one_pos, rfl, placed_replicate_nil 1, List.nodup_nil, List.nodup_nil, toInt_zero.symm⟩

/-! ## The finite map -/

/-- The table stands for the finite map `m`. -/
structure Refines (t : XMap α) (m : Finmap fun _ : Bytes => α) : Prop where
  valid : Valid t
  agree : ∀ k, t.value? k = m.lookup k

variable {m : Finmap fun _ : Bytes => α}

theorem Refines.of_entries_nil (h : Valid t) (hNil : t.entries = []) : Refines t ∅ := by
  apply Refines.mk h
  intro k
  rw [h.value?_of_entries_nil hNil, Finmap.lookup_empty]

theorem Refines.add [Inhabited α] (h : Refines t m) (key : Bytes) (v : α) :
    Refines (t.add key v) (m.insert key v) := by
  apply Refines.mk (h.valid.add key v)
  intro k
  rw [h.valid.value?_add]
  split
  · subst k
    exact (Finmap.lookup_insert m).symm
  · rw [Finmap.lookup_insert_of_ne m ‹_›]
    exact h.agree k

theorem Refines.remove (h : Refines t m) (key : Bytes) :
    Refines (t.remove key) (m.erase key) := by
  apply Refines.mk (h.valid.remove key)
  intro k
  rw [h.valid.value?_remove]
  split
  · subst k
    exact (Finmap.lookup_erase key m).symm
  · rw [Finmap.lookup_erase_ne ‹_›]
    exact h.agree k

theorem Refines.mem_iff (h : Refines t m) : key ∈ m ↔ key ∈ t.entries.map Entry.key := by
  rw [← Finmap.lookup_isSome, ← h.agree]
  unfold value?
  rw [Option.isSome_map, Option.isSome_iff_ne_none, Ne, h.valid.find_eq_none_iff, not_not]

theorem Refines.keys_eq (h : Refines t m) : m.keys = (t.entries.map Entry.key).toFinset := by
  ext k
  rw [Finmap.mem_keys, List.mem_toFinset, h.mem_iff]

theorem Refines.length_entries (h : Refines t m) : t.entries.length = m.keys.card := by
  rw [h.keys_eq, List.toFinset_card_of_nodup h.valid.keys, List.length_map]

/-- The count is right as long as an `int` can hold it. -/
theorem Refines.count_eq (h : Refines t m) (hSmall : m.keys.card < 2 ^ 31) :
    t.count = m.keys.card := by
  show t.entryCount = _
  rw [h.valid.counted, h.length_entries]
  apply Int.bmod_eq_of_le <;> omega

/-! ## What an iteration has still to return -/

theorem derefChain_append {p : List (Entry α)} {c : List (Entry α)}
    (hNodup : ((p ++ e :: c).map Entry.addr).Nodup) :
    derefChain e.addr (p ++ e :: c) = some (e, c.head?.map Entry.addr) := by
  induction p with
  | nil => exact if_pos rfl
  | cons a p ih =>
      rw [List.cons_append, List.map_cons, List.nodup_cons] at hNodup
      have hNe : a.addr ≠ e.addr := by
        intro hEq
        apply hNodup.1
        rw [hEq]
        exact List.mem_map_of_mem (List.mem_append_right p List.mem_cons_self)
      rw [List.cons_append, derefChain, if_neg hNe]
      exact ih hNodup.2

theorem derefChain_eq_none {p : Nat} {c : List (Entry α)} (h : p ∉ c.map Entry.addr) :
    derefChain p c = none := by
  induction c with
  | nil => rfl
  | cons a c ih =>
      rw [List.map_cons, List.mem_cons, not_or] at h
      rw [derefChain, if_neg (Ne.symm h.1)]
      exact ih h.2

theorem findSome?_derefChain {bs : List (List (Entry α))} {p c : List (Entry α)}
    (hNodup : (bs.flatten.map Entry.addr).Nodup) (hMem : p ++ e :: c ∈ bs) :
    bs.findSome? (derefChain e.addr) = some (e, c.head?.map Entry.addr) := by
  induction bs with
  | nil => cases hMem
  | cons b bs ih =>
      rw [List.flatten_cons, List.map_append] at hNodup
      rcases List.mem_cons.mp hMem with rfl | hMem
      · rw [List.findSome?_cons, derefChain_append (List.nodup_append.mp hNodup).1]
      · have hOther : e.addr ∉ b.map Entry.addr := by
          intro hIn
          have hBoth : e.addr ∈ bs.flatten.map Entry.addr := by
            apply List.mem_map_of_mem
            exact List.mem_flatten.mpr
              ⟨_, hMem, List.mem_append_right p List.mem_cons_self⟩
          exact (List.nodup_append.mp hNodup).2.2 _ hIn _ hBoth rfl
        rw [List.findSome?_cons, derefChain_eq_none hOther]
        exact ih (List.nodup_append.mp hNodup).2.1 hMem

theorem mem_of_derefChain {p : Nat} {n : Option Nat} {c : List (Entry α)}
    (h : derefChain p c = some (e, n)) : e ∈ c ∧ e.addr = p := by
  induction c with
  | nil => cases h
  | cons a c ih =>
      rw [derefChain] at h
      split at h
      · cases h
        exact ⟨List.mem_cons_self, ‹_›⟩
      · exact ⟨List.mem_cons_of_mem a (ih h).1, (ih h).2⟩

theorem mem_of_deref {p : Nat} {n : Option Nat} (h : t.deref p = some (e, n)) :
    e ∈ t.entries ∧ e.addr = p := by
  rcases List.exists_of_findSome?_eq_some h with ⟨c, hc, hFound⟩
  have hMem := mem_of_derefChain hFound
  exact ⟨List.mem_flatten.mpr ⟨c, hc, hMem.1⟩, hMem.2⟩

theorem Valid.deref_eq (h : Valid t) {i : Nat} {p c : List (Entry α)}
    (hChain : chain t.map i = p ++ e :: c) :
    t.deref e.addr = some (e, c.head?.map Entry.addr) := by
  apply findSome?_derefChain h.addrs
  rw [← hChain]
  apply chain_mem
  apply Nat.lt_of_not_le
  intro hLe
  rw [chain_of_le hLe] at hChain
  cases p <;> cases hChain

/-- `l` is still to be returned: `rest` from the chain at `each_hash`, where
`each_entry` points to its head, and the chains after that one. -/
structure Pending (t : XMap α) (l : List (Entry α)) : Prop where
  valid : Valid t
  low : -1 ≤ t.eachHash
  tail : ∃ p rest, p ++ rest = (if t.eachHash < 0 then [] else chain t.map t.eachHash.toNat)
    ∧ t.eachEntry = rest.head?.map Entry.addr
    ∧ l = rest ++ (t.map.drop (t.eachHash + 1).toNat).flatten

variable {l : List (Entry α)}

/-- The state in which `_each_begin` calls `_each_next`. -/
theorem Valid.pending_start (h : Valid t) :
    Pending { t with eachEntry := none, eachHash := -1 } t.entries where
  valid := ⟨h.pos, h.size, h.placed, h.keys, h.addrs, h.counted⟩
  low := le_rfl
  tail := ⟨[], [], rfl, rfl, rfl⟩

/-- `_each_next` returns the first of the entries still to be returned. -/
theorem Pending.eachLoop {n : Nat} (h : Pending t l)
    (hTurns : ((t.hashSize : Int) - t.eachHash).toNat = n) :
    ∃ t', eachLoop n t = some (t', l.head?) ∧ Pending t' l.tail ∧ t'.map = t.map
      ∧ t'.lastEntry = l.head?.map Entry.addr := by
  induction n generalizing t with
  | zero =>
      -- past the last slot there is only the terminator
      rcases h with ⟨hValid, hLow, p, rest, hChain, hEntry, rfl⟩
      have hPos := hValid.pos
      have hPast : t.map.length ≤ t.eachHash.toNat := by
        rw [hValid.size]
        omega
      rw [if_neg (by omega), chain_of_le hPast] at hChain
      have hRest : rest = [] := (List.append_eq_nil_iff.mp hChain).2
      have hDrop : t.map.drop (t.eachHash + 1).toNat = [] := List.drop_eq_nil_of_le (by omega)
      subst hRest
      rw [hDrop]
      refine ⟨_, rfl, ?_, rfl, rfl⟩
      exact {
        valid := ⟨hValid.pos, hValid.size, hValid.placed, hValid.keys, hValid.addrs,
          hValid.counted⟩
        low := hLow
        tail := by
          refine ⟨[], [], ?_, hEntry, ?_⟩
          · show _ = if t.eachHash < 0 then _ else _
            rw [if_neg (by omega), chain_of_le hPast]
            rfl
          · show _ = _ ++ (t.map.drop (t.eachHash + 1).toNat).flatten
            rw [hDrop]
            rfl }
  | succ n ih =>
      rcases h with ⟨hValid, hLow, p, rest, hChain, hEntry, rfl⟩
      rw [XMap.eachLoop]
      cases rest with
      | cons e rest =>
          have hNonneg : ¬ t.eachHash < 0 := by
            intro hNeg
            rw [if_pos hNeg] at hChain
            cases p <;> cases hChain
          rw [if_neg hNonneg] at hChain
          rw [hEntry, List.head?_cons, Option.map_some]
          dsimp only
          rw [hValid.deref_eq hChain.symm]
          refine ⟨_, rfl, ?_, rfl, rfl⟩
          exact {
            valid := ⟨hValid.pos, hValid.size, hValid.placed, hValid.keys, hValid.addrs,
              hValid.counted⟩
            low := hLow
            tail := by
              refine ⟨p ++ [e], rest, ?_, rfl, rfl⟩
              rw [if_neg hNonneg, List.append_assoc]
              exact hChain }
      | nil =>
          rw [hEntry, List.head?_nil, Option.map_none]
          dsimp only
          apply ih
          · exact {
              valid := ⟨hValid.pos, hValid.size, hValid.placed, hValid.keys, hValid.addrs,
                hValid.counted⟩
              low := by
                show -1 ≤ t.eachHash + 1
                omega
              tail := by
                refine ⟨[], chain t.map (t.eachHash + 1).toNat, ?_, rfl, ?_⟩
                · show _ = if t.eachHash + 1 < 0 then _ else _
                  rw [if_neg (by omega)]
                  rfl
                · show _ = _ ++ (t.map.drop (t.eachHash + 1 + 1).toNat).flatten
                  rw [List.nil_append, flatten_drop]
                  congr 3
                  omega }
          · show ((t.hashSize : Int) - (t.eachHash + 1)).toNat = n
            omega

theorem Pending.eachNext (h : Pending t l) :
    ∃ t', t.eachNext = some (t', l.head?) ∧ Pending t' l.tail ∧ t'.map = t.map
      ∧ t'.lastEntry = l.head?.map Entry.addr :=
  h.eachLoop rfl

/-- The entries still to be returned are the last ones of the table. -/
theorem Pending.suffix (h : Pending t l) : l <:+ t.entries := by
  rcases h with ⟨-, hLow, p, rest, hChain, -, rfl⟩
  by_cases hNeg : t.eachHash < 0
  · rw [if_pos hNeg] at hChain
    have hHash : (t.eachHash + 1).toNat = 0 := by omega
    rw [(List.append_eq_nil_iff.mp hChain).2, hHash]
    exact List.suffix_refl _
  · rw [if_neg hNeg] at hChain
    have hHash : (t.eachHash + 1).toNat = t.eachHash.toNat + 1 := by omega
    refine ⟨(t.map.take t.eachHash.toNat).flatten ++ p, ?_⟩
    calc
      (t.map.take t.eachHash.toNat).flatten ++ p
            ++ (rest ++ (t.map.drop (t.eachHash + 1).toNat).flatten)
          = (t.map.take t.eachHash.toNat).flatten
            ++ (t.map.drop t.eachHash.toNat).flatten := by
        rw [flatten_drop t.eachHash.toNat, ← hChain, hHash]
        simp only [List.append_assoc]
      _ = t.entries := by
        rw [← List.flatten_append, List.take_append_drop]
        rfl

/-- Freeing an entry takes it from those still to be returned, unless `each_entry` points to it. -/
theorem Pending.unlink (h : Pending t l) (he : e ∈ t.entries)
    (hNext : t.eachEntry ≠ some e.addr) :
    Pending (t.removeEntry e.addr) (l.filter fun a => a.addr ≠ e.addr) := by
  have hValid := h.valid.removeEntry he
  rcases h with ⟨-, hLow, p, rest, hChain, hEntry, rfl⟩
  have hHead : (rest.filter fun a => a.addr ≠ e.addr).head?.map Entry.addr =
      rest.head?.map Entry.addr := by
    cases rest with
    | nil => rfl
    | cons a rest =>
        have hNe : a.addr ≠ e.addr := by
          intro hEq
          apply hNext
          rw [hEntry, List.head?_cons, Option.map_some, hEq]
        rw [List.filter_cons_of_pos (by simpa using hNe)]
        rfl
  exact {
    valid := hValid
    low := hLow
    tail := by
      refine ⟨p.filter fun a => a.addr ≠ e.addr, rest.filter fun a => a.addr ≠ e.addr, ?_, ?_, ?_⟩
      · show _ = if t.eachHash < 0 then [] else chain (t.map.map _) t.eachHash.toNat
        rw [chain_map _ rfl, ← List.filter_append, hChain]
        split <;> rfl
      · exact hEntry.trans hHead.symm
      · show _ = _ ++ ((t.map.map _).drop (t.eachHash + 1).toNat).flatten
        rw [← List.map_drop, ← List.filter_flatten, List.filter_append] }

/-- Freeing an entry that is not still to be returned does not disturb the iteration. -/
theorem Pending.removeEntry (h : Pending t l) (he : e ∈ t.entries) (hOut : e ∉ l) :
    Pending (t.removeEntry e.addr) l := by
  have hNe : ∀ a ∈ l, a.addr ≠ e.addr := by
    intro a ha hEq
    have hSame : a = e := List.inj_on_of_nodup_map h.valid.addrs (h.suffix.subset ha) he hEq
    exact hOut (hSame ▸ ha)
  have hKeep : l.filter (fun a => a.addr ≠ e.addr) = l := by
    apply List.filter_eq_self.mpr
    intro a ha
    simpa using hNe a ha
  rw [← hKeep]
  apply h.unlink he
  rcases h with ⟨-, -, p, rest, -, hEntry, rfl⟩
  rw [hEntry]
  cases rest with
  | nil => exact (Option.some_ne_none _).symm
  | cons a rest =>
      intro hSome
      exact hNe a (List.mem_append_left _ List.mem_cons_self) (Option.some.inj hSome)

/-- While `each_entry` points to an entry the loop has not ended. -/
theorem Pending.inside (h : Pending t l) {p : Nat} (hEntry : t.eachEntry = some p) :
    t.eachHash < t.hashSize := by
  rcases h with ⟨hValid, hLow, q, rest, hChain, hHead, -⟩
  by_contra hPast
  have hPos := hValid.pos
  have hSize := hValid.size
  rw [if_neg (by omega), chain_of_le (by omega)] at hChain
  rw [hEntry, (List.append_eq_nil_iff.mp hChain).2] at hHead
  exact Option.some_ne_none p hHead

theorem deref_freed {p : Nat} (h : p ∉ t.entries.map Entry.addr) : t.deref p = none := by
  cases hFound : t.deref p with
  | none => rfl
  | some x =>
      have hMem := mem_of_deref (e := x.1) (n := x.2) hFound
      exact absurd (hMem.2 ▸ List.mem_map_of_mem hMem.1) h

/-- A loop goes wrong when the entry stored for its next turn is freed. -/
theorem eachNext_freed {p : Nat} (hLoop : t.eachHash < t.hashSize)
    (hEntry : t.eachEntry = some p) (hFreed : p ∉ t.entries.map Entry.addr) :
    t.eachNext = none := by
  rcases Nat.exists_eq_succ_of_ne_zero (n := ((t.hashSize : Int) - t.eachHash).toNat) (by omega)
    with ⟨n, hn⟩
  unfold XMap.eachNext
  rw [hn, XMap.eachLoop, hEntry]
  dsimp only
  rw [deref_freed hFreed]

/-! ## Whole iterations -/

/-- A loop over a table: the keys visited so far, and whether a pointer to a
freed entry was followed. -/
structure Iteration (α : Type) where
  table : XMap α
  visited : List Bytes
  fault : Bool

inductive IterEvent where
  | next
  | removeLast
deriving DecidableEq

namespace Iteration

/-- Take the result of `_each_begin` or `_each_next`. -/
def advance (it : Iteration α) : Option (XMap α × Option (Entry α)) → Iteration α
  | none => { it with fault := true }
  | some (t, none) => { it with table := t }
  | some (t, some e) => { it with table := t, visited := it.visited ++ [e.key] }

def start (t : XMap α) : Iteration α := advance ⟨t, [], false⟩ t.eachBegin

/-- `each_finished`. -/
def finished (it : Iteration α) : Prop := it.table.lastEntry = none

/-- One turn of the loop, or the removal of the key that was returned last. -/
def act (it : Iteration α) : IterEvent → Iteration α
  | .next => it.advance it.table.eachNext
  | .removeLast =>
    match it.table.lastEntry.bind it.table.deref with
    | some (e, _) => { it with table := it.table.remove e.key }
    | none => it

end Iteration

/-- What a turn of the loop preserves, for a loop over a table with the keys `ks`. -/
structure Visiting (ks : List Bytes) (nexts : Nat) (it : Iteration α) (l : List (Entry α)) :
    Prop where
  pending : Pending it.table l
  fault : it.fault = false
  keys : (it.visited ++ l.map Entry.key).Perm ks
  last : ∀ e ∈ it.table.entries, it.table.lastEntry = some e.addr → e ∉ l
  done : it.finished → l = []
  turns : it.finished ∨ it.visited.length = nexts + 1

variable {ks : List Bytes} {it : Iteration α} {nexts : Nat}

theorem visiting_advance {r : Option (XMap α × Option (Entry α))} {t' : XMap α}
    (hr : r = some (t', l.head?)) (h : Pending t' l.tail)
    (hLast : t'.lastEntry = l.head?.map Entry.addr) (hIn : l <:+ t'.entries)
    (hFault : it.fault = false) (hKeys : (it.visited ++ l.map Entry.key).Perm ks)
    (hTurns : l = [] ∨ it.visited.length = nexts) :
    Visiting ks nexts (it.advance r) l.tail := by
  subst hr
  cases l with
  | nil => exact ⟨h, hFault, hKeys, fun e _ _ => List.not_mem_nil, fun _ => rfl, Or.inl hLast⟩
  | cons a l =>
      have hNodup : ((a :: l).map Entry.addr).Nodup :=
        h.valid.addrs.sublist (hIn.sublist.map Entry.addr)
      exact {
        pending := h
        fault := hFault
        keys := by
          show ((it.visited ++ [a.key]) ++ l.map Entry.key).Perm ks
          rw [List.append_assoc]
          exact hKeys
        last := by
          intro e he hAddr
          have hEq : e.addr = a.addr := Option.some.inj (hAddr.symm.trans hLast)
          intro hMem
          exact (List.nodup_cons.mp hNodup).1 (hEq ▸ List.mem_map_of_mem hMem)
        done := fun hDone => by
          have hNone : t'.lastEntry = none := hDone
          rw [hLast] at hNone
          cases hNone
        turns := by
          right
          show (it.visited ++ [a.key]).length = nexts + 1
          rcases hTurns with hNil | hLen
          · cases hNil
          · rw [List.length_append, hLen, List.length_singleton] }

theorem visiting_start (h : Valid t) :
    ∃ l, Visiting (t.entries.map Entry.key) 0 (Iteration.start t) l := by
  rcases h.pending_start.eachNext with ⟨t', hNext, hPending, hMap, hLast⟩
  refine ⟨t.entries.tail, visiting_advance hNext hPending hLast ?_ rfl (.refl _) (Or.inr rfl)⟩
  show t.entries <:+ t'.map.flatten
  rw [hMap]
  exact List.suffix_refl _

theorem Visiting.next (h : Visiting ks nexts it l) :
    Visiting ks (nexts + 1) (it.act .next) l.tail := by
  rcases h.pending.eachNext with ⟨t', hNext, hPending, hMap, hLast⟩
  apply visiting_advance hNext hPending hLast _ h.fault h.keys
  · rcases h.turns with hDone | hLen
    · exact Or.inl (h.done hDone)
    · exact Or.inr hLen
  · show l <:+ t'.map.flatten
    rw [hMap]
    exact h.pending.suffix

theorem Visiting.removeLast (h : Visiting ks nexts it l) :
    Visiting ks nexts (it.act .removeLast) l := by
  unfold Iteration.act
  dsimp only
  rcases hLast : it.table.lastEntry with _ | p
  · exact h
  · rw [Option.bind_some]
    rcases hDeref : it.table.deref p with _ | ⟨e, n⟩
    · exact h
    · dsimp only
      have hFound : e ∈ it.table.entries ∧ e.addr = p := mem_of_deref hDeref
      have hFind : it.table.find e.key = some e :=
        h.pending.valid.find_eq_some_iff.mpr ⟨hFound.1, rfl⟩
      have hOut : e ∉ l := h.last e hFound.1 (by rw [hLast, hFound.2])
      have hRemove : it.table.remove e.key = it.table.removeEntry e.addr := by
        unfold XMap.remove
        rw [hFind]
      rw [hRemove]
      exact {
        pending := h.pending.removeEntry hFound.1 hOut
        fault := h.fault
        keys := h.keys
        last := by
          intro a ha
          rw [entries_removeEntry] at ha
          exact h.last a (List.mem_of_mem_filter ha)
        done := h.done
        turns := h.turns }

theorem Visiting.run (h : Visiting ks nexts it l) (evs : List IterEvent) :
    ∃ l', Visiting ks (nexts + evs.count .next) (evs.foldl Iteration.act it) l' := by
  induction evs generalizing it nexts l with
  | nil => exact ⟨l, h⟩
  | cons ev evs ih =>
      cases ev with
      | next =>
          rcases ih h.next with ⟨l', h'⟩
          have hCount : nexts + (IterEvent.next :: evs).count .next =
              nexts + 1 + evs.count .next := by
            rw [List.count_cons_self]
            omega
          rw [hCount]
          exact ⟨l', h'⟩
      | removeLast =>
          rw [List.count_cons_of_ne (by decide)]
          exact ih h.removeLast

/-- What an iteration of a table that stands for `m` comes to. -/
structure Iterates (m : Finmap fun _ : Bytes => α) (evs : List IterEvent) (it : Iteration α) :
    Prop where
  fault : it.fault = false
  once : it.visited.Nodup
  sound : ∀ k ∈ it.visited, k ∈ m
  complete : it.finished → ∀ k ∈ m, k ∈ it.visited
  ends : m.keys.card ≤ evs.count .next → it.finished

theorem Refines.iterates (h : Refines t m) (evs : List IterEvent) :
    Iterates m evs (evs.foldl Iteration.act (Iteration.start t)) := by
  rcases visiting_start h.valid with ⟨l, hStart⟩
  rcases hStart.run evs with ⟨l', hRun⟩
  have hNodup := hRun.keys.nodup_iff.mpr h.valid.keys
  exact {
    fault := hRun.fault
    once := (List.nodup_append.mp hNodup).1
    sound := fun k hk => h.mem_iff.mpr (hRun.keys.subset (List.mem_append_left _ hk))
    complete := by
      intro hDone k hk
      have hIn := hRun.keys.symm.subset (h.mem_iff.mp hk)
      rw [hRun.done hDone, List.map_nil, List.append_nil] at hIn
      exact hIn
    ends := by
      intro hTurns
      rcases hRun.turns with hDone | hLen
      · exact hDone
      · have hAll := hRun.keys.length_eq
        rw [List.length_append, List.length_map, List.length_map, h.length_entries] at hAll
        omega }

/-! ## A table as a set of keys -/

/-- The keys in the order in which a complete loop visits them. -/
def loopKeys (t : XMap α) : List Bytes :=
  ((List.replicate t.entries.length IterEvent.next).foldl Iteration.act (Iteration.start t)).visited

/-- The keys of the table are `A`. -/
def HasKeys (t : XMap α) (A : Finset Bytes) : Prop := ∃ m, Refines t m ∧ m.keys = A

variable {A : Finset Bytes}

theorem hasKeys_new : HasKeys (new : XMap α) ∅ :=
  ⟨∅, .of_entries_nil valid_new rfl, Finmap.keys_empty⟩

theorem hasKeys_movedAway (o : XMap α) : HasKeys o.movedAway ∅ :=
  ⟨∅, .of_entries_nil (valid_movedAway o) rfl, Finmap.keys_empty⟩

theorem HasKeys.moveHere (h : HasKeys o A) (t : XMap α) : HasKeys (t.moveHere o) A := by
  rcases h with ⟨m, hm, hA⟩
  exact ⟨m, ⟨hm.valid.moveHere t, hm.agree⟩, hA⟩

theorem HasKeys.isThere_iff (h : HasKeys t A) : t.isThere key = true ↔ key ∈ A := by
  rcases h with ⟨m, hm, rfl⟩
  rw [Finmap.mem_keys, ← Finmap.lookup_isSome, ← hm.agree, value?, Option.isSome_map]
  rfl

theorem HasKeys.add [Inhabited α] (h : HasKeys t A) (key : Bytes) (v : α) :
    HasKeys (t.add key v) (insert key A) := by
  rcases h with ⟨m, hm, rfl⟩
  refine ⟨_, hm.add key v, ?_⟩
  ext k
  rw [Finmap.mem_keys, Finmap.mem_insert, Finset.mem_insert, Finmap.mem_keys]

/-- A complete loop visits each key once. -/
theorem HasKeys.loopKeys (h : HasKeys t A) : t.loopKeys.Nodup ∧ ∀ k, k ∈ t.loopKeys ↔ k ∈ A := by
  rcases h with ⟨m, hm, rfl⟩
  have hIter := hm.iterates (List.replicate t.entries.length .next)
  have hDone := hIter.ends (by rw [List.count_replicate_self, hm.length_entries])
  refine ⟨hIter.once, fun k => ?_⟩
  rw [Finmap.mem_keys]
  exact ⟨hIter.sound k, hIter.complete hDone k⟩

/-- Every table stands for a finite map. -/
theorem Valid.exists_refines (h : Valid t) : ∃ m, Refines t m := by
  let l : List (Sigma fun _ : Bytes => α) := t.entries.map fun e => ⟨e.key, e.value⟩
  have hKeys : l.NodupKeys := by
    have hNodup := h.keys
    rwa [List.NodupKeys, List.keys, List.map_map]
  refine ⟨l.toFinmap, h, fun k => Option.ext fun v => ?_⟩
  rw [Finmap.dlookup_list_toFinmap, ← Option.mem_def, ← Option.mem_def, List.mem_dlookup_iff hKeys,
    Option.mem_def, h.value?_eq_some_iff, List.mem_map]
  constructor
  · rintro ⟨e, he, rfl, rfl⟩
    exact ⟨e, he, rfl⟩
  · rintro ⟨e, he, hEq⟩
    cases hEq
    exact ⟨e, he, rfl, rfl⟩

/-- A complete loop visits the keys under which something is stored. -/
theorem Valid.mem_loopKeys (h : Valid t) : key ∈ t.loopKeys ↔ (t.value? key).isSome = true := by
  obtain ⟨m, hm⟩ := h.exists_refines
  have hHas : HasKeys t m.keys := ⟨m, hm, rfl⟩
  rw [hHas.loopKeys.2, Finmap.mem_keys, ← Finmap.lookup_isSome, ← hm.agree]

/-! ## Runs -/

/-- `_each_next` moves the iterator only. -/
theorem eachLoop_same {n : Nat} {t' : XMap α} {r : Option (Entry α)}
    (h : eachLoop n t = some (t', r)) :
    t'.hashSize = t.hashSize ∧ t'.map = t.map ∧ t'.entryCount = t.entryCount := by
  induction n generalizing t with
  | zero =>
      cases h
      exact ⟨rfl, rfl, rfl⟩
  | succ n ih =>
      rw [eachLoop] at h
      split at h
      · split at h
        · cases h
          exact ⟨rfl, rfl, rfl⟩
        · cases h
      · have hSame := ih h
        exact hSame

theorem Refines.of_same {t' : XMap α} (h : Refines t m) (hSize : t'.hashSize = t.hashSize)
    (hMap : t'.map = t.map) (hCount : t'.entryCount = t.entryCount) : Refines t' m := by
  cases t
  cases t'
  cases hSize
  cases hMap
  cases hCount
  exact ⟨⟨h.valid.pos, h.valid.size, h.valid.placed, h.valid.keys, h.valid.addrs,
    h.valid.counted⟩, h.agree⟩

/-- The operations on a family of tables. A table is never moved to itself. -/
inductive Op (ι α : Type) where
  | add (i : ι) (key : Bytes) (v : α)
  | lookupLv (i : ι) (key : Bytes)
  | remove (i : ι) (key : Bytes)
  | moveHere (i j : ι) (other : i ≠ j)
  | empty (i : ι)
  | eachBegin (i : ι)
  | eachNext (i : ι)

open Function

/-- A step of the iterator outside of a loop. -/
def stepped (t : XMap α) (r : Option (XMap α × Option (Entry α))) : XMap α :=
  (r.map Prod.fst).getD t

theorem refines_stepped (h : Refines t m) {r : Option (XMap α × Option (Entry α))}
    (hr : t.eachBegin = r ∨ t.eachNext = r) : Refines (stepped t r) m := by
  rcases r with _ | ⟨t', e⟩
  · exact h
  · rcases hr with hBegin | hNext
    · rcases eachLoop_same hBegin with ⟨hSize, hMap, hCount⟩
      exact h.of_same hSize hMap hCount
    · rcases eachLoop_same hNext with ⟨hSize, hMap, hCount⟩
      exact h.of_same hSize hMap hCount

variable {ι : Type} [DecidableEq ι] {s : ι → XMap α} {ms : ι → Finmap fun _ : Bytes => α} {i : ι}

theorem refines_update (h : ∀ j, Refines (s j) (ms j)) (ht : Refines t m) (j : ι) :
    Refines (update s i t j) (update ms i m j) := by
  by_cases hj : j = i
  · subst hj
    rw [update_self, update_self]
    exact ht
  · rw [update_of_ne hj, update_of_ne hj]
    exact h j

variable [Inhabited α]

def act (s : ι → XMap α) : Op ι α → ι → XMap α
  | .add i key v => update s i ((s i).add key v)
  | .lookupLv i key => update s i ((s i).lookupLv key)
  | .remove i key => update s i ((s i).remove key)
  | .moveHere i j _ => update (update s i ((s i).moveHere (s j))) j (s j).movedAway
  | .empty i => update s i (s i).empty
  | .eachBegin i => update s i (stepped (s i) (s i).eachBegin)
  | .eachNext i => update s i (stepped (s i) (s i).eachNext)

/-- What an operation is for. -/
def spec (m : ι → Finmap fun _ : Bytes => α) : Op ι α → ι → Finmap fun _ : Bytes => α
  | .add i key v => update m i ((m i).insert key v)
  | .lookupLv i key => update m i (if key ∈ m i then m i else (m i).insert key default)
  | .remove i key => update m i ((m i).erase key)
  | .moveHere i j _ => update (update m i (m j)) j ∅
  | .empty i => update m i ∅
  | .eachBegin _ | .eachNext _ => m

theorem Refines.lookupLv (h : Refines t m) (key : Bytes) :
    Refines (t.lookupLv key) (if key ∈ m then m else m.insert key default) := by
  have hMem : key ∈ m ↔ (t.find key).isSome := by
    rw [← Finmap.lookup_isSome, ← h.agree, value?, Option.isSome_map]
  unfold XMap.lookupLv
  rcases hFind : t.find key with _ | e
  · rw [if_neg (by rw [hMem, hFind]; nofun)]
    exact h.add key default
  · rw [if_pos (by rw [hMem, hFind]; rfl)]
    exact h

theorem refines_act (h : ∀ j, Refines (s j) (ms j)) (o : Op ι α) (j : ι) :
    Refines (act s o j) (spec ms o j) := by
  cases o with
  | add i key v => exact refines_update h ((h i).add key v) j
  | lookupLv i key => exact refines_update h ((h i).lookupLv key) j
  | remove i key => exact refines_update h ((h i).remove key) j
  | moveHere i j' hne =>
      have hTo : Refines ((s i).moveHere (s j')) (ms j') :=
        ⟨(h j').valid.moveHere (s i), (h j').agree⟩
      have hFrom : Refines (s j').movedAway ∅ := .of_entries_nil (valid_movedAway _) rfl
      exact refines_update (refines_update h hTo) hFrom j
  | empty i =>
      exact refines_update h (.of_entries_nil (h i).valid.empty (h i).valid.entries_empty) j
  | eachBegin i =>
      have hOne := refines_update (i := i) h (refines_stepped (h i) (Or.inl rfl)) j
      rwa [update_eq_self] at hOne
  | eachNext i =>
      have hOne := refines_update (i := i) h (refines_stepped (h i) (Or.inr rfl)) j
      rwa [update_eq_self] at hOne

theorem refines_foldl (ops : List (Op ι α)) (h : ∀ j, Refines (s j) (ms j)) (j : ι) :
    Refines (ops.foldl act s j) (ops.foldl spec ms j) := by
  induction ops generalizing s ms with
  | nil => exact h j
  | cons o ops ih => exact ih (refines_act h o)

/-- After any operations a table gives what the finite map gives, and a loop
over it, with or without removals of the key returned last, visits every key once. -/
theorem xmap_refines (ops : List (Op ι α)) (i : ι) :
    let t := ops.foldl act (fun _ => new) i
    let m := ops.foldl spec (fun _ => (∅ : Finmap fun _ : Bytes => α)) i
    (∀ k, t.lookup k = (m.lookup k).getD default ∧ t.isThere k = decide (k ∈ m))
      ∧ (m.keys.card < 2 ^ 31 → t.count = m.keys.card)
      ∧ t.empty.entryCount = 0
      ∧ ∀ evs, Iterates m evs (evs.foldl Iteration.act (Iteration.start t)) := by
  intro t m
  have h : Refines t m :=
    refines_foldl ops (fun _ => .of_entries_nil valid_new rfl) i
  refine ⟨fun k => ⟨?_, ?_⟩, h.count_eq, h.valid.entryCount_empty, h.iterates⟩
  · rw [← h.agree]
    rfl
  · rw [Bool.eq_iff_iff, decide_eq_true_eq, ← Finmap.lookup_isSome, ← h.agree, value?,
      Option.isSome_map]
    rfl

end XMap

end Lftp.Ports
