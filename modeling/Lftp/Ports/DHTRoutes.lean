import Lftp.Ports.DHT
import Lftp.Verified.Ladder
import Lftp.Verified.Runs

/-!
# The routing table

The buckets of the routing table split the ids along the path to the node's own
one. Every operation on the table is described by the same four facts.

* `RoutesOk` is the invariant: the buckets are a ladder, and each node in one is
  alive, flagged and has an id that the bucket matches.
* `Rerouted` says what an operation leaves alone: all but the buckets and the flags.
* `Stale` is a flagged node that is in no bucket; only adding a node to a bucket
  changes which nodes are stale.
* `addRoute_spec` describes `AddRoute`, which always returns.
-/

namespace Lftp.Ports.DHT

open Lftp.Verified

/-! ## Buckets as cells -/

/-- The ids of a bucket. -/
def RouteBucket.cell (r : RouteBucket) : Cell := ⟨r.prefixBits, bitAt r.path⟩

/-- The bucket without its nodes. -/
def RouteBucket.bare (r : RouteBucket) : RouteBucket := { r with nodes := [] }

/-- The path is long enough, and clear beyond the prefix. -/
structure RouteBucket.WellFormed (r : RouteBucket) : Prop where
  length : (r.prefixBits + 7) / 8 ≤ r.path.length
  le : r.prefixBits ≤ 160
  clear : ∀ k, r.prefixBits ≤ k → bitAt r.path k = false

variable {s s' t : DHT} {r : RouteBucket} {i j p q : Nat} {n : Node} {id : Bytes}

/-- `PrefixMatch` compares the bits of the prefix. -/
theorem prefixMatch_iff_agree (hr : r.prefixBits / 8 ≤ r.path.length)
    (hid : r.prefixBits / 8 ≤ id.length) :
    r.prefixMatch id = true ↔ Agree r.prefixBits (bitAt r.path) (bitAt id) := by
  rw [← prefix_compare_iff hr hid]
  simp only [RouteBucket.prefixMatch, Bool.and_eq_true, Bool.or_eq_true, decide_eq_true_eq,
    Nat.pos_iff_ne_zero, or_iff_not_imp_left, ne_eq]

theorem prefixMatch_iff (hr : r.WellFormed) (hid : id.length = 20) :
    r.prefixMatch id = true ↔ r.cell.Covers (bitAt id) := by
  have hLe := hr.le
  have hLength := hr.length
  exact prefixMatch_iff_agree (by omega) (by omega)

/-! ## The table -/

/-- The nodes in the table. -/
def table (s : DHT) : List Nat := s.routes.flatMap RouteBucket.nodes

/-- The flag of a node. -/
def Flagged (s : DHT) (p : Nat) : Prop := ∃ n, s.heap p = some n ∧ n.inRoutes = true

/-- A node is flagged and yet in no bucket. -/
def Stale (s : DHT) (p : Nat) : Prop := s.Flagged p ∧ p ∉ s.table

/-- The invariant of the routing table. -/
structure RoutesOk (s : DHT) : Prop where
  ladder : s.routes = [] ∨ Ladder (bitAt s.nodeId) (s.routes.map RouteBucket.cell)
  wellFormed : ∀ r ∈ s.routes, r.WellFormed
  placed : ∀ r ∈ s.routes, ∀ p ∈ r.nodes,
    ∃ n, s.heap p = some n ∧ r.prefixMatch n.id = true ∧ n.inRoutes = true
  nodup : s.table.Nodup
  bounded : ∀ r ∈ s.routes, r.nodes.length ≤ 2 * K
  own : s.nodeId.length = 20
  ids : ∀ p n, s.heap p = some n → n.id.length = 20

/-- A node without its flag. -/
def Node.unrouted (n : Node) : Node := { n with inRoutes := false }

/-- Nothing but buckets and flags is changed. -/
structure Rerouted (s s' : DHT) : Prop where
  same : s' = { s with heap := s'.heap, routes := s'.routes }
  records : ∀ q, (s'.heap q).map Node.unrouted = (s.heap q).map Node.unrouted

theorem Rerouted.refl (s : DHT) : Rerouted s s := ⟨rfl, fun _ => rfl⟩

theorem Rerouted.trans (h : Rerouted s t) (h' : Rerouted t s') : Rerouted s s' := by
  refine ⟨?_, fun q => (h'.records q).trans (h.records q)⟩
  rw [h'.same, h.same]

/-- A node has the same record but for the flag. -/
theorem Rerouted.record (h : Rerouted s s') (hn : s.heap p = some n) :
    ∃ n', s'.heap p = some n' ∧ n'.unrouted = n.unrouted := by
  have hRecord := h.records p
  rw [hn, Option.map_some] at hRecord
  exact Option.map_eq_some_iff.mp hRecord

theorem Rerouted.symm (h : Rerouted s s') : Rerouted s' s := by
  refine ⟨?_, fun q => (h.records q).symm⟩
  rw [h.same]

theorem Node.id_eq_of_unrouted {n n' : Node} (h : n'.unrouted = n.unrouted) : n'.id = n.id :=
  (Node.mk.inj h).1

theorem Rerouted.live_iff (h : Rerouted s s') : s'.Live p ↔ s.Live p := by
  have hRecord := congrArg Option.isSome (h.records p)
  rw [Option.isSome_map, Option.isSome_map] at hRecord
  unfold Live
  rw [hRecord]

/-- The buckets keep their prefixes. -/
def SameBuckets (s s' : DHT) : Prop :=
  s'.routes.map RouteBucket.bare = s.routes.map RouteBucket.bare

theorem SameBuckets.cells (h : SameBuckets s s') :
    s'.routes.map RouteBucket.cell = s.routes.map RouteBucket.cell := by
  have hCells := congrArg (List.map RouteBucket.cell) h
  rwa [List.map_map, List.map_map] at hCells

theorem SameBuckets.exists (h : SameBuckets s s') (hr : s.routes[i]? = some r) :
    ∃ r', s'.routes[i]? = some r' ∧ r'.bare = r.bare := by
  have hBare : (s'.routes.map RouteBucket.bare)[i]? = (s.routes.map RouteBucket.bare)[i]? := by
    rw [h]
  rw [List.getElem?_map, List.getElem?_map, hr, Option.map_some] at hBare
  exact Option.map_eq_some_iff.mp hBare

theorem prefixMatch_of_bare {r r' : RouteBucket} (h : r'.bare = r.bare) (id : Bytes) :
    r'.prefixMatch id = r.prefixMatch id := by
  show r'.bare.prefixMatch id = r.bare.prefixMatch id
  rw [h]

theorem wellFormed_of_bare {r r' : RouteBucket} (h : r'.bare = r.bare) (hr : r.WellFormed) :
    r'.WellFormed := by
  obtain ⟨hBits, hPath, -⟩ := RouteBucket.mk.inj h
  constructor
  · rw [hBits, hPath]; exact hr.length
  · rw [hBits]; exact hr.le
  · rw [hBits, hPath]; exact hr.clear

/-! ## Finding the bucket -/

/-- An id is matched by one bucket. -/
theorem RoutesOk.countP_eq_one (h : RoutesOk s) (hRoutes : s.routes ≠ []) (hid : id.length = 20) :
    (s.routes.countP fun r => r.prefixMatch id) = 1 := by
  rw [← (h.ladder.resolve_left hRoutes).countP_eq_one (bitAt id), List.countP_map]
  apply List.countP_congr
  intro r hr
  rw [prefixMatch_iff (h.wellFormed r hr) hid]
  simp

/-- The first bucket is that of the own id. -/
theorem RoutesOk.prefixMatch_own (h : RoutesOk s) {rest : List RouteBucket}
    (hRoutes : s.routes = r :: rest) : r.prefixMatch s.nodeId = true := by
  have hMem : r ∈ s.routes := hRoutes ▸ List.mem_cons_self
  have hLadder := h.ladder.resolve_left (by rw [hRoutes]; exact List.cons_ne_nil _ _)
  rw [hRoutes] at hLadder
  exact (prefixMatch_iff (h.wellFormed r hMem) h.own).mpr hLadder.1

/-- A node in the table is in the bucket that matches its id. -/
theorem RoutesOk.mem_table (h : RoutesOk s) (hn : s.heap p = some n)
    (hr : s.routes[i]? = some r) (hMatch : r.prefixMatch n.id = true) (hp : p ∈ s.table) :
    p ∈ r.nodes := by
  obtain ⟨r', hr', hMem⟩ := List.mem_flatMap.mp hp
  obtain ⟨n', hn', hMatch', -⟩ := h.placed r' hr' p hMem
  cases hn.symm.trans hn'
  obtain ⟨j, hj⟩ := List.getElem?_of_mem hr'
  have hRoutes : s.routes ≠ [] := List.ne_nil_of_mem hr'
  have hIndex := index_unique_of_countP_eq_one (h.countP_eq_one hRoutes (h.ids p n hn)) hr hj
    hMatch hMatch'
  rw [hIndex, hj] at hr
  cases hr
  exact hMem

/-- The bucket that `FindRoute` finds. -/
theorem RoutesOk.findRoute (h : RoutesOk s) (hRoutes : s.routes ≠ []) (hid : id.length = 20) :
    ∃ i r, s.findRoute id = some i ∧ s.routes[i]? = some r ∧ r.prefixMatch id = true := by
  have hPos : 0 < s.routes.countP fun r => r.prefixMatch id := by
    rw [h.countP_eq_one hRoutes hid]
    exact Nat.one_pos
  have hSome : (s.findRoute id).isSome = true := by
    unfold DHT.findRoute
    rw [List.findIdx?_isSome, List.any_eq_true]
    exact List.countP_pos_iff.mp hPos
  obtain ⟨i, hi⟩ := Option.isSome_iff_exists.mp hSome
  obtain ⟨hLt, hMatch, -⟩ := List.findIdx?_eq_some_iff_getElem.mp hi
  exact ⟨i, _, hi, List.getElem?_eq_getElem hLt, hMatch⟩

/-- A node is in one bucket or in none. -/
theorem RoutesOk.countP_mem (h : RoutesOk s) (p : Nat) :
    (s.routes.countP fun r => decide (p ∈ r.nodes)) = if p ∈ s.table then 1 else 0 := by
  have hNodup := h.nodup
  unfold table at hNodup ⊢
  generalize s.routes = l at hNodup
  induction l with
  | nil => rfl
  | cons r l ih =>
      rw [List.flatMap_cons] at hNodup ⊢
      obtain ⟨-, hRest, hDisjoint⟩ := List.nodup_append.mp hNodup
      rw [List.countP_cons, ih hRest]
      by_cases hr : p ∈ r.nodes
      · have hOut : p ∉ l.flatMap RouteBucket.nodes := fun hIn => hDisjoint p hr p hIn rfl
        simp [hr, hOut]
      · simp [hr]

/-! ## Changing one bucket -/

theorem nodesAt_eq (hr : s.routes[i]? = some r) : s.nodesAt i = r.nodes := by
  rw [nodesAt, hr]
  rfl

theorem getElem?_setNodes (s : DHT) (i j : Nat) (ns : List Nat) :
    (s.setNodes i ns).routes[j]?
      = (s.routes[j]?).map fun r => if i = j then { r with nodes := ns } else r :=
  List.getElem?_modify ..

/-- The table is the nodes of one bucket and others. -/
theorem exists_others (hr : s.routes[i]? = some r) :
    ∃ others, s.table.Perm (r.nodes ++ others)
      ∧ ∀ ns, (s.setNodes i ns).table.Perm (ns ++ others) := by
  obtain ⟨hLt, hGet⟩ := List.getElem?_eq_some_iff.mp hr
  refine ⟨(s.routes.take i ++ s.routes.drop (i + 1)).flatMap RouteBucket.nodes, ?_, fun ns => ?_⟩
  · have hSplit : s.routes = s.routes.take i ++ r :: s.routes.drop (i + 1) := by
      rw [← hGet, List.getElem_cons_drop, List.take_append_drop]
    have hTable : s.table = (s.routes.take i).flatMap RouteBucket.nodes
        ++ (r.nodes ++ (s.routes.drop (i + 1)).flatMap RouteBucket.nodes) := by
      conv_lhs => rw [table, hSplit]
      rw [List.flatMap_append, List.flatMap_cons]
    rw [hTable, List.flatMap_append]
    exact List.perm_append_comm_assoc ..
  · show ((s.routes.modify i _).flatMap _).Perm _
    rw [List.modify_eq_take_cons_drop hLt, List.flatMap_append, List.flatMap_cons,
      List.flatMap_append]
    exact List.perm_append_comm_assoc ..

theorem sameBuckets_setNodes (s : DHT) (i : Nat) (ns : List Nat) :
    SameBuckets s (s.setNodes i ns) := by
  apply List.ext_getElem?
  intro j
  rw [List.getElem?_map, List.getElem?_map, getElem?_setNodes, Option.map_map]
  apply congrFun
  apply congrArg
  funext r
  dsimp only [Function.comp_apply]
  split <;> rfl

/-- The flag of a node is changed. -/
theorem rerouted_store (hn : s.heap p = some n) (b : Bool) :
    Rerouted s (s.store p { n with inRoutes := b }) := by
  refine ⟨rfl, fun q => ?_⟩
  show (if q = p then _ else _ : Option Node).map _ = _
  split
  · rename_i hq
    rw [hq, hn]
    rfl
  · rfl

theorem rerouted_setNodes (s : DHT) (i : Nat) (ns : List Nat) : Rerouted s (s.setNodes i ns) :=
  ⟨rfl, fun _ => rfl⟩

/-- The rule for changing the nodes of one bucket: they are alive and of that
bucket, no node comes twice, and the flags are those of the table. -/
theorem RoutesOk.setNodes (h : RoutesOk s) (hr : s.routes[i]? = some r) (hKept : Rerouted s t)
    (hSame : t.routes = s.routes) {ns : List Nat}
    (hPlaced : ∀ q ∈ ns, ∃ n, s.heap q = some n ∧ r.prefixMatch n.id = true)
    (hNodup : (t.setNodes i ns).table.Nodup) (hLength : ns.length ≤ 2 * K)
    (hFlagged : ∀ q ∈ (t.setNodes i ns).table, t.Flagged q) : RoutesOk (t.setNodes i ns) := by
  have hBuckets : SameBuckets s (t.setNodes i ns) := by
    have hSet := sameBuckets_setNodes t i ns
    unfold SameBuckets at hSet ⊢
    rw [hSet, hSame]
  have hNodeId : (t.setNodes i ns).nodeId = s.nodeId := by
    show t.nodeId = s.nodeId
    rw [hKept.same]
  -- a bucket of the new table is the old one, or has the new nodes
  have hOld : ∀ r' ∈ (t.setNodes i ns).routes, ∃ r₀ ∈ s.routes, r'.bare = r₀.bare
      ∧ (r'.nodes = r₀.nodes ∨ (r₀ = r ∧ r'.nodes = ns)) := by
    intro r' hr'
    obtain ⟨j, hj⟩ := List.getElem?_of_mem hr'
    rw [getElem?_setNodes, hSame] at hj
    obtain ⟨r₀, hr₀, hEq⟩ := Option.map_eq_some_iff.mp hj
    refine ⟨r₀, List.mem_of_getElem? hr₀, ?_⟩
    split at hEq
    · rename_i hij
      rw [← hij, hr] at hr₀
      cases hr₀
      rw [← hEq]
      exact ⟨rfl, .inr ⟨rfl, rfl⟩⟩
    · rw [← hEq]
      exact ⟨rfl, .inl rfl⟩
  constructor
  · rw [hBuckets.cells, hNodeId]
    rcases h.ladder with hNil | hLadder
    · left
      show t.routes.modify i _ = []
      rw [hSame, hNil, List.modify_nil]
    · exact .inr hLadder
  · intro r' hr'
    obtain ⟨r₀, hr₀, hBare, -⟩ := hOld r' hr'
    exact wellFormed_of_bare hBare (h.wellFormed r₀ hr₀)
  · intro r' hr' q hq
    obtain ⟨m, hm, hFlag⟩ := hFlagged q (List.mem_flatMap.mpr ⟨r', hr', hq⟩)
    obtain ⟨r₀, hr₀, hBare, hNodes⟩ := hOld r' hr'
    have hMatch : ∃ m₀, s.heap q = some m₀ ∧ r₀.prefixMatch m₀.id = true := by
      rcases hNodes with hEq | ⟨rfl, hEq⟩
      · obtain ⟨m₀, hm₀, hMatch, -⟩ := h.placed r₀ hr₀ q (hEq ▸ hq)
        exact ⟨m₀, hm₀, hMatch⟩
      · exact hPlaced q (hEq ▸ hq)
    obtain ⟨m₀, hm₀, hMatch⟩ := hMatch
    obtain ⟨m', hm', hUnrouted⟩ := hKept.record hm₀
    cases hm.symm.trans hm'
    refine ⟨m, hm, ?_, hFlag⟩
    rw [prefixMatch_of_bare hBare, Node.id_eq_of_unrouted hUnrouted]
    exact hMatch
  · exact hNodup
  · intro r' hr'
    obtain ⟨r₀, hr₀, -, hNodes⟩ := hOld r' hr'
    rcases hNodes with hEq | ⟨-, hEq⟩
    · rw [hEq]
      exact h.bounded r₀ hr₀
    · rw [hEq]
      exact hLength
  · rw [hNodeId]
    exact h.own
  · intro q m hm
    obtain ⟨m₀, hm₀, hUnrouted⟩ := hKept.symm.record hm
    rw [← Node.id_eq_of_unrouted hUnrouted]
    exact h.ids q m₀ hm₀

/-! ## Taking nodes out of buckets -/

/-- Nodes left the table with their flags, or only changed places in a bucket. -/
structure Thinned (s s' : DHT) : Prop where
  ok : RoutesOk s'
  rerouted : Rerouted s s'
  buckets : SameBuckets s s'
  stale : ∀ q, s'.Stale q ↔ s.Stale q
  subset : ∀ q ∈ s'.table, q ∈ s.table
  shorter : ∀ j, (s'.nodesAt j).length ≤ (s.nodesAt j).length

theorem Thinned.refl (h : RoutesOk s) : Thinned s s :=
  ⟨h, .refl s, rfl, fun _ => Iff.rfl, fun _ => id, fun _ => Nat.le_refl _⟩

theorem Thinned.trans (h : Thinned s t) (h' : Thinned t s') : Thinned s s' where
  ok := h'.ok
  rerouted := h.rerouted.trans h'.rerouted
  buckets := h'.buckets.trans h.buckets
  stale q := (h'.stale q).trans (h.stale q)
  subset q hq := h.subset q (h'.subset q hq)
  shorter j := (h'.shorter j).trans (h.shorter j)

theorem deref_eq (hn : s.heap p = some n) : s.deref p = .ok n := by
  rw [deref, hn]

theorem heap_store_self (s : DHT) (p : Nat) (n : Node) : (s.store p n).heap p = some n :=
  if_pos rfl

theorem heap_store_of_ne (s : DHT) (n : Node) (h : q ≠ p) : (s.store p n).heap q = s.heap q :=
  if_neg h

/-- A bucket that has something at an index is there. -/
theorem exists_bucket (h : j < (s.nodesAt i).length) :
    ∃ r, s.routes[i]? = some r ∧ s.nodesAt i = r.nodes := by
  cases hr : s.routes[i]? with
  | none =>
      rw [nodesAt, hr] at h
      exact absurd h (Nat.not_lt_zero j)
  | some r => exact ⟨r, rfl, nodesAt_eq hr⟩

theorem length_nodesAt_setNodes_le {ns : List Nat} (h : ns.length ≤ (s.nodesAt i).length)
    (k : Nat) : ((s.setNodes i ns).nodesAt k).length ≤ (s.nodesAt k).length := by
  unfold nodesAt
  rw [getElem?_setNodes]
  cases hk : s.routes[k]? with
  | none => exact Nat.le_refl _
  | some r =>
      by_cases hik : i = k
      · subst hik
        rw [nodesAt_eq hk] at h
        simpa using h
      · simp [hik]

/-- A node is taken out of the table with its flag. -/
theorem removeAt_spec (h : RoutesOk s) (hp : (s.nodesAt i)[j]? = some p) :
    Yields Never (fun s' => Thinned s s' ∧ p ∉ s'.table) (s.removeAt i j) := by
  obtain ⟨hLt, hGet⟩ := List.getElem?_eq_some_iff.mp hp
  obtain ⟨r, hr, hNodes⟩ := exists_bucket hLt
  rw [hNodes] at hp hLt
  have hMem : p ∈ r.nodes := List.mem_of_getElem? hp
  obtain ⟨n, hn, -, -⟩ := h.placed r (List.mem_of_getElem? hr) p hMem
  unfold removeAt
  rw [hNodes, hp]
  dsimp only
  rw [deref_eq hn]
  let t := s.store p { n with inRoutes := false }
  let ns := r.nodes.eraseIdx j
  show Thinned s (t.setNodes i ns) ∧ p ∉ (t.setNodes i ns).table
  -- the table loses `p` and nothing else
  have hTable : s.table.Perm (p :: (t.setNodes i ns).table) := by
    obtain ⟨others, hAll, hSet⟩ := exists_others hr
    have hNs : r.nodes.Perm (p :: ns) := by
      have hGet' : r.nodes[j] = p := (List.getElem?_eq_some_iff.mp hp).2
      rw [← hGet']
      exact (List.getElem_cons_eraseIdx_perm hLt).symm
    exact hAll.trans ((hNs.append_right others).trans ((hSet ns).symm.cons p))
  obtain ⟨hOut, hNodup⟩ := List.nodup_cons.mp (hTable.nodup_iff.mp h.nodup)
  have hMemTable : ∀ q, q ∈ s.table ↔ q = p ∨ q ∈ (t.setNodes i ns).table := by
    intro q
    rw [hTable.mem_iff, List.mem_cons]
  have hFlag : ∀ q, (t.setNodes i ns).Flagged q ↔ s.Flagged q ∧ q ≠ p := by
    intro q
    by_cases hq : q = p
    · subst hq
      refine iff_of_false ?_ (fun hAnd => hAnd.2 rfl)
      rintro ⟨m, hm, hm'⟩
      cases (heap_store_self s q _).symm.trans hm
      cases hm'
    · have hSame : (t.setNodes i ns).heap q = s.heap q := heap_store_of_ne s _ hq
      unfold Flagged
      rw [hSame, and_iff_left hq]
  have hKept : Rerouted s t := rerouted_store hn false
  have hSublist : ns.Sublist r.nodes := List.eraseIdx_sublist ..
  have hShort : ns.length ≤ (s.nodesAt i).length := hNodes ▸ hSublist.length_le
  have hRouted : ∀ q ∈ s.table, s.Flagged q := by
    intro q hq
    obtain ⟨r', hr', hq'⟩ := List.mem_flatMap.mp hq
    obtain ⟨m, hm, -, hm'⟩ := h.placed r' hr' q hq'
    exact ⟨m, hm, hm'⟩
  refine ⟨?_, hOut⟩
  constructor
  · apply h.setNodes hr hKept rfl
    · intro q hq
      obtain ⟨m, hm, hMatch, -⟩ :=
        h.placed r (List.mem_of_getElem? hr) q (hSublist.subset hq)
      exact ⟨m, hm, hMatch⟩
    · exact hNodup
    · exact hSublist.length_le.trans (h.bounded r (List.mem_of_getElem? hr))
    · intro q hq
      have hIn := (hMemTable q).mpr (.inr hq)
      exact (hFlag q).mpr ⟨hRouted q hIn, fun hEq => hOut (hEq ▸ hq)⟩
  · exact hKept.trans (rerouted_setNodes t i ns)
  · exact sameBuckets_setNodes t i ns
  · intro q
    unfold Stale
    rw [hFlag, hMemTable, not_or, and_assoc]
  · intro q hq
    exact (hMemTable q).mpr (.inr hq)
  · exact length_nodesAt_setNodes_le (s := t) hShort

theorem RoutesOk.exists_record (h : RoutesOk s) (hp : p ∈ s.nodesAt i) :
    ∃ n, s.heap p = some n := by
  obtain ⟨r, hr, hNodes⟩ := exists_bucket (List.length_pos_of_mem hp)
  obtain ⟨n, hn, -⟩ := h.placed r (List.mem_of_getElem? hr) p (hNodes ▸ hp)
  exact ⟨n, hn⟩

theorem firstWhere_spec {test : Node → Bool} {ps : List Nat}
    (h : ∀ p ∈ ps, ∃ n, s.heap p = some n) :
    Yields Never (fun found => ∀ j ∈ found, j < ps.length) (s.firstWhere test ps) := by
  induction ps with
  | nil => exact fun j hj => nomatch hj
  | cons p ps ih =>
      obtain ⟨n, hn⟩ := h p List.mem_cons_self
      unfold firstWhere
      rw [deref_eq hn]
      apply Yields.ite
      · rintro - j ⟨⟩
        exact Nat.succ_pos _
      · intro _
        apply (ih fun q hq => h q (List.mem_cons_of_mem p hq)).bind
        intro found hFound j hj
        obtain ⟨k, hk, rfl⟩ := Option.map_eq_some_iff.mp hj
        exact Nat.succ_lt_succ (hFound k hk)

/-- At most one node is evicted. -/
theorem evictIf_spec (h : RoutesOk s) (cond : Bool) (i : Nat) (test : Node → Bool) :
    Yields Never (Thinned s) (s.evictIf cond i test) := by
  apply Yields.ite
  · intro _
    apply (firstWhere_spec fun p hp => h.exists_record hp).bind
    intro found hFound
    cases found with
    | none => exact .refl h
    | some j =>
        have hj := List.getElem?_eq_getElem (hFound j rfl)
        exact (removeAt_spec h hj).imp fun _ => And.left
  · intro _
    exact .refl h

theorem makeRoom_spec (h : RoutesOk s) (i : Nat) (n : Node) :
    Yields Never (Thinned s) (s.makeRoom i n) := by
  apply (evictIf_spec h _ i _).bind
  intro s₁ h₁
  apply (evictIf_spec h₁.ok _ i _).bind
  intro s₂ h₂
  exact (evictIf_spec h₂.ok _ i _).imp fun s₃ h₃ => h₁.trans (h₂.trans h₃)

theorem removeFrom_spec (h : RoutesOk s) (i p : Nat) :
    Yields Never (fun s' => Thinned s s' ∧ (p ∈ s'.table → p ∉ s.nodesAt i))
      (s.removeFrom i p) := by
  unfold removeFrom
  cases hIdx : (s.nodesAt i).idxOf? p with
  | none =>
      refine ⟨.refl h, fun _ => ?_⟩
      exact List.idxOf?_eq_none_iff.mp hIdx
  | some j =>
      obtain ⟨hLt, hEq, -⟩ := List.findIdx?_eq_some_iff_getElem.mp hIdx
      have hp : (s.nodesAt i)[j]? = some p := by
        rw [List.getElem?_eq_getElem hLt, eq_of_beq hEq]
      exact (removeAt_spec h hp).imp fun s' hs' => ⟨hs'.1, fun hIn => absurd hIn hs'.2⟩

/-- `RemoveRoute` takes the node out of the table. -/
theorem removeRoute_spec (h : RoutesOk s) (hp : s.Live p) :
    Yields Never (fun s' => Thinned s s' ∧ p ∉ s'.table) (s.removeRoute p) := by
  obtain ⟨n, hn⟩ := Option.isSome_iff_exists.mp hp
  unfold removeRoute
  rw [deref_eq hn, ok_bind]
  by_cases hRoutes : s.routes = []
  · have hFind : s.findRoute n.id = none := by
      rw [findRoute, hRoutes]
      rfl
    have hTable : p ∉ s.table := by
      rw [table, hRoutes]
      exact List.not_mem_nil
    rw [hFind]
    exact ⟨.refl h, hTable⟩
  · obtain ⟨i, r, hFind, hr, hMatch⟩ := h.findRoute hRoutes (h.ids p n hn)
    rw [hFind]
    refine (removeFrom_spec h i p).imp fun s' hs' => ⟨hs'.1, fun hIn => hs'.2 hIn ?_⟩
    rw [nodesAt_eq hr]
    exact h.mem_table hn hr hMatch (hs'.1.subset p hIn)

theorem pingQuestionable_spec {ps : List Nat} (h : ∀ p ∈ ps, ∃ n, s.heap p = some n)
    (limit : Nat) : Yields Never (· ≤ ps.length) (s.pingQuestionable limit ps) := by
  induction ps generalizing limit with
  | nil => cases limit <;> exact Nat.le_refl 0
  | cons p ps ih =>
      cases limit with
      | zero => exact Nat.zero_le _
      | succ limit =>
          obtain ⟨n, hn⟩ := h p List.mem_cons_self
          have hRest : ∀ q ∈ ps, ∃ n, s.heap q = some n :=
            fun q hq => h q (List.mem_cons_of_mem p hq)
          unfold pingQuestionable
          rw [deref_eq hn]
          apply Yields.ite
          · intro _
            exact (ih hRest (limit + 1)).imp fun q hq => Nat.le_succ_of_le hq
          · intro _
            exact (ih hRest limit).bind fun q hq => Nat.succ_le_succ hq

/-- The first `K` nodes of a bucket are asked, so no more are questionable. -/
theorem RoutesOk.pingQuestionable (h : RoutesOk s) (limit i : Nat) :
    Yields Never (· ≤ K) (s.pingQuestionable limit ((s.nodesAt i).take K)) :=
  (pingQuestionable_spec (fun _ hp => h.exists_record (List.mem_of_mem_take hp)) limit).imp
    fun _ hq => hq.trans (List.length_take_le ..)

theorem trim_spec (h : RoutesOk s) (i : Nat) : Yields Never (Thinned s) (s.trim i) := by
  apply Yields.ite
  · intro hLong
    apply (h.pingQuestionable _ i).bind
    intro q _
    apply Yields.ite
    · intro _
      have hK := List.getElem?_eq_getElem hLong
      exact (removeAt_spec h hK).imp fun _ => And.left
    · intro _
      exact .refl h
  · intro _
    exact .refl h

/-! ## Adding to a bucket -/

theorem RoutesOk.flagged (h : RoutesOk s) (hq : q ∈ s.table) : s.Flagged q := by
  obtain ⟨r, hr, hMem⟩ := List.mem_flatMap.mp hq
  obtain ⟨n, hn, -, hFlag⟩ := h.placed r hr q hMem
  exact ⟨n, hn, hFlag⟩

/-- A node is in the table from now on, and not stale. -/
theorem append_spec (h : RoutesOk s) (hr : s.routes[i]? = some r) (hn : s.heap p = some n)
    (hMatch : r.prefixMatch n.id = true) (hp : p ∉ r.nodes) (hRoom : r.nodes.length < 2 * K) :
    Yields Never (fun s' => RoutesOk s' ∧ Rerouted s s' ∧ SameBuckets s s'
      ∧ ∀ q, s'.Stale q ↔ s.Stale q ∧ q ≠ p) (s.append i p) := by
  unfold append
  rw [deref_eq hn, nodesAt_eq hr]
  let t := s.store p { n with inRoutes := true }
  let ns := r.nodes ++ [p]
  show RoutesOk (t.setNodes i ns) ∧ _
  have hOut : p ∉ s.table := fun hIn => hp (h.mem_table hn hr hMatch hIn)
  have hTable : (t.setNodes i ns).table.Perm (p :: s.table) := by
    obtain ⟨others, hAll, hSet⟩ := exists_others hr
    refine (hSet ns).trans ?_
    rw [List.append_assoc]
    exact List.perm_middle.trans (hAll.symm.cons p)
  have hMemTable : ∀ q, q ∈ (t.setNodes i ns).table ↔ q = p ∨ q ∈ s.table := by
    intro q
    rw [hTable.mem_iff, List.mem_cons]
  have hFlag : ∀ q, t.Flagged q ↔ q = p ∨ s.Flagged q := by
    intro q
    by_cases hq : q = p
    · subst hq
      exact iff_of_true ⟨_, heap_store_self s q _, rfl⟩ (.inl rfl)
    · have hSame : t.heap q = s.heap q := heap_store_of_ne s _ hq
      unfold Flagged
      rw [hSame, or_iff_right hq]
  have hKept : Rerouted s t := rerouted_store hn true
  have hMem := List.mem_of_getElem? hr
  refine ⟨?_, hKept.trans (rerouted_setNodes t i ns), sameBuckets_setNodes t i ns, ?_⟩
  · apply h.setNodes hr hKept rfl
    · intro q hq
      rcases List.mem_append.mp hq with hq | hq
      · obtain ⟨m, hm, hMatch', -⟩ := h.placed r hMem q hq
        exact ⟨m, hm, hMatch'⟩
      · rw [List.mem_singleton] at hq
        exact hq ▸ ⟨n, hn, hMatch⟩
    · exact hTable.nodup_iff.mpr (List.nodup_cons.mpr ⟨hOut, h.nodup⟩)
    · rw [List.length_append]
      exact hRoom
    · intro q hq
      exact (hFlag q).mpr (((hMemTable q).mp hq).imp_right h.flagged)
  · intro q
    show t.Flagged q ∧ _ ↔ _
    rw [hFlag, hMemTable]
    unfold Stale
    by_cases hq : q = p
    · simp [hq]
    · simp [hq]

/-- A stable node changes places only. -/
theorem moveStable_spec (h : RoutesOk s) (hj : (s.nodesAt i)[j]? = some p) :
    Thinned s (s.moveStable i j p) := by
  obtain ⟨hLt, hGet⟩ := List.getElem?_eq_some_iff.mp hj
  obtain ⟨r, hr, hNodes⟩ := exists_bucket hLt
  unfold moveStable
  by_cases hStable : j < K
  · rw [if_pos hStable]
    let rest := (s.nodesAt i).eraseIdx j
    let ns := if rest.length < K then rest ++ [p] else rest.insertIdx (K - 1) p
    show Thinned s (s.setNodes i ns)
    have hNs : ns.Perm r.nodes := by
      have hRest : ns.Perm (p :: rest) := by
        show (if rest.length < K then rest ++ [p] else rest.insertIdx (K - 1) p).Perm _
        split
        · exact List.perm_append_singleton ..
        · exact List.perm_insertIdx p rest (by omega)
      rw [← hNodes]
      exact hRest.trans (hGet ▸ List.getElem_cons_eraseIdx_perm hLt)
    have hTable : (s.setNodes i ns).table.Perm s.table := by
      obtain ⟨others, hAll, hSet⟩ := exists_others hr
      exact (hSet ns).trans ((hNs.append_right others).trans hAll.symm)
    have hMem := List.mem_of_getElem? hr
    constructor
    · apply h.setNodes hr (.refl s) rfl
      · intro q hq
        obtain ⟨m, hm, hMatch, -⟩ := h.placed r hMem q (hNs.mem_iff.mp hq)
        exact ⟨m, hm, hMatch⟩
      · exact hTable.nodup_iff.mpr h.nodup
      · rw [hNs.length_eq]
        exact h.bounded r hMem
      · intro q hq
        exact h.flagged (hTable.mem_iff.mp hq)
    · exact rerouted_setNodes s i ns
    · exact sameBuckets_setNodes s i ns
    · intro q
      show s.Flagged q ∧ _ ↔ _
      rw [hTable.mem_iff, Stale]
    · intro q hq
      exact hTable.mem_iff.mp hq
    · apply length_nodesAt_setNodes_le
      rw [hNs.length_eq, hNodes]
  · rw [if_neg hStable]
    exact .refl h

/-- The bucket for an id is there, or is made. -/
theorem routeFor_spec (h : RoutesOk s) (hid : id.length = 20) :
    Yields Never (fun x => RoutesOk x.1 ∧ Rerouted s x.1 ∧ (∀ q, x.1.Stale q ↔ s.Stale q)
      ∧ (x.1 = s ∨ s.routes = []) ∧ ∃ r, x.1.routes[x.2]? = some r ∧ r.prefixMatch id = true)
      (s.routeFor id) := by
  unfold routeFor
  by_cases hRoutes : s.routes = []
  · have hFind : s.findRoute id = none := by
      rw [findRoute, hRoutes]
      rfl
    rw [hFind, hRoutes]
    let r : RouteBucket := ⟨0, [], []⟩
    show RoutesOk { s with routes := [r] } ∧ _
    have hTable : ({ s with routes := [r] } : DHT).table = s.table := by
      rw [table, table, hRoutes]
      rfl
    refine ⟨?_, ⟨rfl, fun _ => rfl⟩, ?_, .inr rfl, r, rfl, by simp [RouteBucket.prefixMatch, r]⟩
    · constructor
      · exact .inr (ladder_whole _ _)
      · intro r' hr'
        rw [List.mem_singleton] at hr'
        rw [hr']
        exact ⟨(by decide : (0 + 7) / 8 ≤ 0), by decide, fun k _ => bitAt_of_length_le (Nat.zero_le _)⟩
      · intro r' hr' q hq
        rw [List.mem_singleton] at hr'
        rw [hr'] at hq
        exact absurd hq List.not_mem_nil
      · rw [hTable]
        exact h.nodup
      · intro r' hr'
        rw [List.mem_singleton] at hr'
        rw [hr']
        exact Nat.zero_le _
      · exact h.own
      · exact h.ids
    · intro q
      unfold Stale
      rw [hTable]
      rfl
  · obtain ⟨i, r, hFind, hr, hMatch⟩ := h.findRoute hRoutes hid
    rw [hFind]
    exact ⟨h, .refl s, fun _ => Iff.rfl, .inl rfl, r, hr, hMatch⟩

/-! ## Splitting the first bucket -/

/-- The half of a bucket whose ids go on with `b`. -/
structure HalfOf (r r' : RouteBucket) (b : Bool) : Prop where
  bits : r'.prefixBits = r.prefixBits + 1
  agree : Agree r.prefixBits (bitAt r'.path) (bitAt r.path)
  bit : bitAt r'.path r.prefixBits = b
  wellFormed : r'.WellFormed

/-- A node of a bucket belongs in the half that has its bit. -/
theorem HalfOf.placed {r' : RouteBucket} {b : Bool} (hHalf : HalfOf r r' b) (h : RoutesOk s)
    (hr : r ∈ s.routes) (hq : q ∈ r.nodes)
    (hBit : ∃ n, s.heap q = some n ∧ bitAt n.id r.prefixBits = b) :
    ∃ n, s.heap q = some n ∧ r'.prefixMatch n.id = true ∧ n.inRoutes = true := by
  obtain ⟨n, hn, hb⟩ := hBit
  obtain ⟨n', hn', hMatch, hFlag⟩ := h.placed r hr q hq
  cases hn.symm.trans hn'
  have hid := h.ids q n hn
  refine ⟨n, hn, ?_, hFlag⟩
  rw [prefixMatch_iff hHalf.wellFormed hid]
  exact covers_half ((prefixMatch_iff (h.wellFormed r hr) hid).mp hMatch) hHalf.bits hHalf.agree
    (hHalf.bit.trans hb.symm)

/-- The table with the first bucket in halves. -/
theorem RoutesOk.split (h : RoutesOk s) {rest : List RouteBucket} (hRoutes : s.routes = r :: rest)
    {r₀ r₁ : RouteBucket} {b : Bool} (h₀ : HalfOf r r₀ b) (h₁ : HalfOf r r₁ (!b))
    (hOwn : bitAt s.nodeId r.prefixBits = b) (hNodes : (r₀.nodes ++ r₁.nodes).Perm r.nodes)
    (hBits₀ : ∀ q ∈ r₀.nodes, ∃ n, s.heap q = some n ∧ bitAt n.id r.prefixBits = b)
    (hBits₁ : ∀ q ∈ r₁.nodes, ∃ n, s.heap q = some n ∧ bitAt n.id r.prefixBits = !b) :
    RoutesOk { s with routes := r₀ :: r₁ :: rest }
      ∧ ∀ q, ({ s with routes := r₀ :: r₁ :: rest } : DHT).Stale q ↔ s.Stale q := by
  have hr : r ∈ s.routes := hRoutes ▸ List.mem_cons_self
  have hRest : ∀ r' ∈ rest, r' ∈ s.routes := fun r' hr' => hRoutes ▸ List.mem_cons_of_mem r hr'
  have hTable : ({ s with routes := r₀ :: r₁ :: rest } : DHT).table.Perm s.table := by
    unfold table
    rw [hRoutes, List.flatMap_cons, List.flatMap_cons, List.flatMap_cons, ← List.append_assoc]
    exact hNodes.append_right _
  have hLength : r₀.nodes.length + r₁.nodes.length = r.nodes.length := by
    rw [← List.length_append, hNodes.length_eq]
  have hBound := h.bounded r hr
  refine ⟨?_, fun q => ?_⟩
  · constructor
    · right
      have hLadder := h.ladder.resolve_left (List.ne_nil_of_mem hr)
      rw [hRoutes] at hLadder
      have hOther : bitAt r₁.path r.prefixBits ≠ bitAt s.nodeId r.prefixBits := by
        rw [h₁.bit, hOwn]
        cases b <;> decide
      show Ladder _ (r₀.cell :: r₁.cell :: rest.map RouteBucket.cell)
      exact hLadder.split h₀.bits h₁.bits h₀.agree h₁.agree (h₀.bit.trans hOwn.symm) hOther
    · intro r' hr'
      rcases List.mem_cons.mp hr' with rfl | hr'
      · exact h₀.wellFormed
      · rcases List.mem_cons.mp hr' with rfl | hr'
        · exact h₁.wellFormed
        · exact h.wellFormed r' (hRest r' hr')
    · intro r' hr' q hq
      rcases List.mem_cons.mp hr' with rfl | hr'
      · have hMem := hNodes.mem_iff.mp (List.mem_append_left _ hq)
        have hPlaced := h₀.placed h hr hMem (hBits₀ q hq)
        exact hPlaced
      · rcases List.mem_cons.mp hr' with rfl | hr'
        · have hMem := hNodes.mem_iff.mp (List.mem_append_right _ hq)
          have hPlaced := h₁.placed h hr hMem (hBits₁ q hq)
          exact hPlaced
        · exact h.placed r' (hRest r' hr') q hq
    · exact hTable.nodup_iff.mpr h.nodup
    · intro r' hr'
      rcases List.mem_cons.mp hr' with rfl | hr'
      · omega
      · rcases List.mem_cons.mp hr' with rfl | hr'
        · omega
        · exact h.bounded r' (hRest r' hr')
    · exact h.own
    · exact h.ids
  · show s.Flagged q ∧ _ ↔ _
    rw [hTable.mem_iff, Stale]

theorem distribute_spec (bits : Nat) {ps : List Nat} (h : ∀ p ∈ ps, ∃ n, s.heap p = some n) :
    Yields Never (fun x => (x.1 ++ x.2).Perm ps
      ∧ (∀ q ∈ x.1, ∃ n, s.heap q = some n ∧ bitAt n.id bits = true)
      ∧ ∀ q ∈ x.2, ∃ n, s.heap q = some n ∧ bitAt n.id bits = false) (s.distribute bits ps) := by
  induction ps with
  | nil => exact ⟨.refl [], fun q hq => absurd hq List.not_mem_nil,
      fun q hq => absurd hq List.not_mem_nil⟩
  | cons p ps ih =>
      obtain ⟨n, hn⟩ := h p List.mem_cons_self
      unfold distribute
      rw [deref_eq hn]
      apply (ih fun q hq => h q (List.mem_cons_of_mem p hq)).bind
      rintro ⟨ns2, ns1⟩ ⟨hPerm, hSet, hClear⟩
      show _ ∧ _
      by_cases hBit : bitAt n.id bits = true
      · rw [if_pos ((and_bitMask_ne_zero n.id bits).mpr hBit)]
        refine ⟨hPerm.cons p, ?_, hClear⟩
        intro q hq
        rcases List.mem_cons.mp hq with rfl | hq
        · exact ⟨n, hn, hBit⟩
        · exact hSet q hq
      · rw [if_neg (mt (and_bitMask_ne_zero n.id bits).mp hBit)]
        refine ⟨List.perm_middle.trans (hPerm.cons p), hSet, ?_⟩
        intro q hq
        rcases List.mem_cons.mp hq with rfl | hq
        · exact ⟨n, hn, Bool.eq_false_iff.mpr hBit⟩
        · exact hClear q hq

theorem keepsRoute0_spec (h : RoutesOk s) {rest : List RouteBucket}
    (hRoutes : s.routes = r :: rest) :
    Yields Never (fun keeps => keeps = false → r.prefixBits < 160) (s.keepsRoute0 r rest) := by
  unfold keepsRoute0
  apply Yields.ite
  · intro _ hFalse
    cases hFalse
  · intro hSplit
    have hLt : r.prefixBits < 160 := by
      simp only [Bool.or_eq_true, decide_eq_true_eq, not_or] at hSplit
      omega
    cases rest with
    | nil => exact fun _ => hLt
    | cons r1 rest =>
        have hLive : ∀ p ∈ r1.nodes, ∃ n, s.heap p = some n := by
          intro p hp
          obtain ⟨n, hn, -⟩ := h.placed r1 (by rw [hRoutes]; simp) p hp
          exact ⟨n, hn⟩
        have hGood : Yields Never (fun _ => True) (s.hasGoodNodes r1) :=
          (firstWhere_spec hLive).bind fun _ _ => trivial
        exact hGood.bind fun _ _ _ => hLt

/-- How many times the first bucket can be split. -/
def splitsLeft (s : DHT) : Nat := 160 - ((s.routes.head?).map RouteBucket.prefixBits).getD 0

/-- A split keeps the table right and brings the loop nearer to its end. -/
theorem splitRoute0_spec (h : RoutesOk s) (hRoutes : s.routes ≠ []) :
    Yields Never (fun x => ∀ s' ∈ x, RoutesOk s' ∧ Rerouted s s' ∧ (∀ q, s'.Stale q ↔ s.Stale q)
      ∧ s'.routes ≠ [] ∧ s'.splitsLeft < s.splitsLeft) s.splitRoute0 := by
  obtain ⟨r, rest, hRoutes⟩ := List.exists_cons_of_ne_nil hRoutes
  have hr : r ∈ s.routes := hRoutes ▸ List.mem_cons_self
  have hWf := h.wellFormed r hr
  have hLive : ∀ p ∈ r.nodes, ∃ n, s.heap p = some n := by
    intro p hp
    obtain ⟨n, hn, -⟩ := h.placed r hr p hp
    exact ⟨n, hn⟩
  unfold splitRoute0
  rw [hRoutes]
  dsimp only
  apply (keepsRoute0_spec h hRoutes).bind
  intro keeps hKeeps
  apply Yields.ite
  · intro _ s' hs'
    cases hs'
  · intro hSplit
    have hBits := hKeeps (Bool.eq_false_iff.mpr hSplit)
    generalize hPath : (if r.path.length ≤ r.prefixBits / 8 then r.path ++ [0] else r.path) = path
    have hLong : r.prefixBits / 8 < path.length := by
      have hLength := hWf.length
      rw [← hPath]
      split
      · rw [List.length_append, List.length_singleton]
        omega
      · omega
    have hSame : ∀ k, bitAt path k = bitAt r.path k := by
      intro k
      rw [← hPath]
      split
      · exact bitAt_append_zero r.path k
      · rfl
    have hEnough : (r.prefixBits + 1 + 7) / 8 ≤ path.length := by omega
    have hSet := bitAt_setBitAt hLong
    have hNew : ∀ path' : Bytes, path'.length = path.length →
        RouteBucket.new (r.prefixBits + 1) path' = .ok ⟨r.prefixBits + 1, path', []⟩ :=
      fun path' hEq => if_pos (hEq ▸ hEnough)
    rw [hNew path rfl, hNew _ (length_setBitAt path _)]
    apply (distribute_spec r.prefixBits hLive).bind
    rintro ⟨ns2, ns1⟩ ⟨hPerm, hTrue, hFalse⟩
    have h₁ : HalfOf r ⟨r.prefixBits + 1, path, ns1⟩ false := by
      refine ⟨rfl, fun k _ => hSame k, ?_, hEnough, hBits, fun k hk => ?_⟩
      · exact (hSame _).trans (hWf.clear _ (Nat.le_refl _))
      · exact (hSame k).trans (hWf.clear k (Nat.le_of_succ_le hk))
    have h₂ : HalfOf r ⟨r.prefixBits + 1, setBitAt path r.prefixBits, ns2⟩ true := by
      refine ⟨rfl, fun k hk => ?_, (hSet _).trans (if_pos rfl),
        (length_setBitAt path _).symm ▸ hEnough, hBits, fun k hk => ?_⟩
      · exact (hSet k).trans ((if_neg (Nat.ne_of_lt hk)).trans (hSame k))
      · exact (hSet k).trans ((if_neg (Nat.ne_of_gt hk)).trans
          ((hSame k).trans (hWf.clear k (Nat.le_of_succ_le hk))))
    -- whichever half is the first one, it is that of the own id
    have hDone : ∀ (b : Bool) (r₀ r₁ : RouteBucket), HalfOf r r₀ b → HalfOf r r₁ (!b) →
        bitAt s.nodeId r.prefixBits = b → (r₀.nodes ++ r₁.nodes).Perm r.nodes →
        (∀ q ∈ r₀.nodes, ∃ n, s.heap q = some n ∧ bitAt n.id r.prefixBits = b) →
        (∀ q ∈ r₁.nodes, ∃ n, s.heap q = some n ∧ bitAt n.id r.prefixBits = !b) →
        Yields Never (fun x => ∀ s' ∈ x, RoutesOk s' ∧ Rerouted s s'
          ∧ (∀ q, s'.Stale q ↔ s.Stale q) ∧ s'.routes ≠ [] ∧ s'.splitsLeft < s.splitsLeft)
          (if r₀.prefixMatch s.nodeId then .ok (some { s with routes := r₀ :: r₁ :: rest })
            else .error Crash.assertion) := by
      intro b r₀ r₁ hr₀ hr₁ hOwn hNodes hBits₀ hBits₁
      obtain ⟨hOk, hStale⟩ := h.split hRoutes hr₀ hr₁ hOwn hNodes hBits₀ hBits₁
      have hMatch : r₀.prefixMatch s.nodeId = true := hOk.prefixMatch_own rfl
      rw [if_pos hMatch]
      rintro s' ⟨⟩
      refine ⟨hOk, ⟨rfl, fun _ => rfl⟩, hStale, List.cons_ne_nil _ _, ?_⟩
      unfold splitsLeft
      rw [hRoutes]
      show 160 - r₀.prefixBits < 160 - r.prefixBits
      rw [hr₀.bits]
      omega
    by_cases hOwn : bitAt s.nodeId r.prefixBits = true
    · rw [if_pos ((and_bitMask_ne_zero _ _).mpr hOwn)]
      exact hDone true _ _ h₂ h₁ hOwn hPerm hTrue hFalse
    · rw [if_neg (mt (and_bitMask_ne_zero _ _).mp hOwn)]
      exact hDone false _ _ h₁ h₂ (Bool.eq_false_iff.mpr hOwn)
        (List.perm_append_comm.trans hPerm) hFalse hTrue

theorem SameBuckets.splitsLeft (h : SameBuckets s s') : s'.splitsLeft = s.splitsLeft := by
  have hHead := congrArg List.head? h
  rw [List.head?_map, List.head?_map] at hHead
  have hBits := congrArg (Option.map RouteBucket.prefixBits) hHead
  rw [Option.map_map, Option.map_map] at hBits
  unfold DHT.splitsLeft
  exact congrArg (fun b : Option Nat => 160 - b.getD 0) hBits

/-! ## `AddRoute` -/

/-- What a `goto try_again` takes along. -/
structure Again (s s' : DHT) : Prop where
  ok : RoutesOk s'
  rerouted : Rerouted s s'
  stale : ∀ q, s'.Stale q ↔ s.Stale q

/-- What `AddRoute` does: unless the node is skipped it is not stale afterwards. -/
structure Added (s : DHT) (p : Nat) (x : DHT × Bool) : Prop where
  ok : RoutesOk x.1
  rerouted : Rerouted s x.1
  routes : x.1.routes ≠ []
  stale : ∀ q, x.1.Stale q ↔ s.Stale q ∧ (q = p → x.2 = true)

theorem Again.added (h : Again s t) {x : DHT × Bool} (hx : Added t p x) : Added s p x where
  ok := hx.ok
  rerouted := h.rerouted.trans hx.rerouted
  routes := hx.routes
  stale q := by rw [hx.stale, h.stale]

theorem Again.trans (h : Again s t) (h' : Again t s') : Again s s' where
  ok := h'.ok
  rerouted := h.rerouted.trans h'.rerouted
  stale q := (h'.stale q).trans (h.stale q)

theorem Thinned.again (h : Thinned s s') : Again s s' := ⟨h.ok, h.rerouted, h.stale⟩

/-- A turn that starts in `s` goes on nearer to the end of the loop, or returns. -/
def TurnOk (s : DHT) (p : Nat) : DHT ⊕ DHT × Bool → Prop :=
  Sum.elim (fun s' => Again s s' ∧ s'.splitsLeft < s.splitsLeft) (Added s p)

theorem splitIf_spec (h : RoutesOk s) (hRoutes : s.routes ≠ []) (cond : Bool) :
    Yields Never (fun x => ∀ s' ∈ x, Again s s' ∧ s'.splitsLeft < s.splitsLeft)
      (s.splitIf cond) := by
  apply Yields.ite
  · intro _
    refine (splitRoute0_spec h hRoutes).imp fun x hx s' hs' => ?_
    obtain ⟨hOk, hKept, hStale, -, hLess⟩ := hx s' hs'
    exact ⟨⟨hOk, hKept, hStale⟩, hLess⟩
  · rintro - s' ⟨⟩

section

variable (h : RoutesOk s) (hr : s.routes[i]? = some r) (hn : s.heap p = some n)
  (hMatch : r.prefixMatch n.id = true) (hp : p ∉ r.nodes)

include h hr hn hMatch hp in
theorem append_added (hRoom : r.nodes.length < 2 * K) :
    Yields Never (TurnOk s p) (s.append i p >>= fun s' => .ok (.inr (s', false))) := by
  apply (append_spec h hr hn hMatch hp hRoom).bind
  rintro s' ⟨hOk, hKept, hBuckets, hStale⟩
  refine ⟨hOk, hKept, fun hNil => ?_, fun q => ?_⟩
  · obtain ⟨r', hr', -⟩ := hBuckets.exists hr
    dsimp only at hNil
    rw [hNil] at hr'
    cases hr'
  · show s'.Stale q ↔ s.Stale q ∧ (q = p → false = true)
    rw [hStale]
    simp

include h hr hn hMatch hp in
theorem placeFull_spec : Yields Never (TurnOk s p) (s.placeFull i p) := by
  have hRoutes : s.routes ≠ [] := List.ne_nil_of_mem (List.mem_of_getElem? hr)
  apply (h.pingQuestionable _ i).bind
  intro q hq
  apply Yields.ite
  · intro _
    apply (splitIf_spec h hRoutes _).bind
    intro x hx
    cases x with
    | some s' => exact hx s' rfl
    | none => exact ⟨h, .refl s, hRoutes, fun q => by simp⟩
  · intro hRoom
    rw [nodesAt_eq hr] at hRoom
    exact append_added h hr hn hMatch hp (by omega)

include h hr hn hMatch hp in
theorem place_spec : Yields Never (TurnOk s p) (s.place i p) := by
  have hRoutes : s.routes ≠ [] := List.ne_nil_of_mem (List.mem_of_getElem? hr)
  apply (splitIf_spec h hRoutes _).bind
  intro x hx
  cases x with
  | some s' => exact hx s' rfl
  | none =>
      apply Yields.ite
      · intro _
        exact placeFull_spec h hr hn hMatch hp
      · intro hRoom
        rw [full, nodesAt_eq hr, decide_eq_true_eq] at hRoom
        exact append_added h hr hn hMatch hp (by omega)

end

theorem addRouteTurn_spec (h : RoutesOk s) (hp : s.Live p) :
    Yields Never (TurnOk s p) (addRouteTurn p s) := by
  obtain ⟨n, hn⟩ := Option.isSome_iff_exists.mp hp
  unfold addRouteTurn
  rw [deref_eq hn]
  apply (routeFor_spec h (h.ids p n hn)).bind
  rintro ⟨t, i⟩ ⟨hOk, hKept, hStale, hNew, r, hr, hMatch⟩
  have hAgain : Again s t := ⟨hOk, hKept, hStale⟩
  have hLeft : t.splitsLeft ≤ s.splitsLeft := by
    rcases hNew with hEq | hNil
    · exact Nat.le_of_eq (congrArg DHT.splitsLeft hEq)
    · have hAll : s.splitsLeft = 160 := by
        rw [splitsLeft, hNil]
        rfl
      rw [hAll]
      exact Nat.sub_le ..
  dsimp only
  cases hIdx : (t.nodesAt i).idxOf? p with
  | some j =>
      obtain ⟨hLt, hEq, -⟩ := List.findIdx?_eq_some_iff_getElem.mp hIdx
      have hj : (t.nodesAt i)[j]? = some p := by
        rw [List.getElem?_eq_getElem hLt, eq_of_beq hEq]
      have hMoved := moveStable_spec hOk hj
      apply hAgain.added
      refine ⟨hMoved.ok, hMoved.rerouted, fun hNil => ?_, fun q => ?_⟩
      · obtain ⟨r', hr', -⟩ := hMoved.buckets.exists hr
        dsimp only at hNil
        rw [hNil] at hr'
        cases hr'
      · -- the node is in the table, so it is not stale
        have hIn : p ∈ t.table := by
          rw [nodesAt_eq hr] at hj
          exact List.mem_flatMap.mpr ⟨r, List.mem_of_getElem? hr, List.mem_of_getElem? hj⟩
        rw [hMoved.stale]
        refine ⟨fun hq => ⟨hq, fun hEq => ?_⟩, And.left⟩
        exact absurd (hEq ▸ hIn) hq.2
  | none =>
      have hOut : p ∉ t.nodesAt i := List.idxOf?_eq_none_iff.mp hIdx
      rw [nodesAt_eq hr] at hOut
      have hRecord := hKept.record hn
      obtain ⟨m, hm, hUnrouted⟩ := hRecord
      have hOutTable : p ∉ t.table := by
        intro hIn
        refine hOut (hOk.mem_table hm hr ?_ hIn)
        rw [Node.id_eq_of_unrouted hUnrouted]
        exact hMatch
      apply (makeRoom_spec hOk i n).bind
      intro u hu
      obtain ⟨r', hr', hBare⟩ := hu.buckets.exists hr
      obtain ⟨m', hm', hUnrouted'⟩ := hu.rerouted.record hm
      have hMatch' : r'.prefixMatch m'.id = true := by
        rw [prefixMatch_of_bare hBare, Node.id_eq_of_unrouted hUnrouted',
          Node.id_eq_of_unrouted hUnrouted]
        exact hMatch
      have hOut' : p ∉ r'.nodes := fun hIn => hOutTable
        (hu.subset p (List.mem_flatMap.mpr ⟨r', List.mem_of_getElem? hr', hIn⟩))
      have hAgain' : Again s u := hAgain.trans hu.again
      refine (place_spec hu.ok hr' hm' hMatch' hOut').imp fun x hx => ?_
      cases x with
      | inl s' =>
          refine ⟨hAgain'.trans hx.1, ?_⟩
          have hLess := hx.2
          rw [hu.buckets.splitsLeft] at hLess
          exact Nat.lt_of_lt_of_le hLess hLeft
      | inr x => exact hAgain'.added hx

/-- `AddRoute` returns, with the node in the table unless it is skipped. -/
theorem addRoute_spec (h : RoutesOk s) (hp : s.Live p) :
    Yields Never (Added s p) (s.addRoute p) := by
  apply Yields.loopOr splitsLeft (I := Again s)
  · intro t ht
    refine (addRouteTurn_spec ht.ok (ht.rerouted.live_iff.mpr hp)).imp fun x hx => ?_
    cases x with
    | inl s' => exact ⟨ht.trans hx.1, hx.2⟩
    | inr x => exact ht.added hx
  · exact ⟨h, .refl s, fun _ => Iff.rfl⟩
  · exact Nat.lt_of_le_of_lt (Nat.sub_le ..) (Nat.lt_succ_self 160)

end Lftp.Ports.DHT
