import Lftp.Ports.DHTRoutes
import Lftp.Verified.Index

/-!
# The indexes of the nodes

The nodes are indexed by their ids and by their addresses. `RemoveNode` calls
itself for an origin that is to be black-listed before it goes on with the node
it was called for, so what has to be shown is that this node is still there.

* `IndexOk` is the invariant: an entry of either table is a node under its own key.
* `Inv` is that and the invariant of the routing table, `Tidy` that the flags are
  those of the table and that there is a bucket when there are nodes.
* `Chain` is the nodes that `RemoveNode` removes, in the order of the calls;
  `Chain.nodup` says that they are distinct when the calls end.
* `foundNode_spec` is the step lemma of `FoundNode`, which calls all of them.
-/

namespace Lftp.Ports.DHT

open Lftp.Verified

variable {s s' t u : DHT} {p q o : Nat} {n m : Node} {id : Bytes} {a : SockAddr}

/-! ## Invariants -/

/-- The key of a node in `node_by_addr`. -/
def Node.compact (n : Node) : Bytes := n.addr.compact

/-- The two indexes are those of the nodes. -/
structure IndexOk (s : DHT) : Prop where
  validNodes : s.nodes.Valid
  validByAddr : s.nodeByAddr.Valid
  byId : IsIndex s.nodes.value? s.heap Node.id
  byAddr : IsIndex s.nodeByAddr.value? s.heap Node.compact
  fresh : ∀ p, s.nextNode ≤ p → s.heap p = none

structure Inv (s : DHT) : Prop where
  routes : RoutesOk s
  index : IndexOk s

/-- No flag is stale, and there is a bucket when there are nodes. -/
structure Tidy (s : DHT) : Prop where
  unstale : ∀ q, ¬ s.Stale q
  first : (∃ p, s.Live p) → s.routes ≠ []

/-- What all calls but `Restart` keep. -/
structure Keeps (s s' : DHT) : Prop where
  inv : Inv s'
  tidy : Tidy s → Tidy s'

theorem Keeps.refl (h : Inv s) : Keeps s s := ⟨h, id⟩

theorem Keeps.trans (h : Keeps s t) (h' : Keeps t u) : Keeps s u :=
  ⟨h'.inv, fun hs => h'.tidy (h.tidy hs)⟩

theorem Live.exists (h : s.Live p) : ∃ n, s.heap p = some n := Option.isSome_iff_exists.mp h

theorem live_of_heap (h : s.heap p = some n) : s.Live p := Option.isSome_iff_exists.mpr ⟨n, h⟩

/-- The keys of a node. -/
def Node.keys (n : Node) : Bytes × SockAddr := (n.id, n.addr)

/-- The indexes depend on the keys of the nodes only. -/
theorem IndexOk.of_keys (h : IndexOk s) (hNodes : s'.nodes = s.nodes)
    (hByAddr : s'.nodeByAddr = s.nodeByAddr) (hNext : s'.nextNode = s.nextNode)
    (hKeys : ∀ q, (s'.heap q).map Node.keys = (s.heap q).map Node.keys) : IndexOk s' where
  validNodes := hNodes ▸ h.validNodes
  validByAddr := hByAddr ▸ h.validByAddr
  byId := by
    rw [hNodes]
    apply h.byId.congr
    intro p
    have hIds := congrArg (Option.map Prod.fst) (hKeys p)
    rwa [Option.map_map, Option.map_map] at hIds
  byAddr := by
    rw [hByAddr]
    apply h.byAddr.congr
    intro p
    have hAddrs := congrArg (Option.map fun x : Bytes × SockAddr => x.2.compact) (hKeys p)
    rwa [Option.map_map, Option.map_map] at hAddrs
  fresh p hp := by
    have hNone := hKeys p
    rw [h.fresh p (hNext ▸ hp)] at hNone
    exact Option.map_eq_none_iff.mp hNone

theorem Rerouted.index (h : Rerouted s s') (hs : IndexOk s) : IndexOk s' := by
  apply hs.of_keys
  · rw [h.same]
  · rw [h.same]
  · rw [h.same]
  · intro q
    have hKeys := congrArg (Option.map Node.keys) (h.records q)
    rw [Option.map_map, Option.map_map] at hKeys
    exact hKeys

theorem Rerouted.exists_live_iff (h : Rerouted s s') : (∃ p, s'.Live p) ↔ ∃ p, s.Live p :=
  exists_congr fun _ => h.live_iff

theorem Thinned.keeps (h : Thinned s s') (hs : Inv s) : Keeps s s' where
  inv := ⟨h.ok, h.rerouted.index hs.index⟩
  tidy ht := by
    refine ⟨fun q hq => ht.unstale q ((h.stale q).mp hq), fun hLive hNil => ?_⟩
    apply ht.first (h.rerouted.exists_live_iff.mp hLive)
    have hBuckets := h.buckets
    rw [SameBuckets, hNil] at hBuckets
    exact List.map_eq_nil_iff.mp hBuckets.symm

/-- `AddRoute` in a state `t` without stale flags that `s` had not makes a bucket. -/
theorem Added.keeps {x : DHT × Bool} (h : Added t p x) (ht : Inv t)
    (hStale : ∀ q, t.Stale q → s.Stale q) : Keeps s x.1 where
  inv := ⟨h.ok, h.rerouted.index ht.index⟩
  tidy hs := ⟨fun q hq => hs.unstale q (hStale q ((h.stale q).mp hq).1), fun _ => h.routes⟩

/-! ## Records -/

/-- What the invariants read in a node. -/
def Node.seen (n : Node) : Bytes × SockAddr × Bool := (n.id, n.addr, n.inRoutes)

/-- Only what the invariants do not read is changed. -/
structure Touched (s s' : DHT) : Prop where
  nodeId : s'.nodeId = s.nodeId
  nextNode : s'.nextNode = s.nextNode
  nodes : s'.nodes = s.nodes
  nodeByAddr : s'.nodeByAddr = s.nodeByAddr
  routes : s'.routes = s.routes
  records : ∀ q, (s'.heap q).map Node.seen = (s.heap q).map Node.seen

theorem Touched.refl (s : DHT) : Touched s s := ⟨rfl, rfl, rfl, rfl, rfl, fun _ => rfl⟩

theorem Touched.trans (h : Touched s t) (h' : Touched t u) : Touched s u :=
  ⟨h'.nodeId.trans h.nodeId, h'.nextNode.trans h.nextNode, h'.nodes.trans h.nodes,
    h'.nodeByAddr.trans h.nodeByAddr, h'.routes.trans h.routes,
    fun q => (h'.records q).trans (h.records q)⟩

theorem touched_store (hn : s.heap p = some n) (hm : m.seen = n.seen) :
    Touched s (s.store p m) := by
  refine ⟨rfl, rfl, rfl, rfl, rfl, fun q => ?_⟩
  by_cases hq : q = p
  · rw [hq, heap_store_self, hn, Option.map_some, Option.map_some, hm]
  · rw [heap_store_of_ne s m hq]

theorem touched_blackListAdd (s : DHT) (a : SockAddr) : Touched s (s.blackListAdd a) :=
  ⟨rfl, rfl, rfl, rfl, rfl, fun _ => rfl⟩

theorem Touched.record (h : Touched s s') (hn : s.heap p = some n) :
    ∃ n', s'.heap p = some n' ∧ n'.seen = n.seen := by
  have hRecord := h.records p
  rw [hn, Option.map_some] at hRecord
  exact Option.map_eq_some_iff.mp hRecord

theorem Touched.symm (h : Touched s s') : Touched s' s :=
  ⟨h.nodeId.symm, h.nextNode.symm, h.nodes.symm, h.nodeByAddr.symm, h.routes.symm,
    fun q => (h.records q).symm⟩

theorem Touched.live (h : Touched s s') (hp : s.Live p) : s'.Live p := by
  obtain ⟨n, hn⟩ := hp.exists
  obtain ⟨n', hn', -⟩ := h.record hn
  exact live_of_heap hn'

theorem Touched.flagged (h : Touched s s') (hq : s.Flagged q) : s'.Flagged q := by
  obtain ⟨n, hn, hFlag⟩ := hq
  obtain ⟨n', hn', hSeen⟩ := h.record hn
  exact ⟨n', hn', (congrArg (fun x => x.2.2) hSeen).trans hFlag⟩

theorem Touched.stale_iff (h : Touched s s') (q : Nat) : s'.Stale q ↔ s.Stale q := by
  have hTable : s'.table = s.table := by
    unfold table
    rw [h.routes]
  unfold Stale
  rw [hTable]
  exact and_congr_left' ⟨h.symm.flagged, h.flagged⟩

theorem Touched.routesOk (h : Touched s s') (hs : RoutesOk s) : RoutesOk s' where
  ladder := by
    rw [h.routes, h.nodeId]
    exact hs.ladder
  wellFormed := h.routes ▸ hs.wellFormed
  placed r hr p hp := by
    obtain ⟨n, hn, hMatch, hFlag⟩ := hs.placed r (h.routes ▸ hr) p hp
    obtain ⟨n', hn', hSeen⟩ := h.record hn
    obtain ⟨hId, hRest⟩ := Prod.mk.inj hSeen
    rw [← hId] at hMatch
    exact ⟨n', hn', hMatch, (Prod.mk.inj hRest).2.trans hFlag⟩
  nodup := by
    unfold table
    rw [h.routes]
    exact hs.nodup
  bounded := h.routes ▸ hs.bounded
  own := h.nodeId ▸ hs.own
  ids p n hn := by
    obtain ⟨n', hn', hSeen⟩ := h.symm.record hn
    rw [← (Prod.mk.inj hSeen).1]
    exact hs.ids p n' hn'

theorem Touched.keeps (h : Touched s s') (hs : Inv s) : Keeps s s' where
  inv := by
    refine ⟨h.routesOk hs.routes, hs.index.of_keys h.nodes h.nodeByAddr h.nextNode fun q => ?_⟩
    have hKeys := congrArg (Option.map fun x : Bytes × SockAddr × Bool => (x.1, x.2.1)) (h.records q)
    rw [Option.map_map, Option.map_map] at hKeys
    exact hKeys
  tidy ht := by
    refine ⟨fun q hq => ht.unstale q ((h.stale_iff q).mp hq), fun hLive => ?_⟩
    rw [h.routes]
    obtain ⟨p, hp⟩ := hLive
    exact ht.first ⟨p, h.symm.live hp⟩

/-! ## Dropping a node -/

/-- A node leaves the heap and the indexes, once it is in no bucket. -/
theorem Inv.erase (h : Inv s) (hn : s.heap p = some n) (hOut : p ∉ s.table) :
    Keeps s { s with
      heap := fun q => if q = p then none else s.heap q
      nodes := s.nodes.remove n.id
      nodeByAddr := s.nodeByAddr.remove n.addr.compact } := by
  have hHeap : ∀ q m, (if q = p then none else s.heap q : Option Node) = some m →
      q ≠ p ∧ s.heap q = some m := by
    intro q m hm
    by_cases hq : q = p
    · rw [if_pos hq] at hm
      cases hm
    · rw [if_neg hq] at hm
      exact ⟨hq, hm⟩
  refine ⟨⟨?_, ?_⟩, fun ht => ⟨fun q hq => ?_, fun hLive => ?_⟩⟩
  · refine ⟨h.routes.ladder, h.routes.wellFormed, fun r hr q hq => ?_, h.routes.nodup,
      h.routes.bounded, h.routes.own, fun q m hm => h.routes.ids q m (hHeap q m hm).2⟩
    obtain ⟨m, hm, hMatch⟩ := h.routes.placed r hr q hq
    have hNe : q ≠ p := by
      rintro rfl
      exact hOut (List.mem_flatMap.mpr ⟨r, hr, hq⟩)
    exact ⟨m, (if_neg hNe).trans hm, hMatch⟩
  · refine ⟨h.index.validNodes.remove _, h.index.validByAddr.remove _, ?_, ?_, ?_⟩
    · exact h.index.byId.erase hn (h.index.validNodes.value?_remove n.id)
    · exact h.index.byAddr.erase hn (h.index.validByAddr.value?_remove n.compact)
    · intro q hq
      show (if q = p then none else s.heap q : Option Node) = none
      rw [h.index.fresh q hq, ite_self]
  · obtain ⟨⟨m, hm, hFlag⟩, hTable⟩ := hq
    exact ht.unstale q ⟨⟨m, (hHeap q m hm).2, hFlag⟩, hTable⟩
  · obtain ⟨q, hq⟩ := hLive
    obtain ⟨m, hm⟩ := hq.exists
    exact ht.first ⟨q, live_of_heap (hHeap q m hm).2⟩

/-- `RemoveNode` from `RemoveRoute` on frees the node and no other. -/
theorem dropNode_spec (h : Inv s) (hp : s.Live p) :
    Yields Never (fun s' => Keeps s s' ∧ ∀ q, q ≠ p → s.Live q → s'.Live q) (s.dropNode p) := by
  apply (removeRoute_spec h.routes hp).bind
  rintro t ⟨hThin, hOut⟩
  obtain ⟨n, hn⟩ := (hThin.rerouted.live_iff.mpr hp).exists
  have hKeeps := hThin.keeps h
  rw [deref_eq hn]
  have hFound : t.nodes.value? n.id = some p := hKeeps.inv.index.byId.found hn
  show _ ∧ _
  unfold removeId
  dsimp only
  rw [hFound]
  refine ⟨hKeeps.trans (hKeeps.inv.erase hn hOut), fun q hq hLive => ?_⟩
  have hSame : (if q = p then none else t.heap q : Option Node) = t.heap q := if_neg hq
  show (if q = p then none else t.heap q : Option Node).isSome = true
  rw [hSame]
  exact hThin.rerouted.live_iff.mpr hLive

/-! ## The calls of `RemoveNode` -/

/-- `GetOrigin` finds another node. -/
theorem getOrigin_spec (h : IndexOk s) (hn : s.heap p = some n) :
    Yields Never (fun origin => ∀ o ∈ origin, o ≠ p ∧ s.Live o) (s.getOrigin p) := by
  unfold getOrigin
  rw [deref_eq hn]
  show ∀ o ∈ _, _
  intro o ho
  split at ho
  · cases ho
  · split at ho
    · rename_i o' hFound
      split at ho
      · cases ho
      · rename_i hNe
        cases ho
        obtain ⟨m, hm, -⟩ := (h.byId _ _).mp hFound
        exact ⟨hNe, live_of_heap hm⟩
    · cases ho

/-- `RemoveNode` of `p` blames `o`, whose record is `m`. -/
def Blames (s : DHT) (p o : Nat) (m : Node) : Prop :=
  ∃ n, s.heap p = some n ∧ s.getOrigin p = .ok (some o) ∧ n.responded = false
    ∧ 1 < n.pingLostCount ∧ s.heap o = some m

/-- A node with `k` more bad nodes to its account. -/
def Node.charged (m : Node) (k : Nat) : Node := { m with badNodeCount := m.badNodeCount + k }

theorem Node.charged_charged (m : Node) (j k : Nat) :
    (m.charged j).charged k = m.charged (j + k) :=
  congrArg (fun b => { m with badNodeCount := b }) (Nat.add_assoc ..)

theorem Blames.blame_eq (h : Blames s p o m) :
    s.blame p = .ok (s.store o (m.charged 1),
      if 2 * K < m.badNodeCount + 1 then some o else none) := by
  obtain ⟨n, hn, hOrigin, hResponded, hLost, hm⟩ := h
  unfold blame
  rw [deref_eq hn, hOrigin]
  show (if (!n.responded && decide (1 < n.pingLostCount)) = true then _ else _) = _
  rw [if_pos (by simp [hResponded, hLost]), deref_eq hm]
  rfl

/-- Either nobody is blamed or some origin is. -/
theorem blame_cases (h : IndexOk s) (hp : s.Live p) :
    s.blame p = .ok (s, none) ∨ ∃ o m, Blames s p o m := by
  obtain ⟨n, hn⟩ := hp.exists
  obtain ⟨origin, hOrigin, hLive⟩ := (getOrigin_spec h hn).exists
  cases origin with
  | none =>
      left
      unfold blame
      rw [deref_eq hn, hOrigin]
      rfl
  | some o =>
      obtain ⟨m, hm⟩ := (hLive o rfl).2.exists
      by_cases hCond : (!n.responded && decide (1 < n.pingLostCount)) = true
      · right
        have hBoth : n.responded = false ∧ 1 < n.pingLostCount := by simpa using hCond
        exact ⟨o, m, n, hn, hOrigin, hBoth.1, hBoth.2, hm⟩
      · left
        unfold blame
        rw [deref_eq hn, hOrigin]
        show (if (!n.responded && decide (1 < n.pingLostCount)) = true then _ else _) = _
        rw [if_neg hCond]

/-- Blame touches nothing that the invariants read. -/
theorem blame_spec (h : IndexOk s) (hp : s.Live p) :
    Yields Never (fun x => Touched s x.1 ∧ ∀ o ∈ x.2, s.Live o) (s.blame p) := by
  rcases blame_cases h hp with hNone | ⟨o, m, hBlames⟩
  · rw [hNone]
    exact ⟨.refl s, fun o ho => nomatch ho⟩
  · rw [hBlames.blame_eq]
    obtain ⟨n, -, -, -, -, hm⟩ := hBlames
    refine ⟨touched_store hm rfl, fun o' ho' => ?_⟩
    dsimp only at ho'
    split at ho'
    · cases ho'
      exact live_of_heap hm
    · cases ho'

/-- Where an origin is to be black-listed it was blamed. -/
theorem blames_of_blame (h : IndexOk s) (hp : s.Live p) (hBlame : s.blame p = .ok (t, some o)) :
    ∃ m, Blames s p o m ∧ t = s.store o (m.charged 1) ∧ 2 * K < m.badNodeCount + 1 := by
  rcases blame_cases h hp with hNone | ⟨o', m, hBlames⟩
  · rw [hNone] at hBlame
    cases hBlame
  · rw [hBlames.blame_eq] at hBlame
    have hPair := Except.ok.inj hBlame
    obtain ⟨hStore, hOrigin⟩ := Prod.mk.inj hPair
    split at hOrigin
    · rename_i hMany
      cases hOrigin
      exact ⟨m, hBlames, hStore.symm, hMany⟩
    · cases hOrigin

/-- The nodes that `RemoveNode` of `p` removes, outermost first, and the state in
which the innermost call comes to remove its own. -/
inductive Chain : DHT → Nat → DHT → List Nat → Prop
  | last {s t : DHT} {p : Nat} (h : s.blame p = .ok (t, none)) : Chain s p t [p]
  | nest {s s' t : DHT} {p o : Nat} {m : Node} {c : List Nat} (h : s.blame p = .ok (s', some o))
      (hm : s'.heap o = some m) (hc : Chain (s'.blackListAdd m.addr) o t c) : Chain s p t (p :: c)

/-- `RemoveNode` goes down a chain and drops its nodes on the way back. -/
theorem removeNode_eq (h : Inv s) (hp : s.Live p) (depth : Nat) :
    s.removeNode depth p = .error .unfinished
      ∨ ∃ t c, Chain s p t c ∧ s.removeNode depth p = c.reverse.foldlM dropNode t := by
  induction depth generalizing s p with
  | zero => exact .inl rfl
  | succ depth ih =>
      obtain ⟨⟨t, origin⟩, hBlame, hTouched, hLive⟩ := (blame_spec h.index hp).exists
      cases origin with
      | none =>
          refine .inr ⟨t, [p], .last hBlame, ?_⟩
          rw [removeNode, hBlame]
          show t.dropNode p = (t.dropNode p >>= pure)
          rw [bind_pure]
      | some o =>
          obtain ⟨m, hm⟩ := (hTouched.live (hLive o rfl)).exists
          have hListed := hTouched.trans (touched_blackListAdd t m.addr)
          have hInv := (hListed.keeps h).inv
          have hCalls : s.removeNode (depth + 1) p
              = (removeNode depth (t.blackListAdd m.addr) o >>= fun u => u.dropNode p) := by
            rw [removeNode, hBlame]
            show (t.deref o >>= fun m => removeNode depth (t.blackListAdd m.addr) o
              >>= fun u => u.dropNode p) = _
            rw [deref_eq hm]
            rfl
          rw [hCalls]
          rcases ih hInv (hListed.live (hLive o rfl)) with hOut | ⟨t', c, hChain, hDrop⟩
          · left
            rw [hOut]
            rfl
          · right
            refine ⟨t', p :: c, .nest hBlame hm hChain, ?_⟩
            rw [hDrop, List.reverse_cons, List.foldlM_append]
            apply bind_congr
            intro u
            show u.dropNode p = (u.dropNode p >>= pure)
            rw [bind_pure]

/-- The same nodes with no less to their account. -/
structure Worse (s s' : DHT) : Prop where
  nodes : s'.nodes = s.nodes
  records : ∀ q n, s.heap q = some n →
    ∃ k, s'.heap q = some (n.charged k)

theorem Worse.refl (s : DHT) : Worse s s := ⟨rfl, fun _ _ hn => ⟨0, hn⟩⟩

theorem Worse.trans (h : Worse s t) (h' : Worse t u) : Worse s u := by
  refine ⟨h'.nodes.trans h.nodes, fun q n hn => ?_⟩
  obtain ⟨k, hk⟩ := h.records q n hn
  obtain ⟨k', hk'⟩ := h'.records q _ hk
  exact ⟨k + k', by rw [hk', Node.charged_charged]⟩

/-- The state in which an origin is removed. -/
def blamedState (s : DHT) (o : Nat) (m : Node) (a : SockAddr) : DHT :=
  (s.store o (m.charged 1)).blackListAdd a

theorem touched_blamedState (hm : s.heap o = some m) (a : SockAddr) :
    Touched s (s.blamedState o m a) := by
  have hStore : Touched s (s.store o (m.charged 1)) := touched_store hm rfl
  exact hStore.trans (touched_blackListAdd _ a)

theorem worse_blamedState (hm : s.heap o = some m) (a : SockAddr) :
    Worse s (s.blamedState o m a) := by
  refine ⟨rfl, fun q n hn => ?_⟩
  show ∃ k, (s.store o (m.charged 1)).heap q = _
  by_cases hq : q = o
  · subst hq
    cases hm.symm.trans hn
    exact ⟨1, heap_store_self s q _⟩
  · exact ⟨0, (heap_store_of_ne s _ hq).trans hn⟩

/-- Blaming in both states keeps one worse than the other. -/
theorem Worse.blamedState (h : Worse s t) {k : Nat} {a a' : SockAddr} :
    Worse (s.blamedState o m a) (t.blamedState o (m.charged k) a') := by
  refine ⟨h.nodes, fun q n hn => ?_⟩
  show ∃ j, (t.store o _).heap q = _
  have hn' : (s.store o (m.charged 1)).heap q = some n := hn
  by_cases hq : q = o
  · subst hq
    cases (heap_store_self s q _).symm.trans hn'
    refine ⟨k, (heap_store_self t q _).trans (congrArg some ?_)⟩
    rw [Node.charged_charged, Node.charged_charged, Nat.add_comm]
  · rw [heap_store_of_ne s _ hq] at hn'
    obtain ⟨j, hj⟩ := h.records q n hn'
    exact ⟨j, (heap_store_of_ne t _ hq).trans hj⟩

/-- Who is blamed depends on nothing that grows worse. -/
theorem Blames.worse (h : Blames s p o m) (hWorse : Worse s t) :
    ∃ k, Blames t p o (m.charged k) := by
  obtain ⟨n, hn, hOrigin, hResponded, hLost, hm⟩ := h
  obtain ⟨k, hk⟩ := hWorse.records o m hm
  obtain ⟨j, hj⟩ := hWorse.records p n hn
  refine ⟨k, _, hj, ?_, hResponded, hLost, hk⟩
  rw [← hOrigin, getOrigin, getOrigin, deref_eq hn, deref_eq hj, hWorse.nodes]
  rfl

/-- One call of a chain, in terms of who is blamed. -/
theorem Chain.inv_nest (h : Inv s) (hp : s.Live p) (hBlame : s.blame p = .ok (t, some o))
    (hm : t.heap o = some m) :
    ∃ m₀, Blames s p o m₀ ∧ s.heap o = some m₀ ∧ 2 * K < m₀.badNodeCount + 1
      ∧ t.blackListAdd m.addr = s.blamedState o m₀ m.addr := by
  obtain ⟨m₀, hBlames, rfl, hMany⟩ := blames_of_blame h.index hp hBlame
  obtain ⟨n, hn, hOrigin, hResponded, hLost, hm₀⟩ := hBlames
  exact ⟨m₀, ⟨n, hn, hOrigin, hResponded, hLost, hm₀⟩, hm₀, hMany, rfl⟩

/-- From a worse state the calls go no less deep. -/
theorem Chain.length_le {c : List Nat} (hChain : Chain s p t c) (h : Inv s) (hp : s.Live p)
    {s₂ t₂ : DHT} {c₂ : List Nat} (h₂ : Inv s₂) (hWorse : Worse s s₂)
    (hChain₂ : Chain s₂ p t₂ c₂) : c.length ≤ c₂.length := by
  induction hChain generalizing s₂ t₂ c₂ with
  | last _ =>
      cases hChain₂ with
      | last _ => exact Nat.le_refl _
      | nest _ _ _ => exact Nat.succ_le_succ (Nat.zero_le _)
  | @nest s s' t p o m c hBlame hm _ ih =>
      obtain ⟨m₀, hBlames, hm₀, hMany, hState⟩ := Chain.inv_nest h hp hBlame hm
      obtain ⟨k, hBlames₂⟩ := hBlames.worse hWorse
      have hBlame₂ := hBlames₂.blame_eq
      have hMore : m₀.badNodeCount ≤ (m₀.charged k).badNodeCount := Nat.le_add_right ..
      rw [if_pos (by omega)] at hBlame₂
      cases hChain₂ with
      | last hNone =>
          rw [hBlame₂] at hNone
          cases hNone
      | nest hSome hm₂ hRest =>
          rw [hBlame₂] at hSome
          cases hSome
          obtain ⟨-, -, -, -, -, hk⟩ := hBlames₂
          rw [hState] at ih
          have hTouched := touched_blamedState hm₀ m.addr
          apply Nat.succ_le_succ
          refine ih (hTouched.keeps h).inv (hTouched.live (live_of_heap hm₀)) ?_
            hWorse.blamedState hRest
          exact ((touched_blamedState hk _).keeps h₂).inv

/-- The calls inside a chain are made in worse states. -/
theorem Chain.inside {c : List Nat} (hChain : Chain s p t c) (h : Inv s) (hp : s.Live p)
    (hq : q ∈ c) :
    ∃ s₂ c₂, Worse s s₂ ∧ Inv s₂ ∧ Chain s₂ q t c₂ ∧ c₂.length ≤ c.length := by
  induction hChain with
  | last hBlame =>
      obtain rfl := List.mem_singleton.mp hq
      exact ⟨_, _, .refl _, h, .last hBlame, Nat.le_refl _⟩
  | @nest s s' t p o m c hBlame hm hRest ih =>
      rcases List.mem_cons.mp hq with rfl | hq
      · exact ⟨_, _, .refl _, h, .nest hBlame hm hRest, Nat.le_refl _⟩
      · obtain ⟨m₀, -, hm₀, -, hState⟩ := Chain.inv_nest h hp hBlame hm
        rw [hState] at ih
        have hTouched := touched_blamedState hm₀ m.addr
        obtain ⟨s₂, c₂, hWorse, hInv, hChain₂, hLength⟩ :=
          ih (hTouched.keeps h).inv (hTouched.live (live_of_heap hm₀)) hq
        exact ⟨s₂, c₂, (worse_blamedState hm₀ _).trans hWorse, hInv, hChain₂,
          Nat.le_succ_of_le hLength⟩

/-- The calls touch nothing on their way down, and are for nodes that are there. -/
theorem Chain.touched {c : List Nat} (hChain : Chain s p t c) (h : Inv s) (hp : s.Live p) :
    Touched s t ∧ ∀ q ∈ c, s.Live q := by
  induction hChain with
  | last hBlame =>
      have hSpec := blame_spec h.index hp
      rw [hBlame] at hSpec
      refine ⟨hSpec.1, fun q hq => ?_⟩
      rw [List.mem_singleton] at hq
      exact hq ▸ hp
  | @nest s s' t p o m c hBlame hm _ ih =>
      obtain ⟨m₀, -, hm₀, -, hState⟩ := Chain.inv_nest h hp hBlame hm
      rw [hState] at ih
      have hTouched := touched_blamedState hm₀ m.addr
      obtain ⟨hRest, hLive⟩ := ih (hTouched.keeps h).inv (hTouched.live (live_of_heap hm₀))
      refine ⟨hTouched.trans hRest, fun q hq => ?_⟩
      rcases List.mem_cons.mp hq with rfl | hq
      · exact hp
      · exact hTouched.symm.live (hLive q hq)

/-- When the calls end no node is removed twice: a second call for it, in a worse
state, would go at least as deep as the first. -/
theorem Chain.nodup {c : List Nat} (hChain : Chain s p t c) (h : Inv s) (hp : s.Live p) :
    c.Nodup := by
  induction hChain with
  | last _ => exact List.nodup_singleton _
  | @nest s s' t p o m c hBlame hm hRest ih =>
      obtain ⟨m₀, -, hm₀, -, hState⟩ := Chain.inv_nest h hp hBlame hm
      have hTouched := touched_blamedState hm₀ m.addr
      have hInv := (hTouched.keeps h).inv
      have hLive := hTouched.live (live_of_heap hm₀)
      have hWhole := Chain.nest hBlame hm hRest
      rw [hState] at ih hRest
      refine List.nodup_cons.mpr ⟨fun hIn => ?_, ih hInv hLive⟩
      obtain ⟨s₂, c₂, hWorse, hInv₂, hChain₂, hLength⟩ := hRest.inside hInv hLive hIn
      have hDeep := hWhole.length_le h hp hInv₂ ((worse_blamedState hm₀ _).trans hWorse) hChain₂
      rw [List.length_cons] at hDeep
      omega

/-- An error that only a call without end makes. -/
def Unfinished (e : Crash) : Prop := e = .unfinished

/-- `RemoveNode` keeps the invariants; its node is there when its turn comes. -/
theorem removeNode_spec (h : Inv s) (hp : s.Live p) (depth : Nat) :
    Yields Unfinished (Keeps s) (s.removeNode depth p) := by
  rcases removeNode_eq h hp depth with hOut | ⟨t, c, hChain, hDrop⟩
  · rw [hOut]
    exact rfl
  · rw [hDrop]
    obtain ⟨hTouched, hLive⟩ := hChain.touched h hp
    have hNodup : c.reverse.Nodup := List.nodup_reverse.mpr (hChain.nodup h hp)
    let I : List Nat → DHT → Prop := fun l u => Keeps s u ∧ l.Nodup ∧ ∀ q ∈ l, u.Live q
    have hRun : Yields Never (I []) (c.reverse.foldlM dropNode t) := by
      refine Yields.foldlM (I := I) (fun q l u hI => ?_) ⟨hTouched.keeps h, hNodup, ?_⟩
      · obtain ⟨hKeeps, hNodup, hLive⟩ := hI
        obtain ⟨hOut, hNodup⟩ := List.nodup_cons.mp hNodup
        refine (dropNode_spec hKeeps.inv (hLive q List.mem_cons_self)).imp fun v hv => ?_
        refine ⟨hKeeps.trans hv.1, hNodup, fun x hx => hv.2 x ?_ ?_⟩
        · rintro rfl
          exact hOut hx
        · exact hLive x (List.mem_cons_of_mem q hx)
      · intro q hq
        exact hTouched.live (hLive q (List.mem_reverse.mp hq))
    exact hRun.total.imp fun u hu => hu.1

theorem blackListNode_spec (h : Inv s) (hp : s.Live p) (depth : Nat) :
    Yields Unfinished (Keeps s) (s.blackListNode depth p) := by
  obtain ⟨n, hn⟩ := hp.exists
  unfold blackListNode
  rw [deref_eq hn]
  have hTouched := touched_blackListAdd s n.addr
  have hKeeps := hTouched.keeps h
  exact (removeNode_spec hKeeps.inv (hTouched.live hp) depth).imp fun _ => hKeeps.trans

/-! ## Nodes that come, and new ids -/

/-- A new node enters the heap and the indexes. -/
theorem Inv.insert (h : Inv s) (hid : n.id.length = 20) (hFlag : n.inRoutes = false)
    (hNew : s.nodes.value? n.id = none) (hNewAddr : s.nodeByAddr.value? n.addr.compact = none) :
    let t : DHT := { s with
      heap := fun q => if q = s.nextNode then some n else s.heap q
      nextNode := s.nextNode + 1
      nodes := s.nodes.add n.id s.nextNode
      nodeByAddr := s.nodeByAddr.add n.addr.compact s.nextNode }
    Inv t ∧ ∀ q, t.Stale q → s.Stale q := by
  intro t
  have hFree := h.index.fresh s.nextNode (Nat.le_refl _)
  have hOld : ∀ q m, s.heap q = some m → t.heap q = some m := by
    intro q m hm
    have hNe : q ≠ s.nextNode := by
      rintro rfl
      rw [hFree] at hm
      cases hm
    exact (if_neg hNe).trans hm
  have hHeap : ∀ q m, t.heap q = some m → m = n ∨ s.heap q = some m := by
    intro q m hm
    by_cases hq : q = s.nextNode
    · exact .inl (Option.some.inj (hm.symm.trans (if_pos hq)))
    · exact .inr ((if_neg hq).symm.trans hm)
  refine ⟨⟨?_, ?_⟩, fun q hq => ?_⟩
  · refine ⟨h.routes.ladder, h.routes.wellFormed, fun r hr q hq => ?_, h.routes.nodup,
      h.routes.bounded, h.routes.own, fun q m hm => ?_⟩
    · obtain ⟨m, hm, hMatch⟩ := h.routes.placed r hr q hq
      exact ⟨m, hOld q m hm, hMatch⟩
    · rcases hHeap q m hm with rfl | hm
      · exact hid
      · exact h.routes.ids q m hm
  · refine ⟨h.index.validNodes.add _ _, h.index.validByAddr.add _ _, ?_, ?_, ?_⟩
    · exact h.index.byId.insert hFree hNew (h.index.validNodes.value?_add n.id _)
    · exact h.index.byAddr.insert hFree hNewAddr (h.index.validByAddr.value?_add n.compact _)
    · intro q hq
      have hNe : q ≠ s.nextNode := Nat.ne_of_gt hq
      exact (if_neg hNe).trans (h.index.fresh q (Nat.le_of_succ_le hq))
  · obtain ⟨⟨m, hm, hm'⟩, hTable⟩ := hq
    rcases hHeap q m hm with rfl | hm
    · rw [hFlag] at hm'
      cases hm'
    · exact ⟨⟨m, hm, hm'⟩, hTable⟩

/-- A node in no bucket gets a new id in the heap and in the index. -/
theorem Inv.rekey (h : Inv s) (hn : s.heap p = some n) (hOut : p ∉ s.table)
    (hid : id.length = 20) (hNew : s.nodes.value? id = none) :
    let t : DHT := { s with
      heap := fun q => if q = p then some { n with id := id } else s.heap q
      nodes := (s.nodes.remove n.id).add id p }
    Inv t ∧ ∀ q, t.Stale q → s.Stale q := by
  intro t
  have hOld : ∀ q, q ≠ p → t.heap q = s.heap q := fun q hq => if_neg hq
  have hSelf : t.heap p = some { n with id := id } := if_pos rfl
  refine ⟨⟨?_, ?_⟩, fun q hq => ?_⟩
  · refine ⟨h.routes.ladder, h.routes.wellFormed, fun r hr q hq => ?_, h.routes.nodup,
      h.routes.bounded, h.routes.own, fun q m hm => ?_⟩
    · obtain ⟨m, hm, hMatch⟩ := h.routes.placed r hr q hq
      have hNe : q ≠ p := by
        rintro rfl
        exact hOut (List.mem_flatMap.mpr ⟨r, hr, hq⟩)
      exact ⟨m, (hOld q hNe).trans hm, hMatch⟩
    · by_cases hq : q = p
      · subst hq
        cases hSelf.symm.trans hm
        exact hid
      · exact h.routes.ids q m ((hOld q hq).symm.trans hm)
  · have hRemoved := h.index.validNodes.value?_remove n.id
    have hAbsent : (s.nodes.remove n.id).value? id = none := by
      rw [hRemoved, hNew, ite_self]
    have hErased := h.index.byId.erase hn hRemoved
    refine ⟨(h.index.validNodes.remove _).add _ _, h.index.validByAddr, ?_, ?_, ?_⟩
    · have hInsert := hErased.insert (a := { n with id := id }) (if_pos rfl) hAbsent
        ((h.index.validNodes.remove n.id).value?_add id p)
      have hHeap : (fun q => if q = p then some { n with id := id }
          else if q = p then none else s.heap q) = t.heap := by
        funext q
        show _ = if q = p then _ else _
        split <;> rfl
      rwa [hHeap] at hInsert
    · apply h.index.byAddr.congr
      intro q
      by_cases hq : q = p
      · subst hq
        rw [hSelf, hn]
        rfl
      · rw [hOld q hq]
    · intro q hq
      have hNe : q ≠ p := by
        rintro rfl
        rw [h.index.fresh q hq] at hn
        cases hn
      exact (hOld q hNe).trans (h.index.fresh q hq)
  · obtain ⟨⟨m, hm, hm'⟩, hTable⟩ := hq
    refine ⟨?_, hTable⟩
    by_cases hq : q = p
    · subst hq
      cases hSelf.symm.trans hm
      exact ⟨n, hn, hm'⟩
    · exact ⟨m, (hOld q hq).symm.trans hm, hm'⟩

theorem addId_eq (h : s.nodes.value? id = none) (p : Nat) :
    s.addId id p = { s with nodes := s.nodes.add id p } := by
  rw [addId, h]

/-- `ChangeNodeId` to an id that no node has. -/
theorem changeNodeId_spec (h : Inv s) (hp : s.Live p) (hid : id.length = 20)
    (hNew : s.nodes.value? id = none) :
    Yields Never (fun s' => Keeps s s' ∧ s'.Live p) (s.changeNodeId p id) := by
  obtain ⟨n, hn⟩ := hp.exists
  unfold changeNodeId
  rw [deref_eq hn]
  have hTouched : Touched s (s.store p { n with idChangeCount := n.idChangeCount + 1 }) :=
    touched_store hn rfl
  have hKeeps := hTouched.keeps h
  apply (removeRoute_spec hKeeps.inv.routes (hTouched.live hp)).bind
  rintro t ⟨hThin, hOut⟩
  have hKeeps' := hKeeps.trans (hThin.keeps hKeeps.inv)
  have hLive : t.Live p := hThin.rerouted.live_iff.mpr (hTouched.live hp)
  obtain ⟨m, hm⟩ := hLive.exists
  have hNew' : t.nodes.value? id = none := by
    rw [hThin.rerouted.same]
    exact hNew
  rw [deref_eq hm]
  obtain ⟨hInv, hStale⟩ := hKeeps'.inv.rekey hm hOut hid hNew'
  have hAbsent : (t.nodes.remove m.id).value? id = none := by
    rw [hKeeps'.inv.index.validNodes.value?_remove, hNew', ite_self]
  show Yields _ _ (((({ t with nodes := t.nodes.remove m.id } : DHT).store p
    { m with id := id }).addId id p).addRoute p >>= _)
  rw [addId_eq (s := ({ t with nodes := t.nodes.remove m.id } : DHT).store p _) hAbsent]
  have hThere : (if p = p then some { m with id := id } else t.heap p) = some { m with id := id } :=
    if_pos rfl
  apply (addRoute_spec hInv.routes (live_of_heap hThere)).bind
  intro x hx
  exact ⟨hKeeps'.trans (hx.keeps hInv hStale), hx.rerouted.live_iff.mpr (live_of_heap hThere)⟩

theorem isThere_eq {α : Type} (t : XMap α) (k : Bytes) : t.isThere k = (t.value? k).isSome := by
  unfold XMap.isThere XMap.value?
  rw [Option.isSome_map]

/-- A new node in the heap and in the indexes. -/
def inserted (s : DHT) (id : Bytes) (a : SockAddr) : DHT := { s with
  heap := fun q => if q = s.nextNode then some (Node.new id a) else s.heap q
  nextNode := s.nextNode + 1
  nodes := s.nodes.add id s.nextNode
  nodeByAddr := s.nodeByAddr.add a.compact s.nextNode }

/-- No assertion of `AddNode` fails for a new id and a new address. -/
theorem addNode_eq (hid : id.length = 20) (hNew : s.nodes.value? id = none)
    (hNewAddr : s.nodeByAddr.value? a.compact = none) :
    (s.makeNode id a).addNode s.nextNode
      = (s.inserted id a).addRoute s.nextNode >>= fun x => .ok x.1 := by
  have hThere : (s.makeNode id a).heap s.nextNode = some (Node.new id a) := if_pos rfl
  have hPass : ¬ (id.length ≠ 20 ∨ s.nodes.isThere id = true
      ∨ s.nodeByAddr.isThere a.compact = true) := by
    rw [isThere_eq, isThere_eq, hNew, hNewAddr]
    simp [hid]
  unfold addNode
  rw [deref_eq hThere]
  show (if id.length ≠ 20 ∨ s.nodes.isThere id = true
    ∨ s.nodeByAddr.isThere a.compact = true then _ else _) = _
  rw [if_neg hPass]
  show (({ (s.makeNode id a).addId id s.nextNode with
    nodeByAddr := ((s.makeNode id a).addId id s.nextNode).nodeByAddr.add a.compact s.nextNode } :
      DHT).addRoute s.nextNode >>= _) = _
  rw [addId_eq (s := s.makeNode id a) hNew]
  rfl

/-- A node with a new id and a new address is added. -/
theorem addNode_rerouted (h : Inv s) (hid : id.length = 20) (hNew : s.nodes.value? id = none)
    (hNewAddr : s.nodeByAddr.value? a.compact = none) :
    Yields Never (fun s' => Keeps s s' ∧ Rerouted (s.inserted id a) s')
      ((s.makeNode id a).addNode s.nextNode) := by
  have hThere : (s.inserted id a).heap s.nextNode = some (Node.new id a) := if_pos rfl
  obtain ⟨hInv, hStale⟩ := h.insert (n := Node.new id a) hid rfl hNew hNewAddr
  rw [addNode_eq hid hNew hNewAddr]
  apply (addRoute_spec hInv.routes (live_of_heap hThere)).bind
  intro x hx
  exact ⟨hx.keeps hInv hStale, hx.rerouted⟩

theorem addNode_spec (h : Inv s) (hid : id.length = 20) (hNew : s.nodes.value? id = none)
    (hNewAddr : s.nodeByAddr.value? a.compact = none) :
    Yields Never (fun s' => Keeps s s' ∧ s'.Live s.nextNode)
      ((s.makeNode id a).addNode s.nextNode) := by
  have hThere : (s.inserted id a).heap s.nextNode = some (Node.new id a) := if_pos rfl
  exact (addNode_rerouted h hid hNew hNewAddr).imp fun _ hs =>
    ⟨hs.1, hs.2.live_iff.mpr (live_of_heap hThere)⟩

theorem creditOrigin_spec (h : Inv s) (hp : s.Live p) :
    Yields Never (Touched s) (s.creditOrigin p) := by
  obtain ⟨n, hn⟩ := hp.exists
  apply (getOrigin_spec h.index hn).bind
  intro origin hOrigin
  cases origin with
  | none => exact .refl s
  | some o =>
      obtain ⟨m, hm⟩ := (hOrigin o rfl).2.exists
      dsimp only
      rw [deref_eq hm]
      exact touched_store hm rfl

/-- Hearing of a node touches its record and that of its origin. -/
theorem heardFrom_spec (h : Inv s) (hp : s.Live p) (responded : Bool) :
    Yields Never (Keeps s) (s.heardFrom p responded) := by
  obtain ⟨n, hn⟩ := hp.exists
  unfold heardFrom
  rw [deref_eq hn]
  apply Yields.ite
  · intro _
    have hTouched : Touched s (s.store p { n with responded := true, pingLostCount := 0 }) :=
      touched_store hn rfl
    have hInv := (hTouched.keeps h).inv
    apply (creditOrigin_spec hInv (hTouched.live hp)).bind
    intro t ht
    obtain ⟨m, hm⟩ := (ht.live (hTouched.live hp)).exists
    rw [deref_eq hm]
    have hGood : Touched t (t.store p { m with good := true }) := touched_store hm rfl
    exact (hTouched.trans (ht.trans hGood)).keeps h
  · intro _
    have hGood : Touched s (s.store p { n with good := true }) := touched_store hn rfl
    show Keeps s (if n.responded = true then _ else _)
    split
    · exact hGood.keeps h
    · exact .refl h

/-- What `FoundNode` does with an address and an id that it accepts. -/
theorem foundNode_spec (h : Inv s) (hid : id.length = 20) (depth : Nat) (a : SockAddr)
    (responded : Bool) : Yields Unfinished (Keeps s) (s.foundNode depth id a responded) := by
  apply Yields.ite
  · intro _
    exact .refl h
  · intro _
    cases hFound : s.nodes.value? id with
    | some p =>
        obtain ⟨n, hn, -⟩ := (h.index.byId id p).mp hFound
        have hp := live_of_heap hn
        apply (addRoute_spec h.routes hp).total.bind
        intro x hx
        have hKeeps := hx.keeps h fun _ hStale => hStale
        have hHeard := heardFrom_spec hKeeps.inv (hx.rerouted.live_iff.mpr hp) responded
        exact hHeard.total.imp fun _ => hKeeps.trans
    | none =>
        dsimp only
        cases hByAddr : s.nodeByAddr.value? a.compact with
        | some p =>
            obtain ⟨n, hn, -⟩ := (h.index.byAddr a.compact p).mp hByAddr
            have hp := live_of_heap hn
            apply Yields.ite
            · intro _
              exact .refl h
            · intro _
              rw [deref_eq hn]
              apply Yields.ite
              · intro _
                exact blackListNode_spec h hp depth
              · intro _
                apply (changeNodeId_spec h hp hid hFound).total.bind
                rintro t ⟨hKeeps, hLive⟩
                exact (heardFrom_spec hKeeps.inv hLive responded).total.imp fun _ => hKeeps.trans
        | none =>
            apply (addNode_spec h hid hFound hByAddr).total.bind
            rintro t ⟨hKeeps, hLive⟩
            exact (heardFrom_spec hKeeps.inv hLive responded).total.imp fun _ => hKeeps.trans

end Lftp.Ports.DHT
