import Lftp.Ports.Bencode
import Lftp.Ports.DHTRuns
import Lftp.Ports.TorrentPath
import Lftp.Verified.BigEndian
import Lftp.Verified.Segments

/-!
# The saved state of the DHT

`Save` writes the own id and the nodes that are good or in the routing table, as one
bencoded dictionary; `Load` parses it, restarts with the id and calls `FoundNode` for
every record. The timers of the buckets are not touched here.

* `Known` is the invariant that `FoundNode` gives: every known address is one it takes.
* `Loading` is the invariant of the loop in `Load`.
* `loadText_spec` says what a new table holds afterwards.
-/

namespace Lftp.Ports.DHT

open Lftp.Verified
open Lftp.Ports.Bencode Lftp.Ports.Bencode.BeNode
open Lftp.Ports.TorrentPath (lookupStr)

variable {s s' t u : DHT} {p q : Nat} {n m : Node} {id : Bytes} {a : SockAddr} {f : Family}

/-! ## Saving and loading -/

theorem be_lt_of_length {c : Bytes} (h : c.length = 2) : be c < 2 ^ 16 := by
  have hLess := be_lt c
  rw [h] at hLess
  exact hLess

/-- `set_compact`; `none` when the length is that of no address. -/
def setCompact (c : Bytes) : Option SockAddr :=
  if h : c.length = 4 then some ⟨.inet, c, 0, h, by decide⟩
  else if h : c.length = 16 then some ⟨.inet6, c, 0, h, by decide⟩
  else if h : c.length = 6 then
    some ⟨.inet, c.take 4, be (c.drop 4), by rw [List.length_take, h]; rfl,
      be_lt_of_length (by rw [List.length_drop, h])⟩
  else if h : c.length = 18 then
    some ⟨.inet6, c.take 16, be (c.drop 16), by rw [List.length_take, h]; rfl,
      be_lt_of_length (by rw [List.length_drop, h])⟩
  else none

/-- `addr_len`. -/
def Family.addrLen : Family → Nat
  | .inet => 6
  | .inet6 => 18

/-- The loop of `Save`: the nodes that are written. -/
def savedNodes (s : DHT) : List Nat → Except Crash (List Node)
  | [] => .ok []
  | p :: ps => do
    let n ← s.deref p
    let ns ← s.savedNodes ps
    .ok (if n.good || n.inRoutes then n :: ns else ns)

/-- `Save`: the text of the state. -/
def save (s : DHT) : Except Crash Bytes := do
  let ns ← s.savedNodes s.eachNode
  let compactNodes := ns.flatMap fun n => n.id ++ n.addr.compact
  .ok (pack (.dict [] ((bytes "id", .str s.nodeId)
    :: if compactNodes = [] then [] else [(bytes "nodes", .str compactNodes)])))

/-- The nodes in a saved state, as the loop of `Load` cuts them out. -/
def savedIn (f : Family) (data : Bytes) : List (Bytes × SockAddr) :=
  (records (20 + f.addrLen) data).filterMap fun r =>
    (setCompact (r.drop 20)).map fun a => (r.take 20, a)

/-- `Load` of a text. -/
def loadText (depth : Nat) (s : DHT) (buf : Bytes) : Except Crash DHT :=
  match (parse buf).1 with
  | some (.dict raw d) =>
    s.load depth ((lookupStr "id" (.dict raw d)).getD [])
      (savedIn s.af ((lookupStr "nodes" (.dict raw d)).getD []))
  | _ => .ok s

/-! ## Known addresses -/

/-- What `FoundNode` asks of an address. -/
structure Takes (f : Family) (a : SockAddr) : Prop where
  port : a.port ≠ 0
  notPrivate : a.isPrivate = false
  notReserved : a.isReserved = false
  notMulticast : a.isMulticast = false
  family : a.family = f

theorem accepts_iff :
    s.accepts id a = true ↔ Takes s.af a ∧ id ≠ s.nodeId ∧ a ∉ s.blackList := by
  have hList : (!s.blackList.contains a) = true ↔ a ∉ s.blackList := by simp
  unfold accepts
  rw [Bool.and_eq_true, hList]
  simp only [Bool.and_eq_true, Bool.not_eq_true', Bool.or_eq_false_iff, decide_eq_true_eq,
    decide_eq_false_iff_not]
  constructor
  · rintro ⟨⟨⟨⟨⟨⟨hPort, hPrivate⟩, hReserved⟩, hMulticast⟩, hFamily⟩, hId⟩, hBlack⟩
    exact ⟨⟨hPort, hPrivate, hReserved, hMulticast, hFamily⟩, hId, hBlack⟩
  · rintro ⟨h, hId, hBlack⟩
    exact ⟨⟨⟨⟨⟨⟨h.port, h.notPrivate⟩, h.notReserved⟩, h.notMulticast⟩, h.family⟩, hId⟩, hBlack⟩

/-- The known nodes have addresses that `FoundNode` takes. -/
structure Known (f : Family) (s : DHT) : Prop where
  af : s.af = f
  takes : ∀ p n, s.heap p = some n → Takes f n.addr

/-- Whatever error. -/
def Any (_ : Crash) : Prop := True

theorem Known.of_heap (h : Known f s) (hAf : t.af = s.af) (hHeap : t.heap = s.heap) :
    Known f t :=
  ⟨hAf.trans h.af, fun p n hn => h.takes p n (hHeap ▸ hn)⟩

theorem Known.store (h : Known f s) (hn : Takes f n.addr) (p : Nat) : Known f (s.store p n) := by
  refine ⟨h.af, fun q m hm => ?_⟩
  by_cases hq : q = p
  · have hSelf : (s.store p n).heap q = some n := if_pos hq
    cases hSelf.symm.trans hm
    exact hn
  · exact h.takes q m ((heap_store_of_ne s n hq).symm.trans hm)

theorem Known.free (h : Known f s) (p : Nat) : Known f (s.free p) := by
  refine ⟨h.af, fun q m hm => ?_⟩
  by_cases hq : q = p
  · have hNone : (s.free p).heap q = none := if_pos hq
    cases hNone.symm.trans hm
  · have hSame : (s.free p).heap q = s.heap q := if_neg hq
    exact h.takes q m (hSame.symm.trans hm)

theorem Known.deref (h : Known f s) (p : Nat) : Yields Any (fun n => Takes f n.addr) (s.deref p) := by
  unfold DHT.deref
  split
  · rename_i hn
    exact h.takes p _ hn
  · trivial

/-! Each function keeps the known addresses, whatever else it does. -/

theorem Known.removeAt (h : Known f s) (i j : Nat) : Yields Any (Known f) (s.removeAt i j) := by
  unfold DHT.removeAt
  split
  · trivial
  · rename_i p _
    apply (h.deref p).bind
    intro n hn
    exact (h.store (n := { n with inRoutes := false }) hn p).of_heap rfl rfl

theorem Known.removeFrom (h : Known f s) (i p : Nat) : Yields Any (Known f) (s.removeFrom i p) := by
  unfold DHT.removeFrom
  split
  · exact h
  · exact h.removeAt i _

theorem Known.removeRoute (h : Known f s) (p : Nat) : Yields Any (Known f) (s.removeRoute p) := by
  apply (h.deref p).bind
  intro n _
  split
  · exact h
  · exact h.removeFrom _ p

theorem yields_any {α : Type} (x : Except Crash α) : Yields Any (fun _ => True) x := by
  cases x with
  | ok => trivial
  | error => trivial

theorem Known.evictIf (h : Known f s) (cond : Bool) (i : Nat) (test : Node → Bool) :
    Yields Any (Known f) (s.evictIf cond i test) := by
  apply Yields.ite
  · intro _
    apply (yields_any _).bind
    intro found _
    cases found with
    | none => exact h
    | some j => exact h.removeAt i j
  · exact fun _ => h

theorem Known.makeRoom (h : Known f s) (i : Nat) (n : Node) :
    Yields Any (Known f) (s.makeRoom i n) := by
  apply (h.evictIf _ i _).bind
  intro t ht
  apply (ht.evictIf _ i _).bind
  intro u hu
  exact hu.evictIf _ i _

theorem Known.append (h : Known f s) (i p : Nat) : Yields Any (Known f) (s.append i p) := by
  apply (h.deref p).bind
  intro n hn
  exact (h.store (n := { n with inRoutes := true }) hn p).of_heap rfl rfl

theorem Known.splitRoute0 (h : Known f s) :
    Yields Any (fun x => ∀ t ∈ x, Known f t) s.splitRoute0 := by
  unfold DHT.splitRoute0
  split
  · trivial
  · apply (yields_any _).bind
    intro keeps _
    apply Yields.ite
    · rintro - _ ⟨⟩
    · intro _
      apply (yields_any _).bind
      intro b1 _
      apply (yields_any _).bind
      intro b2 _
      apply (yields_any _).bind
      intro ns _
      dsimp only
      split
      all_goals
        apply Yields.ite
        · rintro - _ ⟨⟩
          exact h.of_heap rfl rfl
        · exact fun _ => trivial

theorem Known.splitIf (h : Known f s) (cond : Bool) :
    Yields Any (fun x => ∀ t ∈ x, Known f t) (s.splitIf cond) := by
  apply Yields.ite
  · exact fun _ => h.splitRoute0
  · rintro - _ ⟨⟩

/-- The state in what a turn of `AddRoute` returns. -/
def turnState : DHT ⊕ DHT × Bool → DHT
  | .inl s => s
  | .inr x => x.1

theorem Known.placeFull (h : Known f s) (i p : Nat) :
    Yields Any (fun x => Known f (turnState x)) (s.placeFull i p) := by
  apply (yields_any _).bind
  intro q _
  apply Yields.ite
  · intro _
    apply (h.splitIf _).bind
    intro split hSplit
    cases split with
    | none => exact h
    | some t => exact hSplit t rfl
  · intro _
    apply (h.append i p).bind
    exact fun t ht => ht

theorem Known.place (h : Known f s) (i p : Nat) :
    Yields Any (fun x => Known f (turnState x)) (s.place i p) := by
  apply (h.splitIf _).bind
  intro split hSplit
  cases split with
  | some t => exact hSplit t rfl
  | none =>
      apply Yields.ite
      · exact fun _ => h.placeFull i p
      · intro _
        apply (h.append i p).bind
        exact fun t ht => ht

theorem Known.routeFor (h : Known f s) (id : Bytes) :
    Yields Any (fun x => Known f x.1) (s.routeFor id) := by
  unfold DHT.routeFor
  split
  · exact h
  · split
    · apply (yields_any _).bind
      exact fun r _ => h.of_heap rfl rfl
    · trivial

theorem Known.moveStable (h : Known f s) (i j p : Nat) : Known f (s.moveStable i j p) := by
  unfold DHT.moveStable
  split
  · exact h.of_heap rfl rfl
  · exact h

theorem Known.addRouteTurn (h : Known f s) (p : Nat) :
    Yields Any (fun x => Known f (turnState x)) (s.addRouteTurn p) := by
  apply (h.deref p).bind
  intro n _
  apply (h.routeFor n.id).bind
  rintro ⟨t, i⟩ ht
  dsimp only
  split
  · exact ht.moveStable i _ p
  · apply (ht.makeRoom i n).bind
    exact fun u hu => hu.place i p

theorem Known.addRoute (h : Known f s) (p : Nat) :
    Yields Any (fun x => Known f x.1) (s.addRoute p) := by
  refine Yields.loopOr_partial (I := Known f) trivial (fun t ht => ?_) h 161
  refine (ht.addRouteTurn p).imp fun x hx => ?_
  cases x with
  | inl u => exact hx
  | inr u => exact hx

theorem Known.removeId (h : Known f s) (id : Bytes) : Known f (s.removeId id) := by
  unfold DHT.removeId
  split
  · exact (h.free _).of_heap rfl rfl
  · exact h

theorem Known.addId (h : Known f s) (id : Bytes) (p : Nat) : Known f (s.addId id p) := by
  unfold DHT.addId
  split
  · exact (h.free _).of_heap rfl rfl
  · exact h.of_heap rfl rfl

theorem Known.dropNode (h : Known f s) (p : Nat) : Yields Any (Known f) (s.dropNode p) := by
  apply (h.removeRoute p).bind
  intro t ht
  apply (ht.deref p).bind
  intro n _
  have hByAddr : Known f { t with nodeByAddr := t.nodeByAddr.remove n.addr.compact } :=
    ht.of_heap rfl rfl
  exact hByAddr.removeId n.id

theorem Known.blame (h : Known f s) (p : Nat) :
    Yields Any (fun x => Known f x.1) (s.blame p) := by
  apply (h.deref p).bind
  intro n _
  apply (yields_any _).bind
  intro origin _
  cases origin with
  | none => exact h
  | some o =>
      apply Yields.ite
      · intro _
        apply (h.deref o).bind
        intro m hm
        exact h.store (n := { m with badNodeCount := m.badNodeCount + 1 }) hm o
      · exact fun _ => h

theorem Known.removeNode (h : Known f s) (depth p : Nat) :
    Yields Any (Known f) (removeNode depth s p) := by
  induction depth generalizing s p with
  | zero => trivial
  | succ depth ih =>
      apply (h.blame p).bind
      rintro ⟨t, origin⟩ ht
      cases origin with
      | none => exact ht.dropNode p
      | some o =>
          apply (ht.deref o).bind
          intro m _
          have hBlack : Known f (t.blackListAdd m.addr) := ht.of_heap rfl rfl
          exact (ih hBlack o).bind fun u hu => hu.dropNode p

theorem Known.blackListNode (h : Known f s) (depth p : Nat) :
    Yields Any (Known f) (blackListNode depth s p) := by
  apply (h.deref p).bind
  intro n _
  have hBlack : Known f (s.blackListAdd n.addr) := h.of_heap rfl rfl
  exact hBlack.removeNode depth p

theorem Known.changeNodeId (h : Known f s) (p : Nat) (id : Bytes) :
    Yields Any (Known f) (s.changeNodeId p id) := by
  apply (h.deref p).bind
  intro n hn
  have hCounted := h.store (n := { n with idChangeCount := n.idChangeCount + 1 }) hn p
  apply (hCounted.removeRoute p).bind
  intro t ht
  apply (ht.deref p).bind
  intro m hm
  have hRemoved : Known f { t with nodes := t.nodes.remove m.id } := ht.of_heap rfl rfl
  have hStored := hRemoved.store (n := { m with id := id }) hm p
  exact ((hStored.addId id p).addRoute p).bind fun x hx => hx

theorem Known.makeNode (h : Known f s) (ha : Takes f a) (id : Bytes) :
    Known f (s.makeNode id a) :=
  (h.store (n := Node.new id a) ha s.nextNode).of_heap rfl rfl

theorem Known.addNode (h : Known f s) (p : Nat) : Yields Any (Known f) (s.addNode p) := by
  apply (h.deref p).bind
  intro n _
  apply Yields.ite
  · exact fun _ => trivial
  · intro _
    have hByAddr : Known f { s.addId n.id p with
        nodeByAddr := (s.addId n.id p).nodeByAddr.add n.addr.compact p } :=
      (h.addId n.id p).of_heap rfl rfl
    exact (hByAddr.addRoute p).bind fun x hx => hx

theorem Known.creditOrigin (h : Known f s) (p : Nat) :
    Yields Any (Known f) (s.creditOrigin p) := by
  apply (yields_any _).bind
  intro origin _
  cases origin with
  | none => exact h
  | some o =>
      apply (h.deref o).bind
      intro m hm
      exact h.store (n := { m with badNodeCount := m.badNodeCount / 2 }) hm o

theorem Known.heardFrom (h : Known f s) (p : Nat) (responded : Bool) :
    Yields Any (Known f) (s.heardFrom p responded) := by
  apply (h.deref p).bind
  intro n hn
  apply Yields.ite
  · intro _
    have hStored := h.store (n := { n with responded := true, pingLostCount := 0 }) hn p
    apply (hStored.creditOrigin p).bind
    intro t ht
    apply (ht.deref p).bind
    intro m hm
    exact ht.store (n := { m with good := true }) hm p
  · intro _
    show Known f (if n.responded = true then _ else _)
    split
    · exact h.store (n := { n with good := true }) hn p
    · exact h

theorem Known.foundNode (h : Known f s) (depth : Nat) (id : Bytes) (a : SockAddr)
    (responded : Bool) : Yields Any (Known f) (foundNode depth s id a responded) := by
  by_cases hAccepts : s.accepts id a = true
  · have hTakes : Takes f a := h.af ▸ (accepts_iff.mp hAccepts).1
    unfold DHT.foundNode
    rw [hAccepts]
    rw [Bool.not_true, if_neg Bool.false_ne_true]
    split
    · rename_i p _
      apply (h.addRoute p).bind
      exact fun x hx => hx.heardFrom p responded
    · split
      · rename_i p _
        apply Yields.ite
        · exact fun _ => h
        · intro _
          apply (h.deref p).bind
          intro n _
          apply Yields.ite
          · exact fun _ => h.blackListNode depth p
          · intro _
            apply (h.changeNodeId p id).bind
            exact fun t ht => ht.heardFrom p responded
      · apply ((h.makeNode hTakes id).addNode s.nextNode).bind
        exact fun t ht => ht.heardFrom s.nextNode responded
  · unfold DHT.foundNode
    rw [Bool.not_eq_true] at hAccepts
    rw [hAccepts]
    exact h

theorem Known.restart (h : Known f s) (id : Bytes) : Yields Any (Known f) (s.restart id) := by
  refine Yields.foldlM (I := fun _ => Known f) (fun p l t ht => ?_) (h.of_heap rfl rfl)
  apply (ht.deref p).bind
  intro n _
  apply Yields.ite
  · intro _
    exact (ht.addRoute p).bind fun x hx => hx
  · exact fun _ => ht

theorem Known.load (h : Known f s) (depth : Nat) (id : Bytes) (saved : List (Bytes × SockAddr)) :
    Yields Any (Known f) (load depth s id saved) := by
  have hFound : ∀ {t : DHT}, Known f t →
      Yields Any (Known f) (saved.foldlM (fun s x => s.foundNode depth x.1 x.2 false) t) :=
    fun ht => Yields.foldlM (I := fun _ => Known f)
      (fun x l u hu => hu.foundNode depth x.1 x.2 false) ht
  unfold DHT.load
  by_cases hid : id.length = 20
  · rw [if_pos hid]
    exact (h.restart id).bind fun t ht => hFound ht
  · rw [if_neg hid]
    exact hFound h

theorem Known.trim (h : Known f s) (i : Nat) : Yields Any (Known f) (s.trim i) := by
  apply Yields.ite
  · intro _
    apply (yields_any _).bind
    intro q _
    apply Yields.ite
    · exact fun _ => h.removeAt i K
    · exact fun _ => h
  · exact fun _ => h

theorem Known.act (h : Known f s) {ev : Event} (hAdd : ∀ id a, ev = .addNode id a → Takes f a)
    (depth : Nat) : Yields Any (Known f) (s.act depth ev) := by
  cases ev with
  | foundNode id a responded => exact h.foundNode depth id a responded
  | addNode id a => exact (h.makeNode (hAdd id a rfl) id).addNode s.nextNode
  | changeNodeId p id => exact h.changeNodeId p id
  | addRoute p => exact (h.addRoute p).bind fun x hx => hx
  | removeRoute p => exact h.removeRoute p
  | splitRoute0 =>
      apply h.splitRoute0.bind
      intro split hSplit
      cases split with
      | none => exact h
      | some t => exact hSplit t rfl
  | removeNode p => exact h.removeNode depth p
  | blackListNode p => exact h.blackListNode depth p
  | restart id => exact h.restart id
  | load id saved => exact h.load depth id saved
  | trim i => exact h.trim i
  | goodTimerStops p =>
      apply (h.deref p).bind
      intro n hn
      exact h.store (n := { n with good := false }) hn p
  | lostPing p =>
      apply (h.deref p).bind
      intro n hn
      exact h.store (n := { n with pingLostCount := n.pingLostCount + 1 }) hn p
  | setOrigin p o =>
      apply (h.deref p).bind
      intro n hn
      apply (h.deref o).bind
      intro m _
      exact h.store (n := { n with originId := m.id }) hn p
  | blackList a => exact h.of_heap rfl rfl
  | delist a => exact h.of_heap rfl rfl
  | stateIo b => exact h.of_heap rfl rfl

/-- A step in which `AddNode` gets what its caller `FoundNode` takes. -/
def FoundStep (s : DHT) (ev : Event) (s' : DHT) : Prop :=
  Step s ev s' ∧ ∀ id a, ev = .addNode id a → Takes s.af a

theorem reach_known (h : Reach Init FoundStep s) : Inv s ∧ Known s.af s := by
  refine ⟨reach_inv (h.mono fun _ _ _ hStep => hStep.1), ?_⟩
  refine h.invariant (I := fun s => Known s.af s) ?_ ?_
  · rintro _ ⟨af, id, -, rfl⟩
    exact ⟨rfl, fun p n hn => nomatch hn⟩
  · rintro t ev t' ht ⟨⟨-, depth, hAct⟩, hAdd⟩
    have hKnown := ht.act hAdd depth
    rw [hAct] at hKnown
    have hSame : t'.af = t.af := Known.af hKnown
    rw [hSame]
    exact hKnown

/-! ## What is saved -/

/-- The nodes that `Save` writes. -/
def written (s : DHT) : List Node :=
  (s.eachNode.filterMap s.heap).filter fun n => n.good || n.inRoutes

theorem mem_written (h : IndexOk s) :
    n ∈ s.written ↔ (∃ p, s.heap p = some n) ∧ (n.good || n.inRoutes) = true := by
  unfold written
  rw [List.mem_filter, List.mem_filterMap]
  constructor
  · rintro ⟨⟨p, -, hn⟩, hGood⟩
    exact ⟨⟨p, hn⟩, hGood⟩
  · rintro ⟨⟨p, hn⟩, hGood⟩
    exact ⟨⟨p, h.mem_eachNode.mpr (live_of_heap hn), hn⟩, hGood⟩

theorem IndexOk.nodup_eachNode (h : IndexOk s) : s.eachNode.Nodup := by
  obtain ⟨m, hm⟩ := h.validNodes.exists_refines
  have hKeys : XMap.HasKeys s.nodes m.keys := ⟨m, hm, rfl⟩
  refine hKeys.loopKeys.1.filterMap fun k k' p hk hk' => ?_
  obtain ⟨n, hn, rfl⟩ := (h.byId k p).mp hk
  obtain ⟨n', hn', rfl⟩ := (h.byId k' p).mp hk'
  cases hn.symm.trans hn'
  rfl

/-- No two of them share an id or an address. -/
theorem pairwise_written (h : IndexOk s) :
    s.written.Pairwise fun n m => n.id ≠ m.id ∧ n.addr.compact ≠ m.addr.compact := by
  unfold written
  apply List.Pairwise.filter
  rw [List.pairwise_filterMap]
  refine h.nodup_eachNode.imp fun {p q} hNe n hn m hm => ?_
  exact ⟨fun hId => hNe (h.byId.unique hn hm hId), fun hAddr => hNe (h.byAddr.unique hn hm hAddr)⟩

theorem savedNodes_eq {ps : List Nat} (h : ∀ p ∈ ps, s.Live p) :
    s.savedNodes ps = .ok ((ps.filterMap s.heap).filter fun n => n.good || n.inRoutes) := by
  induction ps with
  | nil => rfl
  | cons p ps ih =>
      obtain ⟨n, hn⟩ := (h p List.mem_cons_self).exists
      rw [savedNodes, deref_eq hn, ih fun q hq => h q (List.mem_cons_of_mem p hq),
        List.filterMap_cons, hn, List.filter_cons]
      rfl

/-- A node as a record of the state. -/
def Node.record (n : Node) : Bytes := n.id ++ n.addr.compact

/-- The state as a tree. -/
def stateNode (s : DHT) : BeNode :=
  .dict [] ((bytes "id", .str s.nodeId) :: if s.written.flatMap Node.record = [] then []
    else [(bytes "nodes", .str (s.written.flatMap Node.record))])

theorem save_eq (h : IndexOk s) : s.save = .ok (pack s.stateNode) := by
  unfold save
  rw [savedNodes_eq fun p hp => h.mem_eachNode.mp hp]
  rfl

theorem wellKeyed_stateNode (s : DHT) : WellKeyed s.stateNode := by
  unfold stateNode
  split
  · refine .dict (List.nodup_singleton _) fun e he => ?_
    rw [List.mem_singleton.mp he]
    exact .str _
  · have hKeys : [bytes "id", bytes "nodes"].Nodup := by decide
    refine .dict hKeys fun e he => ?_
    rcases List.mem_cons.mp he with rfl | he
    · exact .str _
    · rw [List.mem_singleton.mp he]
      exact .str _

theorem lookupStr_stateNode (s : DHT) :
    lookupStr "id" s.stateNode = some s.nodeId
      ∧ (lookupStr "nodes" s.stateNode).getD [] = s.written.flatMap Node.record := by
  unfold stateNode
  split
  · rename_i hNil
    rw [hNil]
    exact ⟨rfl, rfl⟩
  · exact ⟨rfl, rfl⟩

/-- Strings are found alike in trees that are the same. -/
theorem lookupStr_same {t t' : BeNode} (h : Same t t') (key : String) :
    lookupStr key t = lookupStr key t' := by
  cases h with
  | str => rfl
  | int => rfl
  | list => rfl
  | @dict raw raw' d d' hKeys hValues =>
      have hSome := hKeys (bytes key)
      unfold lookupStr
      dsimp only [TorrentPath.lookup]
      cases hd : d.lookup (bytes key) with
      | none =>
          cases hd' : d'.lookup (bytes key) with
          | none => rfl
          | some v' =>
              rw [hd, hd'] at hSome
              cases hSome
      | some v =>
          cases hd' : d'.lookup (bytes key) with
          | none =>
              rw [hd, hd'] at hSome
              cases hSome
          | some v' =>
              have hSame := hValues _ v v' hd hd'
              cases hSame with
              | str => rfl
              | int => rfl
              | list => rfl
              | dict => rfl

/-! ## What is read back -/

theorem length_compact (h : Takes f a) : a.compact.length = f.addrLen := by
  unfold SockAddr.compact
  rw [if_neg h.port, List.length_append, a.length_addr, h.family]
  cases f with
  | inet => rfl
  | inet6 => rfl

/-- `set_compact` of an address with the two bytes of its port. -/
theorem setCompact_port (a : SockAddr) :
    setCompact (a.addr ++ [UInt8.ofNat (a.port / 256), UInt8.ofNat (a.port % 256)]) = some a := by
  obtain ⟨family, addr, port, hLength, hPort⟩ := a
  have hPorts : be [UInt8.ofNat (port / 256), UInt8.ofNat (port % 256)] = port := by
    show (0 * 256 + (UInt8.ofNat (port / 256)).toNat) * 256 + (UInt8.ofNat (port % 256)).toNat = port
    rw [UInt8.toNat_ofNat', UInt8.toNat_ofNat']
    omega
  have hAll : (addr ++ [UInt8.ofNat (port / 256), UInt8.ofNat (port % 256)]).length
      = family.length + 2 := by
    rw [List.length_append, hLength]
    rfl
  unfold setCompact
  cases family with
  | inet =>
      have hFour : addr.length = 4 := hLength
      have hSix : _ = 6 := hAll
      rw [dif_neg (by rw [hSix]; decide), dif_neg (by rw [hSix]; decide), dif_pos hSix]
      simp only [List.take_left' hFour, List.drop_left' hFour, hPorts]
  | inet6 =>
      have hSixteen : addr.length = 16 := hLength
      have hEighteen : _ = 18 := hAll
      rw [dif_neg (by rw [hEighteen]; decide), dif_neg (by rw [hEighteen]; decide),
        dif_neg (by rw [hEighteen]; decide), dif_pos hEighteen]
      simp only [List.take_left' hSixteen, List.drop_left' hSixteen, hPorts]

/-- `set_compact` undoes `compact`, when there is a port. -/
theorem setCompact_compact (h : a.port ≠ 0) : setCompact a.compact = some a := by
  unfold SockAddr.compact
  rw [if_neg h]
  exact setCompact_port a

/-- The records of the state are cut out of it again. -/
theorem savedIn_records {ns : List Node} (h : ∀ n ∈ ns, n.id.length = 20 ∧ Takes f n.addr) :
    savedIn f (ns.flatMap Node.record) = ns.map Node.keys := by
  have hLength : ∀ r ∈ ns.map Node.record, r.length = 20 + f.addrLen := by
    intro r hr
    obtain ⟨n, hn, rfl⟩ := List.mem_map.mp hr
    obtain ⟨hId, hTakes⟩ := h n hn
    rw [Node.record, List.length_append, hId, length_compact hTakes]
  rw [savedIn, List.flatMap_def, records_flatten (by omega) hLength, List.filterMap_map]
  rw [← List.filterMap_eq_map]
  apply List.filterMap_congr
  intro n hn
  obtain ⟨hId, hTakes⟩ := h n hn
  show (setCompact ((n.id ++ n.addr.compact).drop 20)).map _ = _
  rw [List.drop_left' hId, setCompact_compact hTakes.port]
  show some ((n.id ++ n.addr.compact).take 20, n.addr) = some (n.id, n.addr)
  rw [List.take_left' hId]

/-! ## Loading into a new table -/

/-- The keys of the known nodes. -/
def Has (s : DHT) (x : Bytes × SockAddr) : Prop := ∃ p n, s.heap p = some n ∧ n.keys = x

theorem Rerouted.has_iff (h : Rerouted s s') (x : Bytes × SockAddr) : s'.Has x ↔ s.Has x := by
  have hForth : ∀ {s s' : DHT}, Rerouted s s' → s.Has x → s'.Has x := by
    rintro s s' h ⟨p, n, hn, hKeys⟩
    obtain ⟨n', hn', hSame⟩ := h.record hn
    have hSameKeys : n'.unrouted.keys = n.unrouted.keys := congrArg Node.keys hSame
    exact ⟨p, n', hn', hSameKeys.trans hKeys⟩
  exact ⟨hForth h.symm, hForth h⟩

theorem has_inserted (h : IndexOk s) (id : Bytes) (a : SockAddr) (x : Bytes × SockAddr) :
    (s.inserted id a).Has x ↔ s.Has x ∨ x = (id, a) := by
  have hFree := h.fresh s.nextNode (Nat.le_refl _)
  constructor
  · rintro ⟨p, n, hn, hKeys⟩
    by_cases hp : p = s.nextNode
    · have hNew : (s.inserted id a).heap p = some (Node.new id a) := if_pos hp
      cases hNew.symm.trans hn
      exact .inr hKeys.symm
    · have hOld : (s.inserted id a).heap p = s.heap p := if_neg hp
      exact .inl ⟨p, n, hOld.symm.trans hn, hKeys⟩
  · rintro (⟨p, n, hn, hKeys⟩ | rfl)
    · have hp : p ≠ s.nextNode := by
        rintro rfl
        rw [hFree] at hn
        cases hn
      have hOld : (s.inserted id a).heap p = s.heap p := if_neg hp
      exact ⟨p, n, hOld.trans hn, hKeys⟩
    · exact ⟨s.nextNode, Node.new id a, if_pos rfl, rfl⟩

/-- `FoundNode` for a node that is new in every respect adds it, and no more. -/
theorem foundNode_new (h : Inv s) (hid : id.length = 20) (hAccepts : s.accepts id a = true)
    (hNew : s.nodes.value? id = none) (hNewAddr : s.nodeByAddr.value? a.compact = none)
    (depth : Nat) :
    Yields Never (fun s' => Inv s' ∧ Rerouted (s.inserted id a) s')
      (s.foundNode depth id a false) := by
  unfold foundNode
  rw [hAccepts, Bool.not_true, if_neg Bool.false_ne_true, hNew]
  dsimp only
  rw [hNewAddr]
  apply (addNode_rerouted h hid hNew hNewAddr).bind
  rintro t ⟨hKeeps, hRerouted⟩
  have hThere : (s.inserted id a).heap s.nextNode = some (Node.new id a) := if_pos rfl
  obtain ⟨n, hn, hSame⟩ := hRerouted.record hThere
  have hResponded : n.responded = false := congrArg Node.responded hSame
  have hHeard : t.heardFrom s.nextNode false = .ok t := by
    unfold heardFrom
    rw [deref_eq hn]
    show (.ok (if n.responded = true then _ else t) : Except Crash DHT) = .ok t
    rw [hResponded]
    rfl
  rw [hHeard]
  exact ⟨hKeeps.inv, hRerouted⟩

/-- The loop of `Load`, when `done` has been found and `l` is to come. -/
structure Loading (f : Family) (id : Bytes) (saved l : List (Bytes × SockAddr)) (u : DHT) :
    Prop where
  inv : Inv u
  af : u.af = f
  nodeId : u.nodeId = id
  blackList : u.blackList = []
  split : ∃ done, saved = done ++ l ∧ ∀ x, u.Has x ↔ x ∈ done ∧ x.1 ≠ id

/-- What `Save` sees to in the records. -/
structure Storable (f : Family) (saved : List (Bytes × SockAddr)) : Prop where
  length : ∀ x ∈ saved, x.1.length = 20
  takes : ∀ x ∈ saved, Takes f x.2
  distinct : saved.Pairwise fun x y => x.1 ≠ y.1 ∧ x.2.compact ≠ y.2.compact

theorem Loading.step {saved l : List (Bytes × SockAddr)} {x : Bytes × SockAddr}
    (hSaved : Storable f saved) (h : Loading f id saved (x :: l) u) (depth : Nat) :
    Yields Never (Loading f id saved l) (u.foundNode depth x.1 x.2 false) := by
  obtain ⟨done, hSplit, hHas⟩ := h.split
  have hMem : x ∈ saved := by
    rw [hSplit]
    exact List.mem_append_right done List.mem_cons_self
  have hSplit' : saved = (done ++ [x]) ++ l := by
    rw [hSplit, List.append_assoc]
    rfl
  by_cases hOwn : x.1 = id
  · -- the own id is not taken
    have hAccepts : u.accepts x.1 x.2 = false := by
      rw [← Bool.not_eq_true, accepts_iff]
      rintro ⟨-, hId, -⟩
      exact hId (hOwn.trans h.nodeId.symm)
    unfold foundNode
    rw [hAccepts]
    refine ⟨h.inv, h.af, h.nodeId, h.blackList, done ++ [x], hSplit', fun y => ?_⟩
    rw [hHas, List.mem_append, List.mem_singleton]
    constructor
    · exact fun hy => ⟨.inl hy.1, hy.2⟩
    · rintro ⟨hy | rfl, hNe⟩
      · exact ⟨hy, hNe⟩
      · exact absurd hOwn hNe
  · have hAccepts : u.accepts x.1 x.2 = true := by
      rw [accepts_iff, h.af, h.nodeId, h.blackList]
      exact ⟨hSaved.takes x hMem, hOwn, List.not_mem_nil⟩
    have hDistinct : ∀ y ∈ done, y.1 ≠ x.1 ∧ y.2.compact ≠ x.2.compact := by
      have hPairwise := hSaved.distinct
      rw [hSplit, List.pairwise_append] at hPairwise
      exact fun y hy => hPairwise.2.2 y hy x List.mem_cons_self
    have hNew : u.nodes.value? x.1 = none := by
      rw [Option.eq_none_iff_forall_ne_some]
      intro p hp
      obtain ⟨n, hn, hId⟩ := (h.inv.index.byId x.1 p).mp hp
      exact (hDistinct _ ((hHas n.keys).mp ⟨p, n, hn, rfl⟩).1).1 hId
    have hNewAddr : u.nodeByAddr.value? x.2.compact = none := by
      rw [Option.eq_none_iff_forall_ne_some]
      intro p hp
      obtain ⟨n, hn, hAddr⟩ := (h.inv.index.byAddr x.2.compact p).mp hp
      exact (hDistinct _ ((hHas n.keys).mp ⟨p, n, hn, rfl⟩).1).2 hAddr
    refine (foundNode_new h.inv (hSaved.length x hMem) hAccepts hNew hNewAddr depth).imp ?_
    rintro t ⟨hInv, hRerouted⟩
    have hSame := hRerouted.same
    refine ⟨hInv, ?_, ?_, ?_, done ++ [x], hSplit', fun y => ?_⟩
    · rw [hSame]
      exact h.af
    · rw [hSame]
      exact h.nodeId
    · rw [hSame]
      exact h.blackList
    · rw [hRerouted.has_iff, has_inserted h.inv.index, hHas, List.mem_append, List.mem_singleton]
      constructor
      · rintro (hy | rfl)
        · exact ⟨.inl hy.1, hy.2⟩
        · exact ⟨.inr rfl, hOwn⟩
      · rintro ⟨hy | rfl, hNe⟩
        · exact .inl ⟨hy, hNe⟩
        · exact .inr rfl

/-- A table without nodes, loading or not. -/
def Fresh (f : Family) (t : DHT) : Prop :=
  ∃ own b, own.length = 20 ∧ t = { new f own with stateIo := b }

theorem restart_fresh (h : Fresh f t) (hid : id.length = 20) :
    Yields Never (fun u => Inv u ∧ u = { t with nodeId := id, routes := [] }) (t.restart id) := by
  obtain ⟨own, b, hOwn, rfl⟩ := h
  have hTouched : Touched (new f own) { new f own with stateIo := b } :=
    ⟨rfl, rfl, rfl, rfl, rfl, fun _ => rfl⟩
  have hInv := (hTouched.keeps (inv_new f hOwn)).inv
  have hNone : ({ new f own with stateIo := b } : DHT).eachNode = [] := by
    rw [List.eq_nil_iff_forall_not_mem]
    intro p hp
    obtain ⟨n, hn⟩ := (hInv.index.mem_eachNode.mp hp).exists
    cases hn
  unfold restart
  rw [hNone]
  exact ⟨hInv.cleared hid, rfl⟩

theorem load_fresh {saved : List (Bytes × SockAddr)} (h : Fresh f t) (hid : id.length = 20)
    (hSaved : Storable f saved) (depth : Nat) :
    Yields Never (fun u => u.nodeId = id ∧ ∀ x, u.Has x ↔ x ∈ saved ∧ x.1 ≠ id)
      (t.load depth id saved) := by
  unfold load
  rw [if_pos hid]
  apply (restart_fresh h hid).bind
  rintro u ⟨hInv, rfl⟩
  obtain ⟨own, b, -, rfl⟩ := h
  have hStart : Loading f id saved saved
      { ({ new f own with stateIo := b } : DHT) with nodeId := id, routes := [] } := by
    refine ⟨hInv, rfl, rfl, rfl, [], rfl, fun x => iff_of_false ?_ ?_⟩
    · rintro ⟨p, n, hn, -⟩
      cases hn
    · exact fun hx => List.not_mem_nil hx.1
  have hRun := Yields.foldlM (E := Never) (I := Loading f id saved)
    (f := fun s x => s.foundNode depth x.1 x.2 false)
    (fun x l u hu => Loading.step hSaved hu depth) hStart
  refine hRun.imp fun v hv => ⟨hv.nodeId, fun x => ?_⟩
  obtain ⟨done, hDone, hHas⟩ := hv.split
  rw [List.append_nil] at hDone
  rw [hDone]
  exact hHas x

/-! ## The round trip -/

theorem storable_written (hInv : Inv s) (hKnown : Known f s) :
    Storable f (s.written.map Node.keys) where
  length x hx := by
    obtain ⟨n, hn, rfl⟩ := List.mem_map.mp hx
    obtain ⟨⟨p, hp⟩, -⟩ := (mem_written hInv.index).mp hn
    exact hInv.routes.ids p n hp
  takes x hx := by
    obtain ⟨n, hn, rfl⟩ := List.mem_map.mp hx
    obtain ⟨⟨p, hp⟩, -⟩ := (mem_written hInv.index).mp hn
    exact hKnown.takes p n hp
  distinct := List.pairwise_map.mpr (pairwise_written hInv.index)

theorem parse_text {t : BeNode} (hKeys : WellKeyed t) (hSize : (pack t).length < 2 ^ 31) :
    ∃ t', (parse (pack t)).1 = some t' ∧ Same t t' := by
  have hParse := (parse_pack hKeys hSize []).1
  rw [List.append_nil] at hParse
  obtain ⟨t', hParse, hSame⟩ := hParse
  exact ⟨t', congrArg Prod.fst hParse, hSame⟩

/-- What a new table of the same family holds after loading a text of the state. -/
theorem loadText_spec (hInv : Inv s) (hKnown : Known f s) {buf : Bytes} {t' : BeNode}
    (hParse : (parse buf).1 = some t') (hSame : Same s.stateNode t') (hFresh : Fresh f t)
    (depth : Nat) :
    Yields Never (fun u => u.nodeId = s.nodeId
        ∧ ∀ x, u.Has x ↔ x ∈ s.written.map Node.keys ∧ x.1 ≠ s.nodeId)
      (t.loadText depth buf) := by
  have hStorable := storable_written hInv hKnown
  have hRecords : savedIn f (s.written.flatMap Node.record) = s.written.map Node.keys :=
    savedIn_records fun n hn => ⟨hStorable.length n.keys (List.mem_map_of_mem hn),
      hStorable.takes n.keys (List.mem_map_of_mem hn)⟩
  have hAf : t.af = f := by
    obtain ⟨own, b, -, rfl⟩ := hFresh
    rfl
  obtain ⟨hId, hNodes⟩ := lookupStr_stateNode s
  rw [lookupStr_same hSame] at hId hNodes
  unfold loadText
  rw [hParse]
  cases t' with
  | dict raw d =>
      show Yields _ _ (t.load depth ((lookupStr "id" (.dict raw d)).getD []) _)
      rw [hId, hNodes, hAf, hRecords]
      exact load_fresh hFresh hInv.routes.own hStorable depth
  | str => cases hSame
  | int => cases hSame
  | list => cases hSame

/-- A node is known by this id and this compact address. -/
def Knows (s : DHT) (id c : Bytes) : Prop :=
  ∃ p n, s.heap p = some n ∧ n.id = id ∧ n.addr.compact = c

/-- Such a node is saved. -/
def Saves (s : DHT) (id c : Bytes) : Prop :=
  ∃ p n, s.heap p = some n ∧ (n.good || n.inRoutes) = true ∧ n.id = id ∧ n.addr.compact = c

theorem knows_iff_saves (h : IndexOk s) {own : Bytes}
    (hHas : ∀ x, u.Has x ↔ x ∈ s.written.map Node.keys ∧ x.1 ≠ own) (id c : Bytes) :
    u.Knows id c ↔ s.Saves id c ∧ id ≠ own := by
  constructor
  · rintro ⟨p, n, hn, rfl, rfl⟩
    obtain ⟨hMem, hOwn⟩ := (hHas n.keys).mp ⟨p, n, hn, rfl⟩
    obtain ⟨m, hm, hKeys⟩ := List.mem_map.mp hMem
    obtain ⟨⟨q, hq⟩, hGood⟩ := (mem_written h).mp hm
    exact ⟨⟨q, m, hq, hGood, congrArg Prod.fst hKeys,
      congrArg (fun x : Bytes × SockAddr => x.2.compact) hKeys⟩, hOwn⟩
  · rintro ⟨⟨p, n, hn, hGood, rfl, rfl⟩, hOwn⟩
    obtain ⟨q, m, hm, hKeys⟩ := (hHas n.keys).mpr
      ⟨List.mem_map_of_mem ((mem_written h).mpr ⟨⟨p, hn⟩, hGood⟩), hOwn⟩
    exact ⟨q, m, hm, congrArg Prod.fst hKeys,
      congrArg (fun x : Bytes × SockAddr => x.2.compact) hKeys⟩

/-- Loading what was saved into a new table of the same family restores the own id
and the saved pairs, all but one with the own id: `FoundNode` takes none. -/
theorem load_save (h : Reach Init FoundStep s) (hFresh : Fresh s.af t) (depth : Nat) :
    ∃ buf, s.save = .ok buf ∧ (buf.length < 2 ^ 31 →
      ∃ u, t.loadText depth buf = .ok u ∧ u.nodeId = s.nodeId
        ∧ ∀ id c, u.Knows id c ↔ s.Saves id c ∧ id ≠ s.nodeId) := by
  obtain ⟨hInv, hKnown⟩ := reach_known h
  obtain ⟨buf, hBuf⟩ : ∃ buf, buf = pack s.stateNode := ⟨_, rfl⟩
  refine ⟨buf, hBuf ▸ save_eq hInv.index, fun hSize => ?_⟩
  obtain ⟨t', hParse, hSame⟩ : ∃ t', (parse buf).1 = some t' ∧ Same s.stateNode t' := by
    rw [hBuf] at hSize ⊢
    exact parse_text (wellKeyed_stateNode s) hSize
  obtain ⟨u, hLoad, hId, hHas⟩ := (loadText_spec hInv hKnown hParse hSame hFresh depth).exists
  exact ⟨u, hLoad, hId, knows_iff_saves hInv.index hHas⟩

theorem reach_oneGoodNode : Reach Init FoundStep oneGoodNode :=
  .next (.foundNode otherId someAddr true) (.start ⟨.inet, ownId, rfl, rfl⟩)
    ⟨⟨rfl, 0, rfl⟩, nofun⟩

theorem reach_restartedGood : Reach Init FoundStep restartedGood :=
  .next (.restart otherId) reach_oneGoodNode ⟨⟨rfl, 0, rfl⟩, nofun⟩

theorem size_oneGoodNode (s : DHT) (h : s = oneGoodNode ∨ s = restartedGood) :
    (pack s.stateNode).length < 2 ^ 31 := by
  rw [← computeLength_eq (wellKeyed_stateNode _)]
  rcases h with rfl | rfl
  · have hNode : oneGoodNode.stateNode
        = .dict [] [(bytes "id", .str ownId), (bytes "nodes", .str goodNode.record)] := rfl
    rw [hNode]
    decide
  · have hNode : restartedGood.stateNode
        = .dict [] [(bytes "id", .str otherId), (bytes "nodes", .str goodNode.record)] := rfl
    rw [hNode]
    decide

theorem load_save_oneGoodNode : ∃ buf u, oneGoodNode.save = .ok buf
    ∧ (new .inet ownId).loadText 0 buf = .ok u ∧ u.Knows otherId someAddr.compact := by
  have hFresh : Fresh oneGoodNode.af (new .inet ownId) := ⟨ownId, false, rfl, rfl⟩
  obtain ⟨buf, hSave, hLoads⟩ := load_save reach_oneGoodNode hFresh 0
  have hSize : buf.length < 2 ^ 31 := by
    rw [save_eq (reach_known reach_oneGoodNode).1.index] at hSave
    rw [← Except.ok.inj hSave]
    exact size_oneGoodNode _ (.inl rfl)
  obtain ⟨u, hLoad, -, hKnows⟩ := hLoads hSize
  refine ⟨buf, u, hSave, hLoad, (hKnows otherId someAddr.compact).mpr ⟨?_, by decide⟩⟩
  exact ⟨0, goodNode, rfl, rfl, rfl, rfl⟩

/-- A restart with the id of a known node makes that node one that is not loaded. -/
theorem not_load_save :
    ¬ ∀ s t depth, Reach Init FoundStep s → (∀ p n, s.heap p = some n → n.good = true) →
      Fresh s.af t → ∃ buf u, s.save = .ok buf ∧ t.loadText depth buf = .ok u
        ∧ u.nodeId = s.nodeId ∧ ∀ id c, u.Knows id c ↔ s.Saves id c := by
  intro h
  have hGood : ∀ p n, restartedGood.heap p = some n → n.good = true := by
    intro p n hn
    by_cases hp : p = 0
    · subst hp
      cases hn
      rfl
    · have hNone : restartedGood.heap p = none := by
        simp only [restartedGood, oneGoodNode, oneNode, store, new, if_neg hp]
      rw [hNone] at hn
      cases hn
  have hFresh : Fresh restartedGood.af (new .inet ownId) := ⟨ownId, false, rfl, rfl⟩
  obtain ⟨hInv, hKnown⟩ := reach_known reach_restartedGood
  obtain ⟨buf, u, hSave, hLoad, -, hKnows⟩ :=
    h restartedGood (new .inet ownId) 0 reach_restartedGood hGood hFresh
  rw [save_eq hInv.index] at hSave
  have hBuf := Except.ok.inj hSave
  obtain ⟨t', hParse, hSame⟩ : ∃ t', (parse buf).1 = some t' ∧ Same restartedGood.stateNode t' := by
    rw [← hBuf]
    exact parse_text (wellKeyed_stateNode _) (size_oneGoodNode _ (.inr rfl))
  obtain ⟨v, hLoad', -, hHas⟩ := (loadText_spec hInv hKnown hParse hSame hFresh 0).exists
  cases hLoad.symm.trans hLoad'
  have hSaves : restartedGood.Saves otherId someAddr.compact := ⟨0, goodNode, rfl, rfl, rfl, rfl⟩
  have hOwn := ((knows_iff_saves hInv.index hHas otherId someAddr.compact).mp
    ((hKnows otherId someAddr.compact).mpr hSaves)).2
  exact hOwn rfl

end Lftp.Ports.DHT
