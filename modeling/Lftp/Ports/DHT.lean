import Lftp.Ports.XMap
import Lftp.Verified.BitPrefix
import Lftp.Verified.Outcome

/-!
# The nodes and the routing table of the DHT

A translation of the functions of `DHT.cc` that change which nodes are known and
which of them are in the routing table. A node is the address of its record in
the heap; the record is gone when the node was freed, and a later use of it is an
error. New nodes get new addresses.

Timers are what the code asks of them: `good` is that the good timer has not
stopped. Searches, requests under way and the tokens of nodes are left out, as no
function here depends on them.
-/

namespace Lftp.Ports

open Lftp.Verified

namespace DHT

/-! ## Addresses -/

inductive Family
  | inet
  | inet6
deriving DecidableEq

/-- The length of an address. -/
def Family.length : Family → Nat
  | .inet => 4
  | .inet6 => 16

/-- `sockaddr_u`. -/
structure SockAddr where
  family : Family
  addr : Bytes
  port : Nat
  length_addr : addr.length = family.length
  port_lt : port < 2 ^ 16
deriving DecidableEq

namespace SockAddr

/-- Byte `i` of the address. -/
def byte (a : SockAddr) (i : Nat) : Nat := (a.addr.getD i 0).toNat

/-- The first `n` bytes of the address are zero. -/
def zeros (a : SockAddr) (n : Nat) : Bool := (a.addr.take n).all (· = 0)

def isLoopback (a : SockAddr) : Bool :=
  match a.family with
  | .inet => a.byte 0 = 127 && a.byte 1 = 0 && a.byte 2 = 0 && a.byte 3 = 1
  | .inet6 => a.zeros 15 && a.byte 15 = 1

def isReserved (a : SockAddr) : Bool :=
  match a.family with
  | .inet => a.byte 0 = 0 || (a.byte 0 = 127 && !a.isLoopback) || 240 ≤ a.byte 0
  | .inet6 =>
    -- unspecified, mapped and compatible addresses
    a.zeros 16 || (a.zeros 10 && a.byte 10 = 255 && a.byte 11 = 255)
      || (a.zeros 12 && !(a.byte 12 = 0 && a.byte 13 = 0 && a.byte 14 = 0 && a.byte 15 ≤ 1))

def isMulticast (a : SockAddr) : Bool :=
  match a.family with
  | .inet => 224 ≤ a.byte 0 && a.byte 0 < 240
  | .inet6 => a.byte 0 = 255

def isPrivate (a : SockAddr) : Bool :=
  match a.family with
  | .inet =>
    a.byte 0 = 10 || (a.byte 0 = 172 && 16 ≤ a.byte 1 && a.byte 1 < 32)
      || (a.byte 0 = 192 && a.byte 1 = 168) || (a.byte 0 = 169 && a.byte 1 = 254)
  | .inet6 =>
    -- site-local and link-local addresses
    a.byte 0 = 254 && (a.byte 1 / 64 = 3 || a.byte 1 / 64 = 2)

/-- `compact`. -/
def compact (a : SockAddr) : Bytes :=
  a.addr ++ if a.port = 0 then []
    else [UInt8.ofNat (a.port / 256), UInt8.ofNat (a.port % 256)]

end SockAddr

/-! ## The state -/

/-- `DHT::K`. -/
def K : Nat := 8

structure Node where
  id : Bytes
  originId : Bytes
  addr : SockAddr
  good : Bool
  responded : Bool
  inRoutes : Bool
  pingLostCount : Nat
  idChangeCount : Nat
  badNodeCount : Nat

/-- The constructor of `Node`. -/
def Node.new (id : Bytes) (a : SockAddr) : Node := ⟨id, [], a, false, false, false, 0, 0, 0⟩

def Node.isBad (n : Node) : Bool := (!n.good && 2 ≤ n.pingLostCount) || 2 ≤ n.idChangeCount

/-- `RouteBucket`; `path` is its `prefix`. -/
structure RouteBucket where
  prefixBits : Nat
  path : Bytes
  nodes : List Nat

/-- What ends a call before its time: a failed assertion, a pointer or an index
that leads nowhere, or more turns or nested calls than allowed. -/
inductive Crash
  | assertion
  | invalid
  | unfinished
deriving DecidableEq

end DHT

structure DHT where
  af : DHT.Family
  nodeId : Bytes
  heap : Nat → Option DHT.Node
  nextNode : Nat
  nodes : XMap Nat
  nodeByAddr : XMap Nat
  routes : List DHT.RouteBucket
  blackList : List DHT.SockAddr
  stateIo : Bool

namespace DHT

/-- The constructor. -/
def new (af : Family) (id : Bytes) : DHT :=
  ⟨af, id, fun _ => none, 0, XMap.new, XMap.new, [], [], false⟩

/-- The record of a node. -/
def deref (s : DHT) (p : Nat) : Except Crash Node :=
  match s.heap p with
  | some n => .ok n
  | none => .error .invalid

/-- The record of a node is changed. -/
def store (s : DHT) (p : Nat) (n : Node) : DHT :=
  { s with heap := fun q => if q = p then some n else s.heap q }

/-- The nodes of bucket `i`. -/
def nodesAt (s : DHT) (i : Nat) : List Nat := ((s.routes[i]?).map RouteBucket.nodes).getD []

def setNodes (s : DHT) (i : Nat) (ns : List Nat) : DHT :=
  { s with routes := s.routes.modify i fun r => { r with nodes := ns } }

/-- The index of the first node of a list that meets a test. -/
def firstWhere (s : DHT) (test : Node → Bool) : List Nat → Except Crash (Option Nat)
  | [] => .ok none
  | p :: ps => do
    let n ← s.deref p
    if test n then .ok (some 0)
    else do
      let j ← s.firstWhere test ps
      .ok (j.map (· + 1))

/-! ## Buckets -/

/-- The constructor of `RouteBucket`. -/
def RouteBucket.new (bits : Nat) (path : Bytes) : Except Crash RouteBucket :=
  if (bits + 7) / 8 ≤ path.length then .ok ⟨bits, path, []⟩ else .error .assertion

/-- `PrefixMatch`, with `skew` left at zero. -/
def RouteBucket.prefixMatch (r : RouteBucket) (id : Bytes) : Bool :=
  let bytes := r.prefixBits / 8
  let bits := r.prefixBits % 8
  r.path.take bytes = id.take bytes
    && (bits = 0 || r.path.getD bytes 0 &&& highMask bits = id.getD bytes 0 &&& highMask bits)

/-- `RouteBucket::RemoveNode(int)`. -/
def removeAt (s : DHT) (i j : Nat) : Except Crash DHT :=
  match (s.nodesAt i)[j]? with
  | none => .error .assertion
  | some p => do
    let n ← s.deref p
    .ok ((s.store p { n with inRoutes := false }).setNodes i ((s.nodesAt i).eraseIdx j))

/-- `RouteBucket::RemoveNode(Node*)`. -/
def removeFrom (s : DHT) (i p : Nat) : Except Crash DHT :=
  match (s.nodesAt i).idxOf? p with
  | none => .ok s
  | some j => s.removeAt i j

/-- `FindRoute`, from the first bucket on. -/
def findRoute (s : DHT) (id : Bytes) : Option Nat := s.routes.findIdx? (·.prefixMatch id)

/-- `RemoveRoute`. -/
def removeRoute (s : DHT) (p : Nat) : Except Crash DHT := do
  let n ← s.deref p
  match s.findRoute n.id with
  | none => .ok s
  | some i => s.removeFrom i p

/-- `PingQuestionable`, from some node on with so much of the limit left: the
number of questionable nodes. -/
def pingQuestionable (s : DHT) : Nat → List Nat → Except Crash Nat
  | 0, _ => .ok 0
  | _, [] => .ok 0
  | limit + 1, p :: ps => do
    let n ← s.deref p
    if n.good then s.pingQuestionable (limit + 1) ps
    else do
      let q ← s.pingQuestionable limit ps
      .ok (q + 1)

/-- `HasGoodNodes`. -/
def hasGoodNodes (s : DHT) (r : RouteBucket) : Except Crash Bool := do
  let j ← s.firstWhere Node.good r.nodes
  .ok j.isSome

/-- Whether `SplitRoute0` leaves the first bucket `r` as it is. -/
def keepsRoute0 (s : DHT) (r : RouteBucket) (rest : List RouteBucket) : Except Crash Bool :=
  if r.nodes.length < K || 160 ≤ r.prefixBits then .ok true
  else
    match rest with
    | [] => .ok false
    | r1 :: _ => do
      let good ← s.hasGoodNodes r1
      .ok (!good && !s.stateIo)

/-- The nodes are distributed by bit `bits` of the id: first those that have it. -/
def distribute (s : DHT) (bits : Nat) : List Nat → Except Crash (List Nat × List Nat)
  | [] => .ok ([], [])
  | p :: ps => do
    let n ← s.deref p
    let (ns2, ns1) ← s.distribute bits ps
    .ok (if n.id.getD (bits / 8) 0 &&& bitMask bits ≠ 0 then (p :: ns2, ns1)
      else (ns2, p :: ns1))

/-- `SplitRoute0`; `none` when it returns false. -/
def splitRoute0 (s : DHT) : Except Crash (Option DHT) :=
  match s.routes with
  | [] => .error .invalid
  | r :: rest => do
    let keeps ← s.keepsRoute0 r rest
    if keeps then .ok none
    else do
      let bits := r.prefixBits
      let path := if r.path.length ≤ bits / 8 then r.path ++ [0] else r.path
      -- the new bit in the first one is already cleared
      let b1 ← RouteBucket.new (bits + 1) path
      let b2 ← RouteBucket.new (bits + 1) (setBitAt path bits)
      let (ns2, ns1) ← s.distribute bits r.nodes
      let b1 := { b1 with nodes := ns1 }
      let b2 := { b2 with nodes := ns2 }
      let (r0, r1) := if s.nodeId.getD (bits / 8) 0 &&& bitMask bits ≠ 0 then (b2, b1) else (b1, b2)
      if r0.prefixMatch s.nodeId then .ok (some { s with routes := r0 :: r1 :: rest })
      else .error .assertion

/-! ## `AddRoute` -/

/-- The bucket for an id; the first one is made here. -/
def routeFor (s : DHT) (id : Bytes) : Except Crash (DHT × Nat) :=
  match s.findRoute id with
  | some i => .ok (s, i)
  | none =>
    match s.routes with
    | [] => do
      let r ← RouteBucket.new 0 []
      .ok ({ s with routes := [r] }, 0)
    | _ :: _ => .error .assertion

/-- A node that is in bucket `i` already, at `j`: a stable one goes to the end of
the `K` stable ones. -/
def moveStable (s : DHT) (i j p : Nat) : DHT :=
  if j < K then
    let ns := (s.nodesAt i).eraseIdx j
    s.setNodes i (if ns.length < K then ns ++ [p] else ns.insertIdx (K - 1) p)
  else s

/-- `if(cond) for(j..) if(test(nodes[j])) { r->RemoveNode(j); break; }`. -/
def evictIf (s : DHT) (cond : Bool) (i : Nat) (test : Node → Bool) : Except Crash DHT :=
  if cond then do
    let found ← s.firstWhere test (s.nodesAt i)
    match found with
    | some j => s.removeAt i j
    | none => .ok s
  else .ok s

/-- Bucket `i` has its `K` nodes. -/
def full (s : DHT) (i : Nat) : Bool := K ≤ (s.nodesAt i).length

/-- The nodes that make room for `n` in bucket `i`. -/
def makeRoom (s : DHT) (i : Nat) (n : Node) : Except Crash DHT := do
  -- a bad node
  let s ← s.evictIf (s.full i) i Node.isBad
  -- prefer responded nodes
  let s ← s.evictIf (0 < i && s.full i && n.responded) i fun m => !m.responded
  -- a non-good and not responded node
  s.evictIf (0 < i && s.full i) i fun m => !m.good && !m.responded

/-- The node is added to bucket `i`. -/
def append (s : DHT) (i p : Nat) : Except Crash DHT := do
  let n ← s.deref p
  .ok ((s.store p { n with inRoutes := true }).setNodes i (s.nodesAt i ++ [p]))

/-- `SplitRoute0` where `cond` asks for it. -/
def splitIf (s : DHT) (cond : Bool) : Except Crash (Option DHT) :=
  if cond then s.splitRoute0 else .ok none

/-- A full bucket `i` has its candidates, or is split. -/
def placeFull (s : DHT) (i p : Nat) : Except Crash (DHT ⊕ DHT × Bool) := do
  let ns := s.nodesAt i
  let q ← s.pingQuestionable (ns.length - K + 1) (ns.take K)
  if K + q ≤ ns.length then do
    let split ← s.splitIf (i = 0)
    match split with
    | some s' => .ok (.inl s')
    | none => .ok (.inr (s, true))
  else do
    let s ← s.append i p
    .ok (.inr (s, false))

/-- From the first split on. -/
def place (s : DHT) (i p : Nat) : Except Crash (DHT ⊕ DHT × Bool) := do
  let split ← s.splitIf (s.stateIo && i = 0 && s.full i)
  match split with
  | some s' => .ok (.inl s')
  | none =>
    if s.full i then s.placeFull i p
    else do
      let s ← s.append i p
      .ok (.inr (s, false))

/-- `AddRoute` from `try_again` on, up to the next `goto` or the return; with the
latter comes whether the log says that the node is skipped. -/
def addRouteTurn (p : Nat) (s : DHT) : Except Crash (DHT ⊕ DHT × Bool) := do
  let n ← s.deref p
  let (s, i) ← s.routeFor n.id
  match (s.nodesAt i).idxOf? p with
  | some j => .ok (.inr (s.moveStable i j p, false))
  | none => do
    let s ← s.makeRoom i n
    s.place i p

/-- `AddRoute`. Every turn but the last splits the first bucket. -/
def addRoute (s : DHT) (p : Nat) : Except Crash (DHT × Bool) :=
  loopOr .unfinished (addRouteTurn p) 161 s

/-! ## The nodes -/

/-- `delete` of a node. -/
def free (s : DHT) (p : Nat) : DHT :=
  { s with heap := fun q => if q = p then none else s.heap q }

/-- `nodes.remove`. -/
def removeId (s : DHT) (id : Bytes) : DHT :=
  match s.nodes.value? id with
  | some p => { s.free p with nodes := s.nodes.remove id }
  | none => s

/-- `nodes.add`. -/
def addId (s : DHT) (id : Bytes) (p : Nat) : DHT :=
  match s.nodes.value? id with
  | some q => { s.free q with nodes := s.nodes.add id p }
  | none => { s with nodes := s.nodes.add id p }

/-- `GetOrigin`. -/
def getOrigin (s : DHT) (p : Nat) : Except Crash (Option Nat) := do
  let n ← s.deref p
  .ok (if n.originId = [] then none
    else
      match s.nodes.value? n.originId with
      | some o => if o = p then none else some o
      | none => none)

/-- `black_list.Add` of the address of a node. -/
def blackListAdd (s : DHT) (a : SockAddr) : DHT :=
  { s with blackList := if s.blackList.contains a then s.blackList else a :: s.blackList }

/-- `RemoveNode` from `RemoveRoute` on. -/
def dropNode (s : DHT) (p : Nat) : Except Crash DHT := do
  let s ← s.removeRoute p
  let n ← s.deref p
  .ok ({ s with nodeByAddr := s.nodeByAddr.remove n.addr.compact }.removeId n.id)

/-- `RemoveNode` up to `BlackListNode`: the origin of a node that never responded
is blamed, and returned when it has been too often. -/
def blame (s : DHT) (p : Nat) : Except Crash (DHT × Option Nat) := do
  let n ← s.deref p
  let origin ← s.getOrigin p
  match origin with
  | none => .ok (s, none)
  | some o =>
    if !n.responded && 1 < n.pingLostCount then do
      let m ← s.deref o
      let count := m.badNodeCount + 1
      .ok (s.store o { m with badNodeCount := count }, if 2 * K < count then some o else none)
    else .ok (s, none)

/-- `RemoveNode`, with so many nested calls; `BlackListNode` in its body is
`black_list.Add` and `RemoveNode`. -/
def removeNode : Nat → DHT → Nat → Except Crash DHT
  | 0, _, _ => .error .unfinished
  | depth + 1, s, p => do
    let (s, origin) ← s.blame p
    let s ← match origin with
      | none => .ok s
      | some o => do
        let m ← s.deref o
        removeNode depth (s.blackListAdd m.addr) o
    s.dropNode p

/-- `BlackListNode`. -/
def blackListNode (depth : Nat) (s : DHT) (p : Nat) : Except Crash DHT := do
  let n ← s.deref p
  removeNode depth (s.blackListAdd n.addr) p

/-- `ChangeNodeId`. -/
def changeNodeId (s : DHT) (p : Nat) (newId : Bytes) : Except Crash DHT := do
  let n ← s.deref p
  let s := s.store p { n with idChangeCount := n.idChangeCount + 1 }
  let s ← s.removeRoute p
  let n ← s.deref p
  let s := { s with nodes := s.nodes.remove n.id }
  let s := s.store p { n with id := newId }
  let (s, _) ← (s.addId newId p).addRoute p
  .ok s

/-- `new Node`, at the next address. -/
def makeNode (s : DHT) (id : Bytes) (a : SockAddr) : DHT :=
  { s.store s.nextNode (Node.new id a) with nextNode := s.nextNode + 1 }

/-- `AddNode`. -/
def addNode (s : DHT) (p : Nat) : Except Crash DHT := do
  let n ← s.deref p
  if n.id.length ≠ 20 ∨ s.nodes.isThere n.id ∨ s.nodeByAddr.isThere n.addr.compact then
    .error .assertion
  else do
    let s := s.addId n.id p
    let (s, _) ← { s with nodeByAddr := s.nodeByAddr.add n.addr.compact p }.addRoute p
    .ok s

/-- The origin of a node that responded has less to its account. -/
def creditOrigin (s : DHT) (p : Nat) : Except Crash DHT := do
  let origin ← s.getOrigin p
  match origin with
  | none => .ok s
  | some o => do
    let m ← s.deref o
    .ok (s.store o { m with badNodeCount := m.badNodeCount / 2 })

/-- A node is found to be good when it has responded. -/
def heardFrom (s : DHT) (p : Nat) (responded : Bool) : Except Crash DHT := do
  let n ← s.deref p
  if responded then do
    let s ← (s.store p { n with responded := true, pingLostCount := 0 }).creditOrigin p
    let n ← s.deref p
    .ok (s.store p { n with good := true })
  else .ok (if n.responded then s.store p { n with good := true } else s)

/-- The address is one that `FoundNode` takes. -/
def accepts (s : DHT) (id : Bytes) (a : SockAddr) : Bool :=
  !(a.port = 0 || a.isPrivate || a.isReserved || a.isMulticast)
    && a.family = s.af && id ≠ s.nodeId && !s.blackList.contains a

/-- `FoundNode`. -/
def foundNode (depth : Nat) (s : DHT) (id : Bytes) (a : SockAddr) (responded : Bool) :
    Except Crash DHT :=
  if !s.accepts id a then .ok s
  else
    match s.nodes.value? id with
    | some p => do
      let (s, _) ← s.addRoute p
      s.heardFrom p responded
    | none =>
      match s.nodeByAddr.value? a.compact with
      | some p =>
        -- change node id only by a message from the node
        if !responded then .ok s
        else do
          let n ← s.deref p
          if 0 < n.idChangeCount then s.blackListNode depth p
          else do
            let s ← s.changeNodeId p id
            s.heardFrom p responded
      | none => do
        let p := s.nextNode
        let s ← (s.makeNode id a).addNode p
        s.heardFrom p responded

/-! ## Restarting and loading -/

/-- The nodes in the order of `each_begin` and `each_next`. -/
def eachNode (s : DHT) : List Nat := s.nodes.loopKeys.filterMap s.nodes.value?

/-- A good node is added to the routes again. -/
def reAdd (s : DHT) (p : Nat) : Except Crash DHT := do
  let n ← s.deref p
  if n.good then do
    let (s, _) ← s.addRoute p
    .ok s
  else .ok s

/-- `Restart` with a node id. -/
def restart (s : DHT) (id : Bytes) : Except Crash DHT :=
  s.eachNode.foldlM reAdd { s with nodeId := id, routes := [] }

/-- `Load` of a node id and a list of nodes. -/
def load (depth : Nat) (s : DHT) (id : Bytes) (saved : List (Bytes × SockAddr)) :
    Except Crash DHT := do
  let s ← if id.length = 20 then s.restart id else .ok s
  saved.foldlM (fun s x => s.foundNode depth x.1 x.2 false) s

/-- The cleanup of bucket `i` in `Do`. -/
def trim (s : DHT) (i : Nat) : Except Crash DHT :=
  let ns := s.nodesAt i
  if K < ns.length then do
    let q ← s.pingQuestionable (ns.length - K) (ns.take K)
    if K + q < ns.length then s.removeAt i K else .ok s
  else .ok s

/-! ## Runs -/

/-- The calls of the functions above, and what happens to nodes otherwise. -/
inductive Event
  | foundNode (id : Bytes) (a : SockAddr) (responded : Bool)
  | addNode (id : Bytes) (a : SockAddr)
  | changeNodeId (p : Nat) (id : Bytes)
  | addRoute (p : Nat)
  | removeRoute (p : Nat)
  | splitRoute0
  | removeNode (p : Nat)
  | blackListNode (p : Nat)
  | restart (id : Bytes)
  | load (id : Bytes) (saved : List (Bytes × SockAddr))
  | trim (i : Nat)
  | goodTimerStops (p : Nat)
  | lostPing (p : Nat)
  | setOrigin (p o : Nat)
  | blackList (a : SockAddr)
  | delist (a : SockAddr)
  | stateIo (b : Bool)

/-- An event, with so many nested calls of `RemoveNode`. -/
def act (depth : Nat) (s : DHT) : Event → Except Crash DHT
  | .foundNode id a responded => s.foundNode depth id a responded
  | .addNode id a => (s.makeNode id a).addNode s.nextNode
  | .changeNodeId p id => s.changeNodeId p id
  | .addRoute p => do
    let (s, _) ← s.addRoute p
    .ok s
  | .removeRoute p => s.removeRoute p
  | .splitRoute0 => do
    let split ← s.splitRoute0
    .ok (split.getD s)
  | .removeNode p => s.removeNode depth p
  | .blackListNode p => s.blackListNode depth p
  | .restart id => s.restart id
  | .load id saved => s.load depth id saved
  | .trim i => s.trim i
  | .goodTimerStops p => do
    let n ← s.deref p
    .ok (s.store p { n with good := false })
  | .lostPing p => do
    let n ← s.deref p
    .ok (s.store p { n with pingLostCount := n.pingLostCount + 1 })
  | .setOrigin p o => do
    let n ← s.deref p
    let m ← s.deref o
    .ok (s.store p { n with originId := m.id })
  | .blackList a => .ok (s.blackListAdd a)
  | .delist a => .ok { s with blackList := s.blackList.filter (· ≠ a) }
  | .stateIo b => .ok { s with stateIo := b }

/-- The node is there. -/
def Live (s : DHT) (p : Nat) : Prop := (s.heap p).isSome = true

/-- What the callers see to: nodes are those of `nodes`, ids have 20 bytes, and
`FoundNode` looks for an id and an address before it makes a node for them. -/
def Enabled (s : DHT) : Event → Prop
  | .foundNode id _ _ => id.length = 20
  | .addNode id a =>
    id.length = 20 ∧ s.nodes.value? id = none ∧ s.nodeByAddr.value? a.compact = none
  | .changeNodeId p id => s.Live p ∧ id.length = 20 ∧ s.nodes.value? id = none
  | .addRoute p | .removeRoute p | .removeNode p | .blackListNode p | .goodTimerStops p
  | .lostPing p => s.Live p
  | .setOrigin p o => s.Live p ∧ s.Live o
  | .splitRoute0 => s.routes ≠ []
  | .restart id => id.length = 20
  | .load _ saved => ∀ x ∈ saved, x.1.length = 20
  | .trim i => 0 < i ∧ i < s.routes.length
  | .blackList _ | .delist _ | .stateIo _ => True

/-- A call that returns. -/
def Step (s : DHT) (ev : Event) (s' : DHT) : Prop :=
  s.Enabled ev ∧ ∃ depth, s.act depth ev = .ok s'

/-- A table without nodes. -/
def Init (s : DHT) : Prop := ∃ af id, id.length = 20 ∧ s = new af id

end DHT

end Lftp.Ports
