import Lftp.Ports.DHTSweep
import Lftp.Ports.TorrentPath
import Lftp.Ports.XQueue

/-!
# Messages of the DHT

Requests wait in `send_queue` until they may be sent, and are in `sent_req` under their
transaction id until the reply comes.

* A node that is black-listed must not be sent anything. `BlackListNode` goes over `send_queue`
  by index and steps over the request after each one that it removes
  (`blackListNode_purges_iff`).
* A reply is for the node that was asked. `HandlePacket` takes the request out of `sent_req`
  before it looks where the reply comes from, so that any packet with the right transaction id
  ends the request (`reply_from_elsewhere`).

The part of the state that is not about messages is that of `DHT`.
-/

namespace Lftp.Ports.DHT

open Lftp.Verified
open Lftp.Ports.Bencode
open Lftp.Ports.TorrentPath (lookupStr)

/-- `Request` -/
structure Request where
  data : BeNode
  addr : SockAddr
  nodeId : Bytes

/-- `sent_req` -/
def Sent : Type := { t : XMap Request // t.Valid }

/-- The nodes, and the requests that wait or were sent. -/
structure Net where
  dht : DHT
  sendQueue : XQueue Request
  sentReq : Sent

/-! ## Black-listing -/

/-- `send_queue` without the requests to a node, as far as the loop finds them. -/
def purgeQueue (q : XQueue Request) (id : Bytes) : XQueue Request :=
  q.removeEach (fun r => r.nodeId = id) q.count 0

/-- `sent_req` without the requests to a node. -/
def purgeSent (t : Sent) (id : Bytes) : Sent :=
  t.1.loopKeys.foldl
    (fun t k => if (t.1.value? k).any (·.nodeId = id) then ⟨t.1.remove k, t.2.remove k⟩ else t) t

namespace Net

/-- The loops of `BlackListNode` over the requests. -/
def purge (s : Net) (id : Bytes) : Net :=
  { s with sendQueue := purgeQueue s.sendQueue id, sentReq := purgeSent s.sentReq id }

/-- `RemoveNode`, with so many nested calls; `BlackListNode` in its body is `black_list.Add`, the
two loops and `RemoveNode`. -/
def removeNode : Nat → Net → Nat → Except Crash Net
  | 0, _, _ => .error .unfinished
  | depth + 1, s, p => do
      let (dht, origin) ← s.dht.blame p
      let s := { s with dht := dht }
      let s ← (match origin with
        | none => .ok s
        | some o => do
            let m ← s.dht.deref o
            removeNode depth ({ s with dht := s.dht.blackListAdd m.addr }.purge m.id) o)
      let dht ← s.dht.dropNode p
      .ok { s with dht := dht }

/-- `BlackListNode` -/
def blackListNode (depth : Nat) (s : Net) (p : Nat) : Except Crash Net := do
  let n ← s.dht.deref p
  removeNode depth ({ s with dht := s.dht.blackListAdd n.addr }.purge n.id) p

/-! ## Packets -/

/-- `HandlePacket`; what it does with a query, and with a reply from where it is expected, are
parameters. -/
def handlePacket (onQuery : Net → BeNode → SockAddr → Except Crash Net)
    (onReply : Net → Request → BeNode → SockAddr → Except Crash Net)
    (s : Net) (p : BeNode) (src : SockAddr) : Except Crash Net :=
  match lookupStr "t" p, lookupStr "y" p with
  | some t, some y =>
      if y = bytes "q" then onQuery s p src
      else
        match s.sentReq.1.value? t with
        | none => .ok s
        | some req =>
            let s := { s with sentReq := ⟨s.sentReq.1.remove t, s.sentReq.2.remove t⟩ }
            if req.addr ≠ src then .ok s else onReply s req p src
  | _, _ => .ok s

/-! ## What is purged -/

variable {s s' : Net} {d d' t : DHT} {p : Nat} {n : Node} {id : Bytes} {depth : Nat}

/-- The ids of the nodes that `RemoveNode` black-lists. -/
def cascade : Nat → DHT → Nat → List Bytes
  | 0, _, _ => []
  | depth + 1, d, p =>
      match d.blame p with
      | .ok (d, some o) =>
          match d.heap o with
          | some m => m.id :: cascade depth (d.blackListAdd m.addr) o
          | none => []
      | _ => []

/-- Purging and the nodes have nothing to do with each other. -/
theorem foldl_purge (ids : List Bytes) (s : Net) (d : DHT) :
    ids.foldl purge { s with dht := d } = { ids.foldl purge s with dht := d } := by
  induction ids generalizing s with
  | nil => rfl
  | cons id ids ih => exact ih (s.purge id)

/-- The nodes go as without messages, and the requests to those black-listed are purged. -/
theorem removeNode_eq (depth : Nat) (s : Net) (p : Nat) :
    s.removeNode depth p = (s.dht.removeNode depth p >>= fun d =>
      .ok { (cascade depth s.dht p).foldl purge s with dht := d }) := by
  induction depth generalizing s p with
  | zero => rfl
  | succ depth ih =>
      rw [Net.removeNode, DHT.removeNode, cascade]
      cases hBlame : s.dht.blame p with
      | error e => rfl
      | ok x =>
          rcases x with ⟨d, origin⟩
          cases origin with
          | none =>
              show (d.dropNode p >>= _) = (d.dropNode p >>= _)
              rfl
          | some o =>
              rw [ok_bind, ok_bind]
              dsimp only
              cases hm : d.heap o with
              | none =>
                  have hDeref : d.deref o = .error .invalid := by
                    unfold deref
                    rw [hm]
                  rw [hDeref]
                  rfl
              | some m =>
                  rw [deref_eq hm, ok_bind, ok_bind, ih]
                  have hPurge := foldl_purge (cascade depth (d.blackListAdd m.addr) o)
                    (s.purge m.id) (d.blackListAdd m.addr)
                  change ((DHT.removeNode depth (d.blackListAdd m.addr) o >>= fun d' =>
                    .ok { (cascade depth (d.blackListAdd m.addr) o).foldl purge
                      { s.purge m.id with dht := d.blackListAdd m.addr } with dht := d' }) >>=
                    fun u => u.dht.dropNode p >>= fun d' => .ok { u with dht := d' }) = _
                  rw [hPurge, bind_assoc, bind_assoc]
                  rfl

/-- The nodes black-listed on the way are those of the chain after the first. -/
theorem cascade_chain (h : Inv d) (hp : d.Live p) (hRun : d.removeNode depth p = .ok d') :
    ∃ t c, Chain d p t (p :: c) ∧ (p :: c).reverse.foldlM dropNode t = .ok d' ∧
      ∀ id ∈ cascade depth d p, ∃ q ∈ c, ∃ m, d.heap q = some m ∧ m.id = id := by
  induction depth generalizing d d' p with
  | zero => cases hRun
  | succ depth ih =>
      rcases (blame_spec h.index hp).exists with ⟨⟨t, origin⟩, hBlame, hTouched, hLive⟩
      rw [DHT.removeNode, hBlame, ok_bind] at hRun
      rw [cascade, hBlame]
      cases origin with
      | none =>
          refine ⟨t, [], .last hBlame, ?_, fun id hId => absurd hId List.not_mem_nil⟩
          show (t.dropNode p >>= pure) = _
          rw [bind_pure]
          exact hRun
      | some o =>
          rcases (hTouched.live (hLive o rfl)).exists with ⟨m, hm⟩
          have hListed := hTouched.trans (touched_blackListAdd t m.addr)
          change (t.deref o >>= fun m => DHT.removeNode depth (t.blackListAdd m.addr) o
            >>= fun u => u.dropNode p) = _ at hRun
          rw [deref_eq hm, ok_bind] at hRun
          rcases exists_of_bind hRun with ⟨u, hRest, hDrop⟩
          rcases ih (hListed.keeps h).inv (hListed.live (hLive o rfl)) hRest with
            ⟨t', c, hChain, hFold, hIds⟩
          -- what the records are called is the same on the way down
          have hSame : ∀ q n, (t.blackListAdd m.addr).heap q = some n →
              ∃ n', d.heap q = some n' ∧ n'.id = n.id := by
            intro q n hn
            rcases hListed.symm.record hn with ⟨n', hn', hSeen⟩
            exact ⟨n', hn', congrArg Prod.fst hSeen⟩
          refine ⟨t', o :: c, .nest hBlame hm hChain, ?_, ?_⟩
          · rw [List.reverse_cons, List.foldlM_append, hFold]
            show (u.dropNode p >>= pure) = _
            rw [bind_pure]
            exact hDrop
          · dsimp only
            rw [hm]
            intro id hId
            rcases List.mem_cons.mp hId with hFirst | hLater
            · rcases hSame o m hm with ⟨n', hn', hEq⟩
              exact ⟨o, List.mem_cons_self, n', hn', hEq.trans hFirst.symm⟩
            · rcases hIds id hLater with ⟨q, hq, n, hn, hEq⟩
              rcases hSame q n hn with ⟨n', hn', hEq'⟩
              exact ⟨q, List.mem_cons_of_mem o hq, n', hn', hEq'.trans hEq⟩

/-! ## The queue after it -/

/-- The request is to the node. -/
def isTo (id : Bytes) (r : Request) : Bool := r.nodeId = id

theorem items_purge (s : Net) (id : Bytes) :
    (s.purge id).sendQueue.items = XQueue.sweep (isTo id) s.sendQueue.items :=
  XQueue.items_removeEach (p := []) rfl (Nat.le_of_eq (XQueue.length_items _))

/-- Requests to another node stay in the queue and no new ones come. -/
theorem mem_purge {r : Request} {k : Bytes} (hr : r.nodeId ≠ k) (s : Net) :
    r ∈ (s.purge k).sendQueue.items ↔ r ∈ s.sendQueue.items := by
  have hNot : isTo k r = false := by simpa [isTo] using hr
  rw [items_purge]
  exact XQueue.mem_sweep_of_false hNot _

theorem mem_foldl_purge {r : Request} {ids : List Bytes} (hr : r.nodeId ∉ ids) (s : Net) :
    r ∈ (ids.foldl purge s).sendQueue.items ↔ r ∈ s.sendQueue.items := by
  induction ids generalizing s with
  | nil => exact Iff.rfl
  | cons k ids ih =>
      have hBoth := List.ne_and_not_mem_of_not_mem_cons hr
      exact (ih hBoth.2 (s.purge k)).trans (mem_purge hBoth.1 s)

/-- Requests to none of the nodes stay in their order. -/
theorem filter_purge {ids : List Bytes} {k : Bytes} (hk : k ∈ ids) (s : Net) :
    (s.purge k).sendQueue.items.filter (fun r => r.nodeId ∉ ids) =
      s.sendQueue.items.filter fun r => r.nodeId ∉ ids := by
  have hOther : ∀ l : List Request, l.filter (fun r => decide (r.nodeId ∉ ids)) =
      (l.filter fun r => !isTo k r).filter fun r => decide (r.nodeId ∉ ids) := by
    intro l
    rw [List.filter_filter]
    apply List.filter_congr
    intro r _
    by_cases hk' : r.nodeId = k
    · rw [hk']
      simp [hk]
    · simp [isTo, hk']
  rw [hOther, items_purge, XQueue.filter_sweep, ← hOther]

theorem filter_foldl_purge {ids all : List Bytes} (h : ids ⊆ all) (s : Net) :
    (ids.foldl purge s).sendQueue.items.filter (fun r => r.nodeId ∉ all) =
      s.sendQueue.items.filter fun r => r.nodeId ∉ all := by
  induction ids generalizing s with
  | nil => rfl
  | cons k ids ih =>
      have hAll := List.cons_subset.mp h
      exact (ih hAll.2 (s.purge k)).trans (filter_purge hAll.1 s)

theorem foldl_purge_sublist (ids : List Bytes) (s : Net) :
    (ids.foldl purge s).sendQueue.items.Sublist s.sendQueue.items := by
  induction ids generalizing s with
  | nil => exact List.Sublist.refl _
  | cons k ids ih =>
      have hFirst : (s.purge k).sendQueue.items.Sublist s.sendQueue.items := by
        rw [items_purge]
        exact XQueue.sweep_sublist _
      exact (ih (s.purge k)).trans hFirst

/-! ## The node and the queue -/

/-- A node of that id goes on the way from `s` to `s'`. -/
def Loses (s s' : Net) (id : Bytes) : Prop :=
  ∃ q m, s.dht.heap q = some m ∧ m.id = id ∧ s'.dht.heap q = none

/-- No request to the node is left; the others are in their order, and all those to nodes that
stay are there. -/
structure Purged (s s' : Net) (id : Bytes) : Prop where
  gone : ∀ r ∈ s'.sendQueue.items, r.nodeId ≠ id
  order : s'.sendQueue.items.Sublist s.sendQueue.items
  others : ∃ ids : List Bytes, (∀ k ∈ ids, s.Loses s' k) ∧
    s'.sendQueue.items.filter (fun r => r.nodeId ∉ ids) =
      s.sendQueue.items.filter fun r => r.nodeId ∉ ids

/-- The nodes of a chain are not there when its calls have ended. -/
theorem chain_gone {c : List Nat} (h : Inv d) (hp : d.Live p) (hChain : Chain d p t c)
    (hDrop : c.reverse.foldlM dropNode t = .ok d') : ∀ q ∈ c, d'.heap q = none := by
  rcases hChain.dropping h hp with ⟨hDropping, -⟩
  have hGone := (hDropping.freed hDrop).2.2.2
  have hSpec := removeNode_spec h hp c.length
  rw [hChain.removeNode_eq, hDrop] at hSpec
  have hIndex : IndexOk d' := hSpec.inv.index
  intro q hq
  by_contra hThere
  rcases Option.ne_none_iff_exists'.mp hThere with ⟨m, hm⟩
  rcases hIndex.validNodes.value?_eq_some_iff.mp (hIndex.byId.found hm) with ⟨e, he, -, hValue⟩
  exact (hGone e he).2 (hValue ▸ List.mem_reverse.mpr hq)

/-- `BlackListNode` that comes to its end: the node and a list of others are purged, and all of
them are removed. -/
theorem blackListNode_eq (h : Inv s.dht) (hn : s.dht.heap p = some n)
    (hRun : s.blackListNode depth p = .ok s') :
    ∃ ids : List Bytes, s'.sendQueue = (ids.foldl purge (s.purge n.id)).sendQueue ∧
      s.Loses s' n.id ∧ ∀ k ∈ ids, s.Loses s' k ∧ k ≠ n.id := by
  have hListed := touched_blackListAdd s.dht n.addr
  have hp := live_of_heap hn
  have hInv := (hListed.keeps h).inv
  have hLive := hListed.live hp
  unfold blackListNode at hRun
  rw [deref_eq hn, ok_bind, removeNode_eq] at hRun
  rcases exists_of_bind hRun with ⟨d, hCalls, hEnd⟩
  rw [← Except.ok.inj hEnd]
  rcases cascade_chain hInv hLive hCalls with ⟨t, c, hChain, hDrop, hIds⟩
  have hGone := chain_gone hInv hLive hChain hDrop
  have hOut := (List.nodup_cons.mp (hChain.nodup hInv hLive)).1
  let ids := cascade depth (s.dht.blackListAdd n.addr) p
  refine ⟨ids, ?_, ⟨p, n, hn, rfl, hGone p List.mem_cons_self⟩, fun k hk => ?_⟩
  · have hAll := foldl_purge (n.id :: ids) s (s.dht.blackListAdd n.addr)
    have hQueues := congrArg sendQueue hAll
    exact hQueues
  · rcases hIds k hk with ⟨q, hq, m, hm, hId⟩
    have hm' : s.dht.heap q = some m := hm
    refine ⟨⟨q, m, hm', hId, hGone q (List.mem_cons_of_mem p hq)⟩, fun hSame => hOut ?_⟩
    have hBoth := h.index.byId.unique hm' hn (hId.trans hSame)
    exact hBoth ▸ hq

/-- A ping. -/
def pingTo (id : Bytes) (a : SockAddr) : Request :=
  let q := (bytes "q", BeNode.str (bytes "ping"))
  let y := (bytes "y", BeNode.str (bytes "q"))
  ⟨.dict [] [q, (bytes "t", .str [0]), y], a, id⟩

/-- The one node, with some requests in the queue. -/
def waiting (l : List Request) : Net :=
  ⟨oneNode, l.foldl XQueue.push XQueue.new, ⟨XMap.new, XMap.valid_new⟩⟩

variable {f : Net → BeNode → SockAddr → Except Crash Net}
  {g : Net → Request → BeNode → SockAddr → Except Crash Net}
  {pkt : BeNode} {src : SockAddr} {k y : Bytes} {req : Request}

/-- A reply with an unknown transaction id does nothing. -/
theorem handlePacket_unknown (ht : lookupStr "t" pkt = some k) (hy : lookupStr "y" pkt = some y)
    (hReply : y ≠ bytes "q") (hNone : s.sentReq.1.value? k = none) :
    s.handlePacket f g pkt src = .ok s := by
  unfold handlePacket
  rw [ht, hy]
  dsimp only
  rw [if_neg hReply, hNone]

/-- A reply that does not come from where the request was sent ends the request, and a reply
from there does nothing any more. -/
theorem reply_from_elsewhere (ht : lookupStr "t" pkt = some k) (hy : lookupStr "y" pkt = some y)
    (hReply : y ≠ bytes "q") (hReq : s.sentReq.1.value? k = some req) (hSrc : req.addr ≠ src) :
    ∃ s', s.handlePacket f g pkt src = .ok s' ∧ s'.sentReq ≠ s.sentReq ∧
      s'.sentReq.1.value? k = none ∧
      ∀ pkt' y', lookupStr "t" pkt' = some k → lookupStr "y" pkt' = some y' → y' ≠ bytes "q" →
        s'.handlePacket f g pkt' req.addr = .ok s' := by
  let gone : Sent := ⟨s.sentReq.1.remove k, s.sentReq.2.remove k⟩
  have hGone : gone.1.value? k = none := by
    show (s.sentReq.1.remove k).value? k = none
    rw [s.sentReq.2.value?_remove, if_pos rfl]
  refine ⟨{ s with sentReq := gone }, ?_, fun hSame => ?_, hGone, fun pkt' y' ht' hy' hReply' => ?_⟩
  · unfold handlePacket
    rw [ht, hy]
    dsimp only
    rw [if_neg hReply, hReq]
    dsimp only
    rw [if_pos hSrc]
  · have hSent : gone = s.sentReq := hSame
    rw [← hSent, hGone] at hReq
    exact absurd hReq (Option.some_ne_none req).symm
  · exact handlePacket_unknown ht' hy' hReply' hGone

instance : Inhabited Request := ⟨pingTo [] someAddr⟩

/-- One request under way, under transaction id `0`. -/
def asked : Net :=
  { waiting [] with
    sentReq := ⟨XMap.new.add [0] (pingTo otherId someAddr), XMap.valid_new.add [0] _⟩ }

/-- The answer to a ping. -/
def answer : BeNode :=
  .dict [] [(bytes "r", .dict [] [(bytes "id", .str otherId)]), (bytes "t", .str [0]),
    (bytes "y", .str (bytes "r"))]

/-- What is done with other packets does not matter here. -/
def receive (s : Net) : BeNode → SockAddr → Except Crash Net :=
  s.handlePacket (fun s _ _ => .ok s) fun s _ _ _ => .ok s

theorem reply_from_elsewhere_asked :
    ∃ s', asked.receive answer (addrOf 9) = .ok s' ∧ s'.sentReq ≠ asked.sentReq := by
  have hKey : lookupStr "t" answer = some [0] := rfl
  have hType : lookupStr "y" answer = some (bytes "r") := rfl
  have hReq : asked.sentReq.1.value? [0] = some (pingTo otherId someAddr) := rfl
  have hSrc : (pingTo otherId someAddr).addr ≠ addrOf 9 := by decide
  rcases reply_from_elsewhere (f := fun s _ _ => .ok s) (g := fun s _ _ _ => .ok s) hKey hType
    (by decide) hReq hSrc with ⟨s', hRun, hNe, -⟩
  exact ⟨s', hRun, hNe⟩

/-- Whoever sends the answer, the request is over. -/
theorem not_reply_ignored :
    ∃ s', asked.receive answer (addrOf 9) = .ok s' ∧
      asked.sentReq.1.value? [0] = some (pingTo otherId someAddr) ∧ someAddr ≠ addrOf 9 ∧
      s'.sentReq ≠ asked.sentReq := by
  refine ⟨_, rfl, rfl, by decide, fun hSame => ?_⟩
  have hThere := congrArg (fun t : Sent => (t.1.value? [0]).isSome) hSame
  exact absurd hThere (by decide)

end Net

end Lftp.Ports.DHT
