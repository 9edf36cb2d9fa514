import Lftp.Ports.DHTFind
import Lftp.Ports.DHTMessages
import Lftp.Ports.DHTState
import Lftp.Verified.XorDistance

/-!
# A search in the DHT

A `Search` asks nodes for others that are nearer to its target. It goes on with those that are
nearer than the nearest node which answered, and remembers which ones it asked.

`IsFeasible` compares bytes; it is the order of the exclusive-or distance
(`isFeasible_iff`). A run of a search is made of replies and of whatever else happens to the
nodes in between; `search_progress` says what holds in all of them.
-/

namespace Lftp.Ports.DHT

open Lftp.Verified
open Lftp.Ports.Bencode

/-- `Search`, but for its timer. -/
structure Search where
  targetId : Bytes
  bestNodeId : Option Bytes
  searched : XMap Bool
  depth : Nat
  wantPeers : Bool
  noseed : Bool
  bootstrap : Bool

namespace Search

/-- The constructor. -/
def new (id : Bytes) : Search := ⟨id, none, XMap.new, 0, false, false, false⟩

/-- The loop of `IsFeasible` from byte `i` on, with so many turns left. -/
def nearer (target best id : Bytes) : Nat → Nat → Bool
  | 0, _ => false
  | turns + 1, i =>
      let a := id.getD i 0 ^^^ target.getD i 0
      let b := best.getD i 0 ^^^ target.getD i 0
      if a < b then true
      else if b < a then false
      else nearer target best id turns (i + 1)

/-- `IsFeasible` -/
def isFeasible (s : Search) (id : Bytes) : Bool :=
  match s.bestNodeId with
  | none => true
  | some best => nearer s.targetId best id 20 0

/-- The name of the query and its arguments. -/
def query (s : Search) : String × List (Bytes × BeNode) :=
  let want := if s.bootstrap then
    [(bytes "want", BeNode.list [.str (bytes "n4"), .str (bytes "n6")])] else []
  if !s.wantPeers then ("find_node", (bytes "target", BeNode.str s.targetId) :: want)
  else
    let noseed := if s.noseed then [(bytes "noseed", BeNode.int 1)] else []
    ("get_peers", (bytes "info_hash", BeNode.str s.targetId) :: (noseed ++ want))

/-- A reply came from a node that was asked. -/
def replied (s : Search) (nodeId : Bytes) : Search :=
  if s.isFeasible nodeId then { s with bestNodeId := some nodeId, depth := s.depth + 1 } else s

end Search

/-- A search under way; `handed` is the requests that it handed to `SendMessage`, which drops one
when its queue is full. -/
structure Seeking where
  dht : DHT
  t : BitVec 32
  search : Search
  handed : List Request

/-- `NewQuery` on a machine that has the low byte first. -/
def newQuery (own : Bytes) (t : BitVec 32) (q : String) (a : List (Bytes × BeNode)) : BeNode :=
  let id := [0, 8, 16, 24].map fun k => UInt8.ofNat (t >>> k).toNat
  .dict [] [(bytes "a", .dict [] ((bytes "id", .str own) :: a)), (bytes "q", .str (bytes q)),
    (bytes "t", .str id), (bytes "y", .str (bytes "q"))]

/-- The node that `FoundNode` returns for an address which did not reply. -/
def foundPtr (s : DHT) (id : Bytes) (a : SockAddr) : Option Nat :=
  if !s.accepts id a then none
  else
    match s.nodes.value? id with
    | some p => some p
    | none =>
        match s.nodeByAddr.value? a.compact with
        | some _ => none
        | none => some s.nextNode

namespace Seeking

/-- `ContinueOn` -/
def continueOn (x : Seeking) (n : Node) : Seeking :=
  if x.search.searched.isThere n.id then x
  else
    let (q, a) := x.search.query
    { x with
      t := x.t + 1
      search := { x.search with searched := x.search.searched.add n.id true }
      handed := x.handed ++ [⟨newQuery x.dht.nodeId x.t q a, n.addr, n.id⟩] }

/-- A node of a reply: `FoundNode`, and `SetOrigin` with the node that replied. -/
def found (depth : Nat) (node : Nat) (x : Seeking) (r : Bytes × SockAddr) :
    Except Crash Seeking := do
  let ptr := x.dht.foundPtr r.1 r.2
  let dht ← x.dht.foundNode depth r.1 r.2 false
  match ptr with
  | none => .ok { x with dht := dht }
  | some p => do
      let n ← dht.deref p
      let x := { x with dht := dht }
      let x := if x.search.isFeasible n.id then x.continueOn n else x
      let dht ← x.dht.act depth (.setOrigin p node)
      .ok { x with dht := dht }

/-- What `HandlePacket` does for the search with a reply of `node`, from the lookup of the search
on; `nodeId` is the id that the request was sent to. -/
def reply (depth : Nat) (x : Seeking) (nodeId : Bytes) (node : Nat) (nodes nodes6 : Bytes) :
    Except Crash Seeking := do
  let x := { x with search := x.search.replied nodeId }
  let x ← (savedIn .inet nodes).foldlM (found depth node) x
  (savedIn .inet6 nodes6).foldlM (found depth node) x

/-- `ContinueOn` for each of some nodes. -/
def continueAll (x : Seeking) (ps : List Nat) : Except Crash Seeking :=
  ps.foldlM (fun x p => do
    let n ← x.dht.deref p
    .ok (x.continueOn n)) x

/-- `StartSearch` -/
def start (x : Seeking) : Except Crash Seeking := do
  let ns ← x.dht.findNodes x.search.targetId K true none
  -- too few good nodes
  let ns ← (if ns.length ≤ K / 2 then x.dht.findNodes x.search.targetId K false none else .ok ns)
  x.continueAll ns

/-- `RestartSearch` -/
def restart (x : Seeking) : Except Crash Seeking := do
  let ns ← x.dht.findNodes x.search.targetId K true (some x.search.searched)
  x.continueAll ns

/-- What happens to a search. -/
inductive Event
  /-- Anything else that is done with the nodes, and other queries. -/
  | others (dht : DHT) (t : BitVec 32)
  | reply (nodeId : Bytes) (node : Nat) (nodes nodes6 : Bytes)
  | restart

/-- The nodes stay in order, and ids of nodes have 20 bytes. -/
def Event.Fine : Event → Prop
  | .others dht _ => Inv dht
  | .reply nodeId _ _ _ => nodeId.length = 20
  | .restart => True

def act (depth : Nat) (x : Seeking) : Event → Except Crash Seeking
  | .others dht t => .ok { x with dht := dht, t := t }
  | .reply nodeId node nodes nodes6 => x.reply depth nodeId node nodes nodes6
  | .restart => x.restart

/-- The step relation of a search. -/
def Step (x : Seeking) (ev : Event) (x' : Seeking) : Prop :=
  ev.Fine ∧ ∃ depth, x.act depth ev = .ok x'

/-- A search that was just started. -/
def Init (x : Seeking) : Prop :=
  ∃ x₀ : Seeking, Inv x₀.dht ∧ x₀.search.targetId.length = 20 ∧ x₀.search.bestNodeId = none ∧
    x₀.search.searched = XMap.new ∧ x₀.handed = [] ∧ x₀.start = .ok x

end Seeking

/-! ## The order of the distances -/

/-- The distance of two ids. -/
theorem Search.nearer_iff {target best id : Bytes} {turns i : Nat}
    (ht : target.length = i + turns) (hb : best.length = i + turns) (hid : id.length = i + turns) :
    nearer target best id turns i = true ↔
      xorDist (id.drop i) (target.drop i) < xorDist (best.drop i) (target.drop i) := by
  induction turns generalizing i with
  | zero =>
      have hNil : ∀ s : Bytes, s.length = i + 0 → s.drop i = [] := fun s hs =>
        List.drop_eq_nil_of_le (by omega)
      rw [hNil _ ht, hNil _ hb, hNil _ hid]
      exact iff_of_false Bool.false_ne_true (Nat.lt_irrefl _)
  | succ turns ih =>
      have hHead : ∀ s : Bytes, s.length = i + (turns + 1) →
          s.drop i = s.getD i 0 :: s.drop (i + 1) := by
        intro s hs
        rw [List.getD_eq_getElem _ _ (by omega)]
        exact List.drop_eq_getElem_cons (by omega)
      have hRest := ih (i := i + 1) (by omega) (by omega) (by omega)
      rw [hHead _ ht, hHead _ hb, hHead _ hid, xorDist_cons_lt_iff (by simp [ht, hid])
        (by simp [ht, hb]), ← hRest, nearer]
      generalize id.getD i 0 ^^^ target.getD i 0 = a, best.getD i 0 ^^^ target.getD i 0 = b
      by_cases hLess : a < b
      · simp [hLess]
      · rw [if_neg hLess]
        by_cases hMore : b < a
        · have hNe : a ≠ b := fun hEq => hLess (hEq ▸ hMore)
          simp [hMore, hLess, hNe]
        · have hEq : a = b := UInt8.le_antisymm (UInt8.not_lt.mp hMore) (UInt8.not_lt.mp hLess)
          simp [hEq]

namespace Seeking

variable {x x' : Seeking} {n : Node} {id : Bytes}

/-- Ids have 20 bytes, and no id was asked twice. -/
structure Orderly (x : Seeking) : Prop where
  inv : Inv x.dht
  target : x.search.targetId.length = 20
  best : ∀ b, x.search.bestNodeId = some b → b.length = 20
  valid : x.search.searched.Valid
  remembered : ∀ r ∈ x.handed, x.search.searched.isThere r.nodeId = true
  nodup : (x.handed.map Request.nodeId).Nodup
  ids : ∀ r ∈ x.handed, r.nodeId.length = 20

/-- `IsFeasible` is the order of the distances. -/
theorem Orderly.isFeasible_iff (h : Orderly x) (hid : id.length = 20) :
    x.search.isFeasible id = true ↔ ∀ b, x.search.bestNodeId = some b →
      xorDist id x.search.targetId < xorDist b x.search.targetId := by
  unfold Search.isFeasible
  cases hBest : x.search.bestNodeId with
  | none => simp
  | some best =>
      have hLength := h.best best hBest
      have hNearer : Search.nearer x.search.targetId best id 20 0 = true ↔
          xorDist id x.search.targetId < xorDist best x.search.targetId :=
        Search.nearer_iff h.target hLength hid
      exact hNearer.trans ⟨fun hLess b hb => Option.some.inj hb ▸ hLess, fun hAll => hAll best rfl⟩

/-- Neither the target nor the best node is touched. -/
structure Continues (x x' : Seeking) : Prop where
  orderly : Orderly x'
  target : x'.search.targetId = x.search.targetId
  best : x'.search.bestNodeId = x.search.bestNodeId

theorem Continues.refl (h : Orderly x) : Continues x x := ⟨h, rfl, rfl⟩

theorem Continues.trans {x'' : Seeking} (h : Continues x x') (h' : Continues x' x'') :
    Continues x x'' :=
  ⟨h'.orderly, h'.target.trans h.target, h'.best.trans h.best⟩

/-- The nodes change, the search does not. -/
theorem Orderly.with_dht (h : Orderly x) {dht : DHT} (hInv : Inv dht) (t : BitVec 32) :
    Continues x { x with dht := dht, t := t } :=
  ⟨⟨hInv, h.target, h.best, h.valid, h.remembered, h.nodup, h.ids⟩, rfl, rfl⟩

/-- A node that was not asked yet is asked and remembered. -/
theorem Orderly.continueOn (h : Orderly x) (hid : n.id.length = 20) :
    Continues x (x.continueOn n) := by
  unfold Seeking.continueOn
  split
  · exact .refl h
  · rename_i hNew
    have hThere : ∀ k, (x.search.searched.add n.id true).isThere k = true ↔
        k = n.id ∨ x.search.searched.isThere k = true := by
      intro k
      rw [isThere_eq, isThere_eq, h.valid.value?_add]
      by_cases hk : k = n.id
      · simp [hk]
      · simp [hk]
    refine ⟨⟨h.inv, h.target, h.best, h.valid.add n.id true, ?_, ?_, ?_⟩, rfl, rfl⟩
    · intro r hr
      rcases List.mem_append.mp hr with hOld | hLast
      · exact (hThere r.nodeId).mpr (.inr (h.remembered r hOld))
      · rw [List.mem_singleton.mp hLast]
        exact (hThere n.id).mpr (.inl rfl)
    · show ((x.handed ++ [_]).map Request.nodeId).Nodup
      rw [List.map_append, List.map_singleton, List.nodup_append_comm]
      refine List.nodup_cons.mpr ⟨fun hIn => ?_, h.nodup⟩
      rcases List.mem_map.mp hIn with ⟨r, hr, hId⟩
      have hAsked := h.remembered r hr
      rw [hId] at hAsked
      exact hNew hAsked
    · intro r hr
      rcases List.mem_append.mp hr with hOld | hLast
      · exact h.ids r hOld
      · rw [List.mem_singleton.mp hLast]
        exact hid

/-- A record is that of a node with an id of 20 bytes. -/
theorem deref_id {d : DHT} (h : Inv d) (p : Nat) :
    Yields Any (fun n => n.id.length = 20) (d.deref p) := by
  unfold deref
  split
  · rename_i n hn
    exact h.routes.ids p n hn
  · trivial

theorem setOrigin_inv {d : DHT} (h : Inv d) (depth p o : Nat) :
    Yields Any Inv (d.act depth (.setOrigin p o)) := by
  by_cases hLive : d.Live p ∧ d.Live o
  · have hEnabled : d.Enabled (.setOrigin p o) := hLive
    exact (act_spec h hEnabled depth).mono (fun _ _ => trivial) fun _ hs => hs.1
  · show Yields Any Inv (d.deref p >>= fun n => d.deref o >>= fun m => _)
    unfold deref
    cases hp : d.heap p with
    | none => trivial
    | some n =>
        cases ho : d.heap o with
        | none => trivial
        | some m => exact absurd ⟨live_of_heap hp, live_of_heap ho⟩ hLive

theorem Orderly.found (h : Orderly x) {r : Bytes × SockAddr} (hr : r.1.length = 20)
    (depth node : Nat) : Yields Any (Continues x) (x.found depth node r) := by
  have hNode : Yields Any Inv (x.dht.foundNode depth r.1 r.2 false) :=
    (foundNode_spec h.inv hr depth r.2 false).mono (fun _ _ => trivial) fun _ hs => hs.inv
  apply hNode.bind
  intro dht hInv
  have hMoved := h.with_dht hInv x.t
  cases x.dht.foundPtr r.1 r.2 with
  | none => exact hMoved
  | some p =>
      apply (deref_id hInv p).bind
      intro n hid
      have hAsked : Continues x (if x.search.isFeasible n.id
          then Seeking.continueOn { x with dht := dht } n else { x with dht := dht }) := by
        split
        · exact hMoved.trans (hMoved.orderly.continueOn hid)
        · exact hMoved
      apply (setOrigin_inv hAsked.orderly.inv depth p node).bind
      intro dht' hInv'
      exact hAsked.trans (hAsked.orderly.with_dht hInv' _)

theorem Orderly.foundAll (h : Orderly x) {rs : List (Bytes × SockAddr)}
    (hr : ∀ r ∈ rs, r.1.length = 20) (depth node : Nat) :
    Yields Any (Continues x) (rs.foldlM (Seeking.found depth node) x) := by
  let I : List (Bytes × SockAddr) → Seeking → Prop := fun l y =>
    Continues x y ∧ ∀ r ∈ l, r.1.length = 20
  have hLoop : Yields Any (I []) (rs.foldlM (Seeking.found depth node) x) := by
    apply Yields.foldlM (I := I) _ ⟨.refl h, hr⟩
    intro r l y hy
    have hStep := hy.1.orderly.found (hy.2 r List.mem_cons_self) depth node
    exact hStep.imp fun z hz => ⟨hy.1.trans hz, fun k hk => hy.2 k (List.mem_cons_of_mem r hk)⟩
  exact hLoop.imp fun _ hy => hy.1

theorem Orderly.continueAll (h : Orderly x) (ps : List Nat) :
    Yields Any (Continues x) (x.continueAll ps) := by
  apply Yields.foldlM (I := fun _ y => Continues x y) _ (.refl h)
  intro p _ y hy
  apply (deref_id hy.orderly.inv p).bind
  intro n hid
  exact hy.trans (hy.orderly.continueOn hid)

/-! ## Runs -/

/-- The target stays; and the best node stays, or is replaced by one that is nearer. -/
structure Progress (x x' : Seeking) : Prop where
  orderly : Orderly x'
  target : x'.search.targetId = x.search.targetId
  best : x'.search.bestNodeId = x.search.bestNodeId ∨
    ∃ b', x'.search.bestNodeId = some b' ∧ ∀ b, x.search.bestNodeId = some b →
      xorDist b' x.search.targetId < xorDist b x.search.targetId

theorem Continues.progress (h : Continues x x') : Progress x x' :=
  ⟨h.orderly, h.target, .inl h.best⟩

theorem Progress.continue {x'' : Seeking} (h : Progress x x') (h' : Continues x' x'') :
    Progress x x'' := ⟨h'.orderly, h'.target.trans h.target, h'.best.symm ▸ h.best⟩

theorem Orderly.replied (h : Orderly x) (hid : id.length = 20) :
    Progress x { x with search := x.search.replied id } := by
  unfold Search.replied
  split
  · rename_i hFeasible
    have hLess := (h.isFeasible_iff hid).mp hFeasible
    refine ⟨⟨h.inv, h.target, ?_, h.valid, h.remembered, h.nodup, h.ids⟩, rfl,
      .inr ⟨id, rfl, hLess⟩⟩
    intro b hb
    exact Option.some.inj hb ▸ hid
  · exact (Continues.refl h).progress

theorem length_savedIn (f : Family) (data : Bytes) : ∀ r ∈ savedIn f data, r.1.length = 20 := by
  intro r hr
  rcases List.mem_filterMap.mp hr with ⟨c, hc, hSome⟩
  rcases Option.map_eq_some_iff.mp hSome with ⟨a, -, hPair⟩
  have hLength := length_of_mem_records hc
  rw [← hPair]
  show (c.take 20).length = 20
  exact List.length_take_of_le (by omega)

theorem Orderly.act (h : Orderly x) {ev : Event} (hEv : ev.Fine) (depth : Nat) :
    Yields Any (Progress x) (x.act depth ev) := by
  cases ev with
  | others dht t => exact (h.with_dht hEv t).progress
  | reply nodeId node nodes nodes6 =>
      have hReplied := h.replied hEv
      apply (hReplied.orderly.foundAll (length_savedIn .inet nodes) depth node).bind
      intro y hy
      apply (hy.orderly.foundAll (length_savedIn .inet6 nodes6) depth node).imp
      intro z hz
      exact hReplied.continue (hy.trans hz)
  | restart =>
      show Yields Any (Progress x) (x.dht.findNodes _ _ _ _ >>= x.continueAll)
      apply (yields_any _).bind
      intro ns _
      exact (h.continueAll ns).imp fun _ hy => hy.progress

theorem Init.orderly (h : Init x) : Orderly x := by
  rcases h with ⟨x₀, hInv, hTarget, hBest, hSearched, hHanded, hStart⟩
  have hFirst : Orderly x₀ := by
    refine ⟨hInv, hTarget, ?_, hSearched ▸ XMap.valid_new, ?_, ?_, ?_⟩
    · intro b hb
      rw [hBest] at hb
      exact absurd hb (Option.some_ne_none b).symm
    · simp [hHanded]
    · simp [hHanded]
    · simp [hHanded]
  have hSpec : Yields Any (Continues x₀) x₀.start := by
    apply (yields_any _).bind
    intro ns _
    apply (yields_any _).bind
    intro ns' _
    exact hFirst.continueAll ns'
  rw [hStart] at hSpec
  exact hSpec.orderly

theorem Step.progress {ev : Event} (hStep : Step x ev x') (h : Orderly x) : Progress x x' := by
  rcases hStep with ⟨hFine, depth, hAct⟩
  have hSpec := h.act hFine depth
  rw [hAct] at hSpec
  exact hSpec

theorem reach_orderly (h : Reach Init Step x) : Orderly x :=
  h.invariant (fun _ => Init.orderly) fun _ _ _ hx hStep => (hStep.progress hx).orderly

/-- The best node is no farther than before. -/
def NoFarther (x x' : Seeking) : Prop :=
  x'.search.targetId = x.search.targetId ∧
    ∀ b, x.search.bestNodeId = some b → ∃ b', x'.search.bestNodeId = some b' ∧
      xorDist b' x.search.targetId ≤ xorDist b x.search.targetId

theorem NoFarther.step {x'' : Seeking} (h : NoFarther x x') (h' : Progress x' x'') :
    NoFarther x x'' := by
  refine ⟨h'.target.trans h.1, fun b hb => ?_⟩
  rcases h.2 b hb with ⟨b', hb', hLe⟩
  rcases h'.best with hSame | ⟨b'', hb'', hLess⟩
  · exact ⟨b', hSame.trans hb', hLe⟩
  · have hNearer := hLess b' hb'
    rw [h.1] at hNearer
    exact ⟨b'', hb'', Nat.le_trans (Nat.le_of_lt hNearer) hLe⟩

/-- In every run of a search: no node is asked twice; `IsFeasible` is the order of the distances
to the target; the best node is only replaced by one that is nearer, and so is never farther than
at any time before. -/
theorem search_progress (h : Reach Init Step x) :
    (x.handed.map Request.nodeId).Nodup ∧
      (∀ id : Bytes, id.length = 20 → (x.search.isFeasible id = true ↔
        ∀ b, x.search.bestNodeId = some b →
          xorDist id x.search.targetId < xorDist b x.search.targetId)) ∧
      (∀ ev x', Step x ev x' → x'.search.bestNodeId = x.search.bestNodeId ∨
        ∃ b', x'.search.bestNodeId = some b' ∧ ∀ b, x.search.bestNodeId = some b →
          xorDist b' x.search.targetId < xorDist b x.search.targetId) ∧
      ∀ x', Reach (· = x) Step x' → NoFarther x x' := by
  have hOrderly := reach_orderly h
  refine ⟨hOrderly.nodup, fun id hid => hOrderly.isFeasible_iff hid,
    fun ev x' hStep => (hStep.progress hOrderly).best, fun x' hRun => ?_⟩
  have hBoth : Orderly x' ∧ NoFarther x x' := by
    apply hRun.invariant (I := fun y => Orderly y ∧ NoFarther x y)
    · intro y hy
      rw [hy]
      exact ⟨hOrderly, rfl, fun b hb => ⟨b, hb, Nat.le_refl _⟩⟩
    · intro y ev z hy hStep
      have hProgress := hStep.progress hy.1
      exact ⟨hProgress.orderly, hy.2.step hProgress⟩
  exact hBoth.2

/-- A search among the one node. -/
def firstSearch : Seeking := ⟨oneNode, 0, Search.new (idOf 7), []⟩

/-- The node is asked and answers. -/
theorem search_progress_oneNode :
    ∃ x, Reach Init Step x ∧ x.search.bestNodeId = some otherId ∧ x.handed ≠ [] ∧
      (x.handed.map Request.nodeId).Nodup := by
  let run := firstSearch.start >>= fun x => x.reply 1 otherId 0 [] []
  have hRun : run.toOption.any (fun y => y.search.bestNodeId = some otherId && !y.handed.isEmpty) =
      true := by decide +kernel
  cases hy : run with
  | error e =>
      rw [hy] at hRun
      exact absurd hRun Bool.false_ne_true
  | ok y =>
      rw [hy] at hRun
      have hBoth : y.search.bestNodeId = some otherId ∧ y.handed ≠ [] := by
        simpa [Except.toOption] using hRun
      rcases exists_of_bind hy with ⟨x, hx, hReply⟩
      have hStart : Reach Init Step x :=
        .start ⟨firstSearch, reach_inv reach_oneNode, rfl, rfl, rfl, rfl, hx⟩
      have hReach : Reach Init Step y := .next (.reply otherId 0 [] []) hStart ⟨rfl, 1, hReply⟩
      exact ⟨y, hReach, hBoth.1, hBoth.2, (search_progress hReach).1⟩

end Seeking

end Lftp.Ports.DHT
