import Lftp.Ports.DHTRuns

/-!
# Removing the bad nodes

From time to time `Do` goes over all nodes and removes the bad ones. The loop has the entry of
the next node stored while it works on the present one; and to remove a node may be to remove
its origin as well, and the origin of that.

`Spares` is that the stored entry is none of these. The loop goes on over nodes that are there
exactly as long as this is so (`sweep_fine_iff`).
-/

namespace Lftp.Ports.DHT

open Lftp.Verified

variable {s s' t u : DHT} {p q : Nat} {n : Node} {l : List (XMap.Entry Nat)}

/-! ## The loop -/

/-- `nodes.each_next`, with the node it returns. -/
def eachNextNode (s : DHT) : Except Crash (DHT × Option Nat) :=
  match s.nodes.eachNext with
  | none => .error .invalid
  | some (nodes, e) => .ok ({ s with nodes := nodes }, e.map XMap.Entry.value)

/-- `nodes.each_begin` -/
def eachBeginNode (s : DHT) : Except Crash (DHT × Option Nat) :=
  match s.nodes.eachBegin with
  | none => .error .invalid
  | some (nodes, e) => .ok ({ s with nodes := nodes }, e.map XMap.Entry.value)

/-- The body of the loop. -/
def sweepNode (depth : Nat) (s : DHT) (p : Nat) : Except Crash DHT := do
  let n ← s.deref p
  if n.isBad then s.removeNode depth p else .ok s

/-- One turn of the loop, with so many nested calls of `RemoveNode`. -/
def sweepTurn (depth : Nat) : DHT × Option Nat → Except Crash ((DHT × Option Nat) ⊕ DHT)
  | (s, none) => .ok (.inr s)
  | (s, some p) => do
      let s ← s.sweepNode depth p
      let x ← s.eachNextNode
      .ok (.inl x)

/-- From one head of the loop to the next. -/
def SweepStep (x : DHT × Option Nat) (depth : Nat) (x' : DHT × Option Nat) : Prop :=
  sweepTurn depth x = .ok (.inl x')

/-- The heads of the loop that begins in `s`. -/
def Swept (s : DHT) (x : DHT × Option Nat) : Prop :=
  Reach (fun x => s.eachBeginNode = .ok x) SweepStep x

/-- The node of this turn is there, and the turn follows no pointer to something freed. -/
structure Fine (x : DHT × Option Nat) : Prop where
  live : ∀ p, x.2 = some p → x.1.Live p
  valid : ∀ depth, sweepTurn depth x ≠ .error .invalid

/-- Of the nodes that go when the node of this turn is removed none is that of the stored entry. -/
def Spares (x : DHT × Option Nat) : Prop :=
  ∀ p n, x.2 = some p → x.1.heap p = some n → n.isBad = true → ∀ t c, Chain x.1 p t c →
    ∀ e ∈ x.1.nodes.entries, e.value ∈ c → x.1.nodes.eachEntry ≠ some e.addr

/-! ## Moving the iterator -/

/-- Only the iterator of `nodes` is moved. -/
theorem Inv.moved (h : Inv s) {nodes : XMap Nat} (hSize : nodes.hashSize = s.nodes.hashSize)
    (hMap : nodes.map = s.nodes.map) (hValid : nodes.Valid) : Inv { s with nodes := nodes } where
  routes := ⟨h.routes.ladder, h.routes.wellFormed, h.routes.placed, h.routes.nodup,
    h.routes.bounded, h.routes.own, h.routes.ids⟩
  index := by
    have hSame : nodes.value? = s.nodes.value? := by
      funext k
      unfold XMap.value? XMap.find
      rw [hSize, hMap]
    exact ⟨hValid, h.index.validByAddr, by
      show IsIndex nodes.value? s.heap Node.id
      rw [hSame]
      exact h.index.byId, h.index.byAddr, h.index.fresh⟩

/-- An entry of the index is that of a node which is there. -/
theorem IndexOk.live_value (h : IndexOk s) {e : XMap.Entry Nat} (he : e ∈ s.nodes.entries) :
    s.Live e.value := by
  have hFound : s.nodes.value? e.key = some e.value :=
    h.validNodes.value?_eq_some_iff.mpr ⟨e, he, rfl, rfl⟩
  rcases (h.byId _ _).mp hFound with ⟨n, hn, -⟩
  exact live_of_heap hn

/-- The entries of the index are those of different nodes. -/
theorem IndexOk.entry_unique (h : IndexOk s) {e e' : XMap.Entry Nat} (he : e ∈ s.nodes.entries)
    (he' : e' ∈ s.nodes.entries) (hValue : e.value = e'.value) : e = e' := by
  have hKey : ∀ a ∈ s.nodes.entries, ∃ n, s.heap a.value = some n ∧ n.id = a.key := fun a ha =>
    (h.byId _ _).mp (h.validNodes.value?_eq_some_iff.mpr ⟨a, ha, rfl, rfl⟩)
  rcases hKey e he with ⟨n, hn, hId⟩
  rcases hKey e' he' with ⟨n', hn', hId'⟩
  rw [hValue, hn'] at hn
  have hSame : e.key = e'.key := by rw [← hId, ← hId', Option.some.inj hn]
  exact List.inj_on_of_nodup_map h.validNodes.keys he he' hSame

/-- The loop is under way and may go on. -/
structure Sweeping (x : DHT × Option Nat) : Prop where
  inv : Inv x.1
  pending : ∃ l, XMap.Pending x.1.nodes l
  live : ∀ p, x.2 = some p → x.1.Live p

theorem eachNextNode_spec (h : Inv s) (hPending : XMap.Pending s.nodes l) :
    Yields Never Sweeping s.eachNextNode := by
  rcases hPending.eachNext with ⟨nodes, hNext, hRest, hMap, -⟩
  have hSame := XMap.eachLoop_same hNext
  unfold eachNextNode
  rw [hNext]
  constructor
  · exact h.moved hSame.1 hSame.2.1 hRest.valid
  · exact ⟨_, hRest⟩
  · intro p hp
    rcases Option.map_eq_some_iff.mp hp with ⟨e, he, hValue⟩
    have hEntry : e ∈ s.nodes.entries := hPending.suffix.subset (List.mem_of_head? he)
    rw [← hValue]
    exact h.index.live_value hEntry

theorem eachBeginNode_spec (h : Inv s) : Yields Never Sweeping s.eachBeginNode := by
  have hValid := h.index.validNodes
  let nodes := { s.nodes with eachEntry := none, eachHash := -1 }
  have hStart : Inv { s with nodes := nodes } := h.moved rfl rfl hValid.pending_start.valid
  exact eachNextNode_spec hStart hValid.pending_start

/-! ## Removing nodes under the loop -/

/-- `dropNode` takes the entry of the node out of the index. -/
theorem dropNode_nodes (h : Inv s) (hp : s.Live p) (hDrop : s.dropNode p = .ok s') :
    ∃ e ∈ s.nodes.entries, e.value = p ∧ s'.nodes = s.nodes.removeEntry e.addr := by
  rcases (removeRoute_spec h.routes hp).exists with ⟨t, ht, hThin, -⟩
  rcases (hThin.rerouted.live_iff.mpr hp).exists with ⟨n, hn⟩
  have hNodes : t.nodes = s.nodes := by rw [hThin.rerouted.same]
  have hFound : t.nodes.value? n.id = some p := (hThin.keeps h).inv.index.byId.found hn
  have hEntry : ∃ e, t.nodes.find n.id = some e ∧ e.value = p := Option.map_eq_some_iff.mp hFound
  rcases hEntry with ⟨e, hFind, hValue⟩
  have hValid := (hThin.keeps h).inv.index.validNodes
  have hMem := (hValid.find_eq_some_iff.mp hFind).1
  unfold dropNode at hDrop
  rw [ht, ok_bind, deref_eq hn, ok_bind] at hDrop
  unfold removeId at hDrop
  dsimp only at hDrop
  rw [hFound] at hDrop
  rw [← Except.ok.inj hDrop, ← hNodes]
  refine ⟨e, hMem, hValue, ?_⟩
  show t.nodes.remove n.id = _
  unfold XMap.remove
  rw [hFind]

/-- The stored entry is that of none of the nodes. -/
def Leaves (s : DHT) (c : List Nat) : Prop :=
  ∀ e ∈ s.nodes.entries, e.value ∈ c → s.nodes.eachEntry ≠ some e.addr

/-- Nodes that are to be dropped while the loop is under way. -/
structure Dropping (c : List Nat) (u : DHT) : Prop where
  inv : Inv u
  nodup : c.Nodup
  live : ∀ q ∈ c, u.Live q

theorem Dropping.step {c : List Nat} (h : Dropping (q :: c) s) (hDrop : s.dropNode q = .ok s') :
    Dropping c s' := by
  have hNodup := List.nodup_cons.mp h.nodup
  have hSpec := dropNode_spec h.inv (h.live q List.mem_cons_self)
  rw [hDrop] at hSpec
  refine ⟨hSpec.1.inv, hNodup.2, fun x hx => hSpec.2 x ?_ (h.live x (List.mem_cons_of_mem q hx))⟩
  intro hEq
  exact hNodup.1 (hEq ▸ hx)

theorem entries_removeEntry_subset (m : XMap Nat) (a : Nat) :
    (m.removeEntry a).entries ⊆ m.entries := by
  rw [XMap.entries_removeEntry]
  exact List.filter_subset_self _

/-- Dropping other nodes than the one stored does not disturb the loop. -/
theorem Dropping.pending {c : List Nat} (h : Dropping c s) (hLeaves : Leaves s c)
    (hPending : XMap.Pending s.nodes l) (hDrop : c.foldlM dropNode s = .ok u) :
    Inv u ∧ ∃ l, XMap.Pending u.nodes l := by
  induction c generalizing s l with
  | nil =>
      rw [← Except.ok.inj hDrop]
      exact ⟨h.inv, l, hPending⟩
  | cons q c ih =>
      rw [List.foldlM_cons] at hDrop
      rcases exists_of_bind hDrop with ⟨s', hFirst, hRest⟩
      rcases dropNode_nodes h.inv (h.live q List.mem_cons_self) hFirst with
        ⟨e, he, hValue, hNodes⟩
      have hOther := hLeaves e he (hValue ▸ List.mem_cons_self)
      have hUnlinked := hPending.unlink he hOther
      rw [← hNodes] at hUnlinked
      apply ih (h.step hFirst) _ hUnlinked hRest
      intro e' he' hc
      rw [hNodes] at he' ⊢
      exact hLeaves e' (entries_removeEntry_subset _ _ he') (List.mem_cons_of_mem q hc)

/-- What is dropped has no entry afterwards, and the iterator stays where it is. -/
theorem Dropping.freed {c : List Nat} (h : Dropping c s) (hDrop : c.foldlM dropNode s = .ok u) :
    u.nodes.eachEntry = s.nodes.eachEntry ∧ u.nodes.eachHash = s.nodes.eachHash ∧
      u.nodes.hashSize = s.nodes.hashSize ∧
      ∀ e ∈ u.nodes.entries, e ∈ s.nodes.entries ∧ e.value ∉ c := by
  induction c generalizing s with
  | nil =>
      rw [← Except.ok.inj hDrop]
      exact ⟨rfl, rfl, rfl, fun e he => ⟨he, List.not_mem_nil⟩⟩
  | cons q c ih =>
      rw [List.foldlM_cons] at hDrop
      rcases exists_of_bind hDrop with ⟨s', hFirst, hRest⟩
      rcases dropNode_nodes h.inv (h.live q List.mem_cons_self) hFirst with
        ⟨e, he, hValue, hNodes⟩
      have hTail := ih (h.step hFirst) hRest
      rw [hNodes] at hTail
      refine ⟨hTail.1, hTail.2.1, hTail.2.2.1, fun e' he' => ?_⟩
      have hKept := (hTail.2.2.2 e' he').1
      rw [XMap.entries_removeEntry, List.mem_filter, decide_eq_true_eq] at hKept
      refine ⟨hKept.1, fun hIn => ?_⟩
      rcases List.mem_cons.mp hIn with hq | hc
      · have hSame := h.inv.index.entry_unique hKept.1 he (hq.trans hValue.symm)
        exact hKept.2 (congrArg _ hSame)
      · exact (hTail.2.2.2 e' he').2 hc

theorem Dropping.total {c : List Nat} (h : Dropping c s) : ∃ u, c.foldlM dropNode s = .ok u := by
  induction c generalizing s with
  | nil => exact ⟨s, rfl⟩
  | cons q c ih =>
      rcases (dropNode_spec h.inv (h.live q List.mem_cons_self)).exists with ⟨s', hFirst, -⟩
      rcases ih (h.step hFirst) with ⟨u, hRest⟩
      refine ⟨u, ?_⟩
      rw [List.foldlM_cons, hFirst]
      exact hRest

/-- Calls that end do so at the depth of their chain. -/
theorem Chain.removeNode_eq {c : List Nat} (hChain : Chain s p t c) :
    s.removeNode c.length p = c.reverse.foldlM dropNode t := by
  induction hChain with
  | @last s t p hBlame =>
      show (s.blame p >>= _) = (t.dropNode p >>= pure)
      rw [hBlame, bind_pure]
      rfl
  | @nest s s' t p o m c hBlame hm _ ih =>
      rw [List.reverse_cons, List.foldlM_append, ← ih]
      show (s.blame p >>= _) = _
      rw [hBlame]
      show (s'.deref o >>= fun m => removeNode c.length (s'.blackListAdd m.addr) o
        >>= fun u => u.dropNode p) = _
      rw [deref_eq hm, ok_bind]
      apply bind_congr
      intro u
      show u.dropNode p = (u.dropNode p >>= pure)
      rw [bind_pure]

/-- The calls of a chain leave the iterator, and come back to nodes that are there. -/
theorem Chain.dropping {c : List Nat} (hChain : Chain s p t c) (h : Inv s) (hp : s.Live p) :
    Dropping c.reverse t ∧ t.nodes = s.nodes := by
  rcases hChain.touched h hp with ⟨hTouched, hLive⟩
  have hNodup : c.reverse.Nodup := List.nodup_reverse.mpr (hChain.nodup h hp)
  exact ⟨⟨(hTouched.keeps h).inv, hNodup, fun q hq =>
    hTouched.live (hLive q (List.mem_reverse.mp hq))⟩, hTouched.nodes⟩

/-! ## One turn -/

/-- The nodes of a chain are dropped and the stored one stays. -/
theorem Chain.turn_ok {c : List Nat} (hChain : Chain s p t c) (h : Sweeping (s, some p))
    (hLeaves : Leaves s c) :
    ∃ u x, c.reverse.foldlM dropNode t = .ok u ∧ u.eachNextNode = .ok x ∧ Sweeping x := by
  rcases h.pending with ⟨l, hPending⟩
  rcases hChain.dropping h.inv (h.live p rfl) with ⟨hDropping, hNodes⟩
  rcases hDropping.total with ⟨u, hDrop⟩
  have hLeft : Leaves t c.reverse := by
    intro e he hc
    rw [hNodes] at he ⊢
    exact hLeaves e he (List.mem_reverse.mp hc)
  have hStill : XMap.Pending t.nodes l := hNodes ▸ hPending
  rcases hDropping.pending hLeft hStill hDrop with ⟨hInv, l', hRest⟩
  rcases (eachNextNode_spec hInv hRest).exists with ⟨x, hx, hSweeping⟩
  exact ⟨u, x, hDrop, hx, hSweeping⟩

/-- The stored one is dropped as well. -/
theorem Chain.turn_freed {c : List Nat} (hChain : Chain s p t c) (h : Sweeping (s, some p))
    {e : XMap.Entry Nat} (hc : e.value ∈ c) (hStored : s.nodes.eachEntry = some e.addr)
    (he : e ∈ s.nodes.entries) :
    ∃ u, c.reverse.foldlM dropNode t = .ok u ∧ u.eachNextNode = .error .invalid := by
  rcases h.pending with ⟨l, hPending⟩
  rcases hChain.dropping h.inv (h.live p rfl) with ⟨hDropping, hNodes⟩
  rcases hDropping.total with ⟨u, hDrop⟩
  rcases hDropping.freed hDrop with ⟨hEntry, hHash, hSize, hGone⟩
  rw [hNodes] at hEntry hHash hSize hGone
  refine ⟨u, hDrop, ?_⟩
  have hInside := hPending.inside hStored
  have hFreed : e.addr ∉ u.nodes.entries.map XMap.Entry.addr := by
    intro hIn
    rcases List.mem_map.mp hIn with ⟨e', he', hAddr⟩
    have hOld := hGone e' he'
    have hSame := List.inj_on_of_nodup_map h.inv.index.validNodes.addrs hOld.1 he hAddr
    exact hOld.2 (List.mem_reverse.mpr (hSame ▸ hc))
  have hNone : u.nodes.eachNext = none :=
    XMap.eachNext_freed (by rw [hHash, hSize]; exact hInside) (hEntry.trans hStored) hFreed
  unfold eachNextNode
  rw [hNone]

/-- What a turn may come to. -/
theorem Sweeping.turn (h : Sweeping (s, some p)) (depth : Nat) :
    sweepTurn depth (s, some p) = .error .unfinished ∨
      (∃ x, sweepTurn depth (s, some p) = .ok (.inl x) ∧ Sweeping x) ∨
      sweepTurn depth (s, some p) = .error .invalid ∧ ¬ Spares (s, some p) := by
  have hp := h.live p rfl
  rcases hp.exists with ⟨n, hn⟩
  have hTurn : sweepTurn depth (s, some p) = ((if n.isBad then s.removeNode depth p else .ok s) >>=
      fun u => u.eachNextNode >>= fun x => .ok (.inl x)) := by
    unfold sweepTurn sweepNode
    dsimp only
    rw [deref_eq hn]
    rfl
  rw [hTurn]
  cases hBad : n.isBad
  · rcases h.pending with ⟨l, hPending⟩
    rcases (eachNextNode_spec h.inv hPending).exists with ⟨x, hx, hSweeping⟩
    right; left
    refine ⟨x, ?_, hSweeping⟩
    show (s.eachNextNode >>= _) = _
    rw [hx]
    rfl
  · rcases removeNode_eq h.inv hp depth with hOut | ⟨t, c, hChain, hDrop⟩
    · left
      rw [if_pos rfl, hOut]
      rfl
    · right
      rw [if_pos rfl, hDrop]
      by_cases hLeaves : Leaves s c
      · left
        rcases hChain.turn_ok h hLeaves with ⟨u, x, hu, hx, hSweeping⟩
        refine ⟨x, ?_, hSweeping⟩
        rw [hu, ok_bind, hx]
        rfl
      · right
        unfold Leaves at hLeaves
        push Not at hLeaves
        rcases hLeaves with ⟨e, he, hc, hStored⟩
        rcases hChain.turn_freed h hc hStored he with ⟨u, hu, hx⟩
        constructor
        · rw [hu, ok_bind, hx]
          rfl
        · intro hSpares
          exact hSpares p n rfl hn hBad t c hChain e he hc hStored

theorem Sweeping.step {x x' : DHT × Option Nat} {depth : Nat} (h : Sweeping x)
    (hStep : SweepStep x depth x') : Sweeping x' := by
  rcases x with ⟨s, cur⟩
  unfold SweepStep at hStep
  cases cur with
  | none => cases hStep
  | some p =>
      rcases h.turn depth with hOut | ⟨y, hy, hSweeping⟩ | hInvalid
      · rw [hOut] at hStep
        cases hStep
      · rw [hy] at hStep
        cases hStep
        exact hSweeping
      · rw [hInvalid.1] at hStep
        cases hStep

/-- A turn goes well exactly when the stored entry is spared. -/
theorem Sweeping.fine_iff {x : DHT × Option Nat} (h : Sweeping x) : Fine x ↔ Spares x := by
  rcases x with ⟨s, cur⟩
  constructor
  · intro hFine p n hp hn hBad t c hChain e he hc hStored
    have hCur : cur = some p := hp
    subst hCur
    rcases hChain.turn_freed h hc hStored he with ⟨u, hu, hx⟩
    apply hFine.valid c.length
    unfold sweepTurn sweepNode
    dsimp only
    rw [deref_eq hn, ok_bind, if_pos hBad, hChain.removeNode_eq, hu, ok_bind, hx]
    rfl
  · intro hSpares
    refine ⟨h.live, fun depth hInvalid => ?_⟩
    cases cur with
    | none => cases hInvalid
    | some p =>
        rcases h.turn depth with hOut | ⟨y, hy, -⟩ | hNot
        · rw [hOut] at hInvalid
          cases hInvalid
        · rw [hy] at hInvalid
          cases hInvalid
        · exact hNot.2 hSpares

theorem sweeping_of_swept (h : Inv s) {x : DHT × Option Nat} (hSwept : Swept s x) :
    Sweeping x := by
  apply hSwept.invariant
  · intro y hy
    have hSpec := eachBeginNode_spec h
    rw [hy] at hSpec
    exact hSpec
  · exact fun y depth y' hSweeping hStep => hSweeping.step hStep

/-- The loop visits only nodes that are there, and follows no pointer to a freed entry, exactly
when at no turn the stored entry goes with the node that is removed. -/
theorem sweep_fine_iff (h : Reach Init Step s) :
    (∀ x, Swept s x → Fine x) ↔ ∀ x, Swept s x → Spares x := by
  have hInv := reach_inv h
  constructor
  · exact fun hFine x hx => (sweeping_of_swept hInv hx).fine_iff.mp (hFine x hx)
  · exact fun hSpares x hx => (sweeping_of_swept hInv hx).fine_iff.mpr (hSpares x hx)

/-! ## An origin that is next -/

/-- Some of the calls that may be made, as a test. -/
def permitted (s : DHT) : Event → Bool
  | .foundNode id _ _ => id.length = 20
  | .setOrigin p o => (s.heap p).isSome && (s.heap o).isSome
  | .lostPing p | .removeNode p => (s.heap p).isSome
  | .changeNodeId p id => (s.heap p).isSome && id.length = 20 && (s.nodes.value? id).isNone
  | _ => false

theorem enabled_of_permitted {ev : Event} (h : s.permitted ev = true) : s.Enabled ev := by
  cases ev with
  | foundNode id a responded => exact (decide_eq_true_eq (p := id.length = 20)).mp h
  | setOrigin p o => exact Bool.and_eq_true_iff.mp h
  | lostPing p => exact h
  | removeNode p => exact h
  | changeNodeId p id =>
      have hAll : ((s.heap p).isSome = true ∧ id.length = 20) ∧
          (s.nodes.value? id).isNone = true := by
        simpa [permitted] using h
      exact ⟨hAll.1.1, hAll.1.2, Option.isNone_iff_eq_none.mp hAll.2⟩
  | _ => exact absurd h Bool.false_ne_true

/-- The state after some permitted calls. -/
def follow (s : DHT) : List Event → Option DHT
  | [] => some s
  | ev :: evs =>
      if s.permitted ev then
        match s.act 2 ev with
        | .ok s' => follow s' evs
        | .error _ => none
      else none

theorem reach_follow {evs : List Event} (h : Reach Init Step s) (hs : s.follow evs = some s') :
    Reach Init Step s' := by
  induction evs generalizing s with
  | nil => exact Option.some.inj hs ▸ h
  | cons ev evs ih =>
      unfold follow at hs
      split at hs
      · rename_i hPermitted
        split at hs
        · rename_i t hAct
          exact ih (.next ev h ⟨enabled_of_permitted hPermitted, 2, hAct⟩) hs
        · exact absurd hs (Option.some_ne_none s').symm
      · exact absurd hs (Option.some_ne_none s').symm

def idOf (k : UInt8) : Bytes := List.replicate 19 0 ++ [k]

def addrOf (k : UInt8) : SockAddr := ⟨.inet, [8, 8, 8, k], 6881, rfl, someAddr.port_lt⟩

/-- A node that node 0 told us about does not answer and is removed. -/
def lostNode (p : Nat) : List Event :=
  [.foundNode (idOf 2) (addrOf 2) false, .setOrigin p 0, .lostPing p, .lostPing p, .removeNode p]

/-- Sixteen such nodes, and one that is still there; node 0 changes its id meanwhile, and so
comes after it in the index. -/
def blamedEvents : List Event :=
  [.foundNode (idOf 1) (addrOf 1) false] ++ (List.range 16).flatMap (fun i => lostNode (i + 1)) ++
    [.foundNode (idOf 2) (addrOf 2) false, .changeNodeId 0 (idOf 3), .setOrigin 17 0, .lostPing 17,
      .lostPing 17]

/-- The first turn of the loop follows a pointer to something freed. -/
def firstTurnFails (s : DHT) : Bool :=
  match s.eachBeginNode with
  | .error _ => false
  | .ok x =>
      match sweepTurn 2 x with
      | .error .invalid => true
      | _ => false

theorem not_fine_of_firstTurnFails (h : s.firstTurnFails = true) : ∃ x, Swept s x ∧ ¬ Fine x := by
  unfold firstTurnFails at h
  split at h
  · exact absurd h Bool.false_ne_true
  · rename_i x hx
    split at h
    · rename_i hInvalid
      exact ⟨x, .start hx, fun hFine => hFine.valid 2 hInvalid⟩
    · exact absurd h Bool.false_ne_true

/-- When node 17 is removed node 0 is as well, of which the entry was stored. -/
theorem not_sweep_fine :
    ∃ s, (new .inet otherId).follow blamedEvents = some s ∧ Reach Init Step s ∧
      ∃ x, Swept s x ∧ ¬ Fine x := by
  have hFails : ((new .inet otherId).follow blamedEvents).any firstTurnFails = true := by
    decide +kernel
  cases hFollow : (new .inet otherId).follow blamedEvents with
  | none =>
      rw [hFollow] at hFails
      exact absurd hFails Bool.false_ne_true
  | some s =>
      rw [hFollow] at hFails
      exact ⟨s, rfl, reach_follow (.start ⟨.inet, otherId, rfl, rfl⟩) hFollow,
        not_fine_of_firstTurnFails hFails⟩

theorem sweep_fine_oneNode :
    (∀ x, Swept oneNode x → Fine x) ↔ ∀ x, Swept oneNode x → Spares x :=
  sweep_fine_iff reach_oneNode

end Lftp.Ports.DHT
