import Lftp.Ports.DHTNodes

/-!
# Runs of the DHT

`Restart` empties the table without clearing the flags of the nodes that were in
it, and adds the good nodes again. A flag survives it when its node is not good,
or is skipped by `AddRoute`; and there is no bucket when no node is good.

* `RestartOk` is when `Restart` does neither; `restart_spec` says what it keeps.
* `act_spec` is the step lemma of all calls, `reach_inv` the run lemma.
* `routing_table`, `flags_consistent` and `indexes_agree` are about all runs.
-/

namespace Lftp.Ports.DHT

open Lftp.Verified

variable {s s' t u : DHT} {p q : Nat} {n : Node} {id : Bytes}

/-! ## Restarting -/

/-- The table is emptied for a new id. -/
def cleared (s : DHT) (id : Bytes) : DHT := { s with nodeId := id, routes := [] }

/-- No flagged node of the list is without its timer, or skipped by `AddRoute`. -/
def Readds : List Nat → DHT → Prop
  | [], _ => True
  | p :: ps, s =>
    (∀ n, s.heap p = some n → n.inRoutes = true →
      n.good = true ∧ ∀ x, s.addRoute p = .ok x → x.2 = false)
      ∧ ∀ s', s.reAdd p = .ok s' → Readds ps s'

/-- `Restart` adds each flagged node again, and some node when there is one. -/
def RestartOk (s : DHT) (id : Bytes) : Prop :=
  Readds s.eachNode (s.cleared id)
    ∧ ((∃ p, s.Live p) → ∃ p n, s.heap p = some n ∧ n.good = true)

theorem Inv.cleared (h : Inv s) (hid : id.length = 20) : Inv (s.cleared id) where
  routes := ⟨.inl rfl, fun _ hr => absurd hr List.not_mem_nil,
    fun _ hr => absurd hr List.not_mem_nil, List.nodup_nil,
    fun _ hr => absurd hr List.not_mem_nil, hid, h.routes.ids⟩
  index := ⟨h.index.validNodes, h.index.validByAddr, h.index.byId, h.index.byAddr, h.index.fresh⟩

/-- The loop visits the nodes that are there. -/
theorem IndexOk.mem_eachNode (h : IndexOk s) : p ∈ s.eachNode ↔ s.Live p := by
  unfold eachNode
  rw [List.mem_filterMap]
  constructor
  · rintro ⟨k, -, hk⟩
    obtain ⟨n, hn, -⟩ := (h.byId k p).mp hk
    exact live_of_heap hn
  · intro hp
    obtain ⟨n, hn⟩ := hp.exists
    have hFound := h.byId.found hn
    refine ⟨n.id, h.validNodes.mem_loopKeys.mpr ?_, hFound⟩
    rw [hFound]
    rfl

/-- A node is passed over, or is added. -/
theorem reAdd_spec (h : Inv s) (hn : s.heap p = some n) :
    Yields Never (fun s' => (n.good = false ∧ s' = s) ∨
      (n.good = true ∧ ∃ x, s.addRoute p = .ok x ∧ Added s p x ∧ s' = x.1)) (s.reAdd p) := by
  unfold reAdd
  rw [deref_eq hn]
  apply Yields.ite
  · intro hGood
    obtain ⟨x, hx, hAdded⟩ := (addRoute_spec h.routes (live_of_heap hn)).exists
    rw [hx]
    exact .inr ⟨hGood, x, rfl, hAdded, rfl⟩
  · intro hGood
    exact .inl ⟨Bool.eq_false_iff.mpr hGood, rfl⟩

/-- `Restart` keeps the invariants. -/
theorem restart_inv (h : Inv s) (hid : id.length = 20) : Yields Never Inv (s.restart id) := by
  let I : List Nat → DHT → Prop := fun l u => Inv u ∧ ∀ q ∈ l, u.Live q
  have hRun : Yields Never (I []) (s.restart id) := by
    refine Yields.foldlM (I := I) (fun p l u hI => ?_)
      ⟨h.cleared hid, fun q hq => h.index.mem_eachNode.mp hq⟩
    obtain ⟨hInv, hLive⟩ := hI
    obtain ⟨n, hn⟩ := (hLive p List.mem_cons_self).exists
    refine (reAdd_spec hInv hn).imp fun u' hu' => ?_
    rcases hu' with ⟨-, rfl⟩ | ⟨-, x, -, hx, rfl⟩
    · exact ⟨hInv, fun q hq => hLive q (List.mem_cons_of_mem p hq)⟩
    · exact ⟨(hx.keeps hInv fun _ hStale => hStale).inv,
        fun q hq => hx.rerouted.live_iff.mpr (hLive q (List.mem_cons_of_mem p hq))⟩
  exact hRun.imp fun _ => And.left

/-- What is still to come while `Restart` adds nodes: the nodes with a stale flag,
and a good node when there is no bucket yet. -/
structure Restarting (l : List Nat) (u : DHT) : Prop where
  inv : Inv u
  live : ∀ q ∈ l, u.Live q
  readds : Readds l u
  stale : ∀ q, u.Stale q → q ∈ l
  first : (∃ p, u.Live p) → u.routes ≠ [] ∨ ∃ q ∈ l, ∃ n, u.heap q = some n ∧ n.good = true

theorem Restarting.start (h : Inv s) (hid : id.length = 20) (hOk : RestartOk s id) :
    Restarting s.eachNode (s.cleared id) where
  inv := h.cleared hid
  live _ hq := h.index.mem_eachNode.mp hq
  readds := hOk.1
  stale q hq := by
    obtain ⟨⟨n, hn, -⟩, -⟩ := hq
    exact h.index.mem_eachNode.mpr (live_of_heap (s := s) hn)
  first hLive := by
    obtain ⟨q, n, hn, hGood⟩ := hOk.2 hLive
    exact .inr ⟨q, h.index.mem_eachNode.mpr (live_of_heap hn), n, hn, hGood⟩

theorem Restarting.step {l : List Nat} (h : Restarting (p :: l) s) :
    Yields Never (Restarting l) (s.reAdd p) := by
  obtain ⟨n, hn⟩ := (h.live p List.mem_cons_self).exists
  obtain ⟨s', hStep, hSpec⟩ := (reAdd_spec h.inv hn).exists
  have hReadds := h.readds.2 s' hStep
  rw [hStep]
  show Restarting l s'
  rcases hSpec with ⟨hGood, rfl⟩ | ⟨-, x, hx, hAdded, rfl⟩
  · refine ⟨h.inv, fun q hq => h.live q (List.mem_cons_of_mem p hq), hReadds, fun q hq => ?_,
      fun hLive => ?_⟩
    · -- a node that is passed over had no flag
      rcases List.mem_cons.mp (h.stale q hq) with rfl | hMem
      · obtain ⟨⟨m, hm, hFlag⟩, -⟩ := hq
        cases hn.symm.trans hm
        have hTrue := (h.readds.1 n hn hFlag).1
        rw [hGood] at hTrue
        cases hTrue
      · exact hMem
    · rcases h.first hLive with hRoutes | ⟨q, hMem, m, hm, hTrue⟩
      · exact .inl hRoutes
      · rcases List.mem_cons.mp hMem with rfl | hMem
        · cases hn.symm.trans hm
          rw [hGood] at hTrue
          cases hTrue
        · exact .inr ⟨q, hMem, m, hm, hTrue⟩
  · refine ⟨(hAdded.keeps h.inv fun _ hStale => hStale).inv,
      fun q hq => hAdded.rerouted.live_iff.mpr (h.live q (List.mem_cons_of_mem p hq)), hReadds,
      fun q hq => ?_, fun _ => .inl hAdded.routes⟩
    -- a flagged node that is added is not stale afterwards
    obtain ⟨hStale, hSkipped⟩ := (hAdded.stale q).mp hq
    rcases List.mem_cons.mp (h.stale q hStale) with rfl | hMem
    · obtain ⟨⟨m, hm, hFlag⟩, -⟩ := hStale
      have hFalse := (h.readds.1 m hm hFlag).2 x hx
      rw [hSkipped rfl] at hFalse
      cases hFalse
    · exact hMem

/-- After a good restart the flags are those of the table. -/
theorem restart_tidy (h : Inv s) (hid : id.length = 20) (hOk : RestartOk s id) :
    Yields Never Tidy (s.restart id) := by
  have hRun := Yields.foldlM (E := Never) (I := Restarting) (f := reAdd)
    (fun p l u hu => Restarting.step hu) (Restarting.start h hid hOk)
  refine hRun.imp fun u hu => ⟨fun q hq => absurd (hu.stale q hq) List.not_mem_nil, fun hLive => ?_⟩
  rcases hu.first hLive with hRoutes | ⟨q, hMem, -⟩
  · exact hRoutes
  · exact absurd hMem List.not_mem_nil

/-- What `Restart` keeps. -/
theorem restart_spec (h : Inv s) (hid : id.length = 20) :
    Yields Never (fun s' => Inv s' ∧ (RestartOk s id → Tidy s')) (s.restart id) := by
  obtain ⟨s', hRestart, hInv⟩ := (restart_inv h hid).exists
  rw [hRestart]
  refine ⟨hInv, fun hOk => ?_⟩
  have hTidy := restart_tidy h hid hOk
  rwa [hRestart] at hTidy

/-- The nodes of a saved state are found one after another. -/
theorem foundNodes_spec (h : Inv s) (depth : Nat) {saved : List (Bytes × SockAddr)}
    (hSaved : ∀ x ∈ saved, x.1.length = 20) :
    Yields Unfinished (Keeps s)
      (saved.foldlM (fun s x => s.foundNode depth x.1 x.2 false) s) := by
  let I : List (Bytes × SockAddr) → DHT → Prop :=
    fun l u => Keeps s u ∧ ∀ x ∈ l, x.1.length = 20
  have hRun : Yields Unfinished (I [])
      (saved.foldlM (fun s x => s.foundNode depth x.1 x.2 false) s) := by
    refine Yields.foldlM (I := I) (fun x l u hI => ?_) ⟨.refl h, hSaved⟩
    obtain ⟨hKeeps, hLength⟩ := hI
    have hFound := foundNode_spec hKeeps.inv (hLength x List.mem_cons_self) depth x.2 false
    exact hFound.imp fun v hv =>
      ⟨hKeeps.trans hv, fun y hy => hLength y (List.mem_cons_of_mem x hy)⟩
  exact hRun.imp fun _ => And.left

/-! ## Steps -/

/-- The restarts in an event are good ones. -/
def RestartsOk (s : DHT) : Event → Prop
  | .restart id => RestartOk s id
  | .load id _ => id.length = 20 → RestartOk s id
  | _ => True

theorem splitRoute0_keeps (h : Inv s) (hRoutes : s.routes ≠ []) :
    Yields Never (fun x => Keeps s (x.getD s)) s.splitRoute0 := by
  refine (splitRoute0_spec h.routes hRoutes).imp fun x hx => ?_
  cases x with
  | none => exact .refl h
  | some s' =>
      obtain ⟨hOk, hKept, hStale, hNe, -⟩ := hx s' rfl
      exact ⟨⟨hOk, hKept.index h.index⟩,
        fun ht => ⟨fun q hq => ht.unstale q ((hStale q).mp hq), fun _ => hNe⟩⟩

/-- Every call that returns keeps the invariants, and the flags right unless it
restarts; none fails but one that does not return. -/
theorem act_spec (h : Inv s) {ev : Event} (hEv : s.Enabled ev) (depth : Nat) :
    Yields Unfinished (fun s' => Inv s' ∧ (Tidy s → RestartsOk s ev → Tidy s'))
      (s.act depth ev) := by
  have hKeep : ∀ {x : Except Crash DHT}, Yields Unfinished (Keeps s) x →
      Yields Unfinished (fun s' => Inv s' ∧ (Tidy s → RestartsOk s ev → Tidy s')) x :=
    fun hx => hx.imp fun _ hs => ⟨hs.inv, fun ht _ => hs.tidy ht⟩
  cases ev with
  | foundNode id a responded => exact hKeep (foundNode_spec h hEv depth a responded)
  | addNode id a =>
      obtain ⟨hid, hNew, hNewAddr⟩ := hEv
      exact hKeep ((addNode_spec h hid hNew hNewAddr).total.imp fun _ => And.left)
  | changeNodeId p id =>
      obtain ⟨hp, hid, hNew⟩ := hEv
      exact hKeep ((changeNodeId_spec h hp hid hNew).total.imp fun _ => And.left)
  | addRoute p =>
      apply hKeep
      apply (addRoute_spec h.routes hEv).total.bind
      intro x hx
      exact hx.keeps h fun _ hStale => hStale
  | removeRoute p =>
      apply hKeep
      exact (removeRoute_spec h.routes hEv).total.imp fun _ hThin => hThin.1.keeps h
  | splitRoute0 =>
      apply hKeep
      exact (splitRoute0_keeps h hEv).total.bind fun _ => id
  | removeNode p => exact hKeep (removeNode_spec h hEv depth)
  | blackListNode p => exact hKeep (blackListNode_spec h hEv depth)
  | restart id =>
      exact (restart_spec h hEv).total.imp fun _ hs => ⟨hs.1, fun _ hOk => hs.2 hOk⟩
  | load id saved =>
      -- the nodes are found in the state that the restart leaves, if there is one
      have hFound : ∀ {t : DHT}, Inv t ∧ (Tidy s → RestartsOk s (.load id saved) → Tidy t) →
          Yields Unfinished (fun s' => Inv s' ∧ (Tidy s → RestartsOk s (.load id saved) → Tidy s'))
            (saved.foldlM (fun s x => s.foundNode depth x.1 x.2 false) t) := by
        intro t ht
        refine (foundNodes_spec ht.1 depth hEv).imp fun u hu => ?_
        exact ⟨hu.inv, fun hTidy hOk => hu.tidy (ht.2 hTidy hOk)⟩
      show Yields _ _ (load depth s id saved)
      unfold load
      by_cases hid : id.length = 20
      · rw [if_pos hid]
        apply (restart_spec h hid).total.bind
        intro t ht
        exact hFound ⟨ht.1, fun _ hOk => ht.2 (hOk hid)⟩
      · rw [if_neg hid]
        exact hFound ⟨h, fun hTidy _ => hTidy⟩
  | trim i => exact hKeep ((trim_spec h.routes i).total.imp fun _ hThin => hThin.keeps h)
  | goodTimerStops p =>
      obtain ⟨n, hn⟩ := Live.exists hEv
      apply hKeep
      show Yields _ _ (s.deref p >>= _)
      rw [deref_eq hn]
      have hTouched : Touched s (s.store p { n with good := false }) := touched_store hn rfl
      exact hTouched.keeps h
  | lostPing p =>
      obtain ⟨n, hn⟩ := Live.exists hEv
      apply hKeep
      show Yields _ _ (s.deref p >>= _)
      rw [deref_eq hn]
      have hTouched : Touched s (s.store p { n with pingLostCount := n.pingLostCount + 1 }) :=
        touched_store hn rfl
      exact hTouched.keeps h
  | setOrigin p o =>
      obtain ⟨n, hn⟩ := Live.exists hEv.1
      obtain ⟨m, hm⟩ := Live.exists hEv.2
      apply hKeep
      show Yields _ _ (s.deref p >>= _)
      rw [deref_eq hn]
      show Yields _ _ (s.deref o >>= _)
      rw [deref_eq hm]
      have hTouched : Touched s (s.store p { n with originId := m.id }) := touched_store hn rfl
      exact hTouched.keeps h
  | blackList a => exact hKeep ((touched_blackListAdd s a).keeps h)
  | delist a =>
      have hTouched : Touched s { s with blackList := s.blackList.filter (· ≠ a) } :=
        ⟨rfl, rfl, rfl, rfl, rfl, fun _ => rfl⟩
      exact hKeep (hTouched.keeps h)
  | stateIo b =>
      have hTouched : Touched s { s with stateIo := b } := ⟨rfl, rfl, rfl, rfl, rfl, fun _ => rfl⟩
      exact hKeep (hTouched.keeps h)

/-! ## Runs -/

theorem inv_new (af : Family) (hid : id.length = 20) : Inv (new af id) where
  routes := ⟨.inl rfl, fun _ hr => absurd hr List.not_mem_nil,
    fun _ hr => absurd hr List.not_mem_nil, List.nodup_nil,
    fun _ hr => absurd hr List.not_mem_nil, hid, fun _ _ hn => nomatch hn⟩
  index := by
    have hNone : ∀ k, (XMap.new : XMap Nat).value? k = none :=
      fun k => XMap.valid_new.value?_of_entries_nil rfl k
    have hIndex : ∀ key : Node → Bytes, IsIndex (XMap.new : XMap Nat).value? (fun _ => none) key := by
      intro key k p
      rw [hNone]
      exact iff_of_false (fun h => nomatch h) (fun ⟨_, h, _⟩ => nomatch h)
    exact ⟨XMap.valid_new, XMap.valid_new, hIndex _, hIndex _, fun _ _ => rfl⟩

theorem tidy_new (af : Family) (id : Bytes) : Tidy (new af id) where
  unstale := fun _ ⟨⟨_, hn, _⟩, _⟩ => nomatch hn
  first := fun ⟨_, hp⟩ => nomatch hp

theorem step_inv {ev : Event} (h : Inv s) (hStep : Step s ev s') :
    Inv s' ∧ (Tidy s → RestartsOk s ev → Tidy s') := by
  obtain ⟨hEv, depth, hAct⟩ := hStep
  have hSpec := act_spec h hEv depth
  rwa [hAct] at hSpec

theorem reach_inv (h : Reach Init Step s) : Inv s := by
  have hInit : ∀ s, Init s → Inv s := by
    rintro _ ⟨af, id, hid, rfl⟩
    exact inv_new af hid
  have hStep : ∀ s ev s', Inv s → Step s ev s' → Inv s' :=
    fun _ _ _ hs hStep => (step_inv hs hStep).1
  exact Reach.invariant hInit hStep h

/-- A step whose restarts are good ones. -/
def TidyStep (s : DHT) (ev : Event) (s' : DHT) : Prop := s.RestartsOk ev ∧ Step s ev s'

theorem reach_tidy (h : Reach Init TidyStep s) : Inv s ∧ Tidy s := by
  have hInit : ∀ s, Init s → Inv s ∧ Tidy s := by
    rintro _ ⟨af, id, hid, rfl⟩
    exact ⟨inv_new af hid, tidy_new af id⟩
  have hStep : ∀ s ev s', Inv s ∧ Tidy s → TidyStep s ev s' → Inv s' ∧ Tidy s' := by
    rintro s ev s' ⟨hInv, hTidy⟩ ⟨hOk, hStep⟩
    have hNext := step_inv hInv hStep
    exact ⟨hNext.1, hNext.2 hTidy hOk⟩
  exact Reach.invariant hInit hStep h

/-! ## The routing table -/

/-- The id and the address of a node. -/
def ownId : Bytes := List.replicate 20 0

def otherId : Bytes := List.replicate 20 255

def someAddr : SockAddr where
  family := .inet
  addr := [1, 2, 3, 4]
  port := 6881
  length_addr := rfl
  port_lt := by decide

/-- The table after one node sent a query. -/
def oneNode : DHT :=
  let n := Node.new otherId someAddr
  { ((new .inet ownId).store 0 n).store 0 { n with inRoutes := true } with
    nextNode := 1
    nodes := XMap.new.add otherId 0
    nodeByAddr := XMap.new.add someAddr.compact 0
    routes := [⟨0, [], [0]⟩] }

theorem reach_oneNode : Reach Init Step oneNode :=
  .next (.foundNode otherId someAddr false) (.start ⟨.inet, ownId, rfl, rfl⟩) ⟨rfl, 0, rfl⟩

theorem exists_live_of_count (h : IndexOk s) (hCount : 0 < s.nodes.count) : ∃ p, s.Live p := by
  cases hEntries : s.nodes.entries with
  | nil =>
      have hZero : s.nodes.count = 0 := by
        rw [XMap.count, h.validNodes.counted, hEntries]
        exact XMap.toInt_zero
      rw [hZero] at hCount
      exact absurd hCount (Int.lt_irrefl 0)
  | cons e es =>
      have hFound : s.nodes.value? e.key = some e.value :=
        h.validNodes.value?_eq_some_iff.mpr ⟨e, hEntries ▸ List.mem_cons_self, rfl, rfl⟩
      obtain ⟨n, hn, -⟩ := (h.byId e.key e.value).mp hFound
      exact ⟨e.value, live_of_heap hn⟩

/-- While every restart adds the flagged nodes again, and some node when there is
one, the flags are those of the table, and there is a bucket when there are nodes. -/
theorem flags_consistent (h : Reach Init TidyStep s) :
    (∀ p n, s.heap p = some n →
      (n.inRoutes = true ↔ (s.routes.countP fun r => decide (p ∈ r.nodes)) = 1))
      ∧ (0 < s.nodes.count → s.routes ≠ []) := by
  obtain ⟨hInv, hTidy⟩ := reach_tidy h
  refine ⟨fun p n hn => ?_, fun hCount => hTidy.first (exists_live_of_count hInv.index hCount)⟩
  have hTable : (s.routes.countP fun r => decide (p ∈ r.nodes)) = 1 ↔ p ∈ s.table := by
    rw [hInv.routes.countP_mem]
    simp
  rw [hTable]
  constructor
  · intro hFlag
    by_contra hOut
    exact hTidy.unstale p ⟨⟨n, hn, hFlag⟩, hOut⟩
  · intro hIn
    obtain ⟨m, hm, hFlag⟩ := hInv.routes.flagged hIn
    cases hn.symm.trans hm
    exact hFlag

/-- A node in the table that replied. -/
def goodNode : Node :=
  { Node.new otherId someAddr with good := true, responded := true, inRoutes := true }

/-- The table after one node replied. -/
def oneGoodNode : DHT :=
  { (oneNode.store 0 { goodNode with good := false }).store 0 goodNode with routes := [⟨0, [], [0]⟩] }

/-- The same after a restart. -/
def restartedGood : DHT := { oneGoodNode.store 0 goodNode with nodeId := otherId }

theorem restartOk_oneGoodNode : RestartOk oneGoodNode otherId := by
  refine ⟨⟨fun n hn _ => ?_, fun _ _ => trivial⟩, fun _ => ⟨0, _, rfl, rfl⟩⟩
  cases hn
  refine ⟨rfl, fun x hx => ?_⟩
  cases hx
  rfl

theorem flags_consistent_restartedGood :
    (restartedGood.routes.countP fun r => decide (0 ∈ r.nodes)) = 1 ∧ restartedGood.routes ≠ [] :=
  have hGood : Reach Init TidyStep oneGoodNode :=
    .next (.foundNode otherId someAddr true) (.start ⟨.inet, ownId, rfl, rfl⟩)
      ⟨trivial, rfl, 0, rfl⟩
  have hRestarted : Reach Init TidyStep restartedGood :=
    .next (.restart otherId) hGood ⟨restartOk_oneGoodNode, rfl, 0, rfl⟩
  have h := flags_consistent hRestarted
  ⟨(h.1 0 goodNode rfl).mp rfl, h.2 (by decide)⟩

/-- The table after a restart that found no good node. -/
def restarted : DHT := { oneNode with nodeId := otherId, routes := [] }

theorem reach_restarted : Reach Init Step restarted :=
  .next (.restart otherId) reach_oneNode ⟨rfl, 0, rfl⟩

/-- The node keeps its flag, and there is no bucket for `Do` to look at. -/
theorem not_flags_consistent :
    ¬ ∀ s, Reach Init Step s →
      (∀ p n, s.heap p = some n →
        (n.inRoutes = true ↔ (s.routes.countP fun r => decide (p ∈ r.nodes)) = 1))
        ∧ (0 < s.nodes.count → s.routes ≠ []) := by
  intro h
  exact (h restarted reach_restarted).2 (by decide) rfl

/-! ## The indexes -/

/-- Both indexes hold the nodes that are there, each under its own key, and no two
nodes have the same one. No call fails an assertion or uses a node that is gone. -/
theorem indexes_agree (h : Reach Init Step s) :
    (∀ p n, s.heap p = some n →
      s.nodes.value? n.id = some p ∧ s.nodeByAddr.value? n.addr.compact = some p)
      ∧ (∀ k p, s.nodes.value? k = some p → ∃ n, s.heap p = some n ∧ n.id = k)
      ∧ (∀ k p, s.nodeByAddr.value? k = some p → ∃ n, s.heap p = some n ∧ n.addr.compact = k)
      ∧ (∀ p q n m, s.heap p = some n → s.heap q = some m →
        n.id = m.id ∨ n.addr.compact = m.addr.compact → p = q)
      ∧ ∀ ev, s.Enabled ev → ∀ depth e, s.act depth ev = .error e → e = .unfinished := by
  have hInv := reach_inv h
  have hIndex := hInv.index
  refine ⟨fun p n hn => ⟨hIndex.byId.found hn, hIndex.byAddr.found hn⟩,
    fun k p => (hIndex.byId k p).mp, fun k p => (hIndex.byAddr k p).mp, ?_, ?_⟩
  · rintro p q n m hn hm (hKey | hKey)
    · exact hIndex.byId.unique hn hm hKey
    · exact hIndex.byAddr.unique hn hm hKey
  · intro ev hEv depth e hError
    have hSpec := act_spec hInv hEv depth
    rwa [hError] at hSpec

theorem indexes_agree_oneNode :
    oneNode.nodes.value? otherId = some 0 ∧ oneNode.nodeByAddr.value? someAddr.compact = some 0 :=
  (indexes_agree reach_oneNode).1 0 _ rfl

end Lftp.Ports.DHT
