import Lftp.Ports.RateLimit
import Lftp.Verified.Outcome
import Lftp.Verified.Runs
import Lftp.Verified.Table

/-!
# The tree of rate limits

A `RateLimit` of a connection has one for its host above it, and that has the one for everything.
The last two are made when they are needed and are kept in a map, `total`, by the name of the
host, with the empty name for everything. An object is a number; what has been deleted is no
longer in the table. `Env` is what the settings, the clock and floating point say.

* `act_settled`: a step that does not begin with a connection to the empty host keeps the counters
  right and uses no object after it is deleted.
* `grants_le`: what connections below a node may transfer is at most their part of its pool.
* `run_accounted`: the two for every run.
-/

namespace Lftp.Ports.RateTree

open Lftp.Verified
open Lftp.Ports.RateLimit (Dir BytesPool Pools configure)

inductive Fault
  /-- A setting that cannot be read. -/
  | settings (fault : PgetChunks.Fault)
  | divisionByZero
  /-- `assert(xfer_number>=0)` -/
  | assertion
  /-- An object that has been deleted. -/
  | freed
  | outOfFuel

inductive Level
  | perConn
  | perHost
  | total
  deriving DecidableEq

structure Node where
  level : Level
  parent : Option Nat
  xferNumber : Int
  pools : Pools
  deriving DecidableEq

/-- A node at the beginning of `init`. -/
def Node.blank (level : Level) : Node where
  level := level
  parent := none
  xferNumber := if level = .perConn then 1 else 0
  pools := ⟨⟨0, 0, 0, 0⟩, ⟨0, 0, 0, 0⟩⟩

/-- A node without its pools. -/
def Node.core (n : Node) : Level × Option Nat × Int := (n.level, n.parent, n.xferNumber)

structure World where
  nodes : Table Nat Node
  total : Table Bytes Nat
  fresh : Nat

structure Env where
  now : Int
  /-- `ResMgr::Query` -/
  query : Bytes → Option Bytes → Option Bytes
  /-- What `AdjustTime` adds to a pool after some time; no value where the pool becomes full. -/
  gain : Int → BytesPool → Option Int

def large : Int := 0x10000000

namespace World

def empty : World := ⟨.empty, .empty, 0⟩

def deref (w : World) (id : Nat) : Except Fault Node :=
  match w.nodes.get id with
  | some n => .ok n
  | none => .error .freed

def update (w : World) (id : Nat) (f : Node → Node) : World :=
  { w with nodes := w.nodes.modify id f }

def setPools (w : World) (id : Nat) (p : Pools) : World := w.update id fun n => { n with pools := p }

/-- The pool of a direction changes. -/
def onPool (w : World) (id : Nat) (d : Dir) (f : BytesPool → BytesPool) : World :=
  w.update id fun n => { n with pools := n.pools.set d (f (n.pools.at d)) }

/-! ## Counting -/

def bump (add : Int) (w : World) (id : Nat) : World :=
  w.update id fun n => { n with xferNumber := n.xferNumber + add }

/-- `AddXfer`; the number of levels bounds the recursion. -/
def addXfer (add : Int) : Nat → Nat → World → Except Fault World
  | 0, _, _ => .error .outOfFuel
  | fuel + 1, id, w => do
    let n ← w.deref id
    if n.xferNumber + add < 0 then .error .assertion
    else n.parent.elim (.ok (w.bump add id)) fun p => addXfer add fuel p (w.bump add id)

/-- The destructor. -/
def delete (w : World) (id : Nat) : Except Fault World := do
  let n ← w.deref id
  let w ← n.parent.elim (.ok w) fun p =>
    if n.xferNumber ≠ 0 then w.addXfer (-n.xferNumber) 3 p else .ok w
  .ok { w with nodes := w.nodes.erase id }

/-! ## Settings -/

def settingRate : Level → Bytes
  | .perConn => bytes "net:limit-rate"
  | _ => bytes "net:limit-total-rate"

def settingMax : Level → Bytes
  | .perConn => bytes "net:limit-max"
  | _ => bytes "net:limit-total-max"

section

variable (env : Env)

/-- `Reconfig`, where no name is for all settings. -/
def reconfig (name : Option Bytes) : Nat → Nat → Option Bytes → World → Except Fault World
  | 0, _, _, _ => .error .outOfFuel
  | fuel + 1, id, c, w =>
    if name.any fun n => !(bytes "net:limit-").isPrefixOf n then .ok w
    else do
      let n ← w.deref id
      let configTotal := name.all fun n => (bytes "net:limit-total-").isPrefixOf n
      if n.level ≠ .perConn ∧ ¬ configTotal then .ok w
      else
        let c := if n.level = .total then none else c
        let pools ← (configure env.now (env.query (settingRate n.level) c)
          (env.query (settingMax n.level) c)).mapError .settings
        let w := w.setPools id pools
        n.parent.elim (.ok w) fun p => if configTotal then reconfig name fuel p c w else .ok w

/-! ## Making -/

/-- The beginning of `init`, without a parent. -/
def start (level : Level) (c : Bytes) (w : World) : Except Fault (Nat × World) := do
  let id := w.fresh
  let w ← reconfig env none 3 id (some c) ⟨w.nodes.insert id (.blank level), w.total, id + 1⟩
  .ok (id, w)

/-- `total->add(key,p)`, which deletes what was there. -/
def addTotal (key : Bytes) (p : Nat) (w : World) : Except Fault World := do
  let w ← (w.total.get key).elim (.ok w) w.delete
  .ok { w with total := (w.total.erase key).insert key p }

/-- A parent that is there. If it was not used for a while, its settings are read again. -/
def refresh (key : Bytes) (w : World) (p : Nat) : Except Fault (Nat × World) := do
  let n ← w.deref p
  let w ← (if n.xferNumber = 0 then reconfig env none 3 p (some key) w else .ok w)
  .ok (p, w)

/-- A parent that is made. -/
def enter (key : Bytes) (make : World → Except Fault (Nat × World)) (w : World) :
    Except Fault (Nat × World) := do
  let (p, w) ← make w
  let w ← w.addTotal key p
  .ok (p, w)

/-- The end of `init`: the parent with this key is found or made. -/
def attach (id : Nat) (key : Bytes) (make : World → Except Fault (Nat × World)) (w : World) :
    Except Fault World := do
  let (p, w) ← (w.total.get key).elim (enter key make w) (w.refresh env key)
  let n ← w.deref id
  addXfer n.xferNumber 3 p (w.update id fun n => { n with parent := some p })

def newTotal (w : World) : Except Fault (Nat × World) := start env .total [] w

def newHost (c : Bytes) (w : World) : Except Fault (Nat × World) := do
  let (id, w) ← start env .perHost c w
  let w ← w.attach env id [] (newTotal env)
  .ok (id, w)

/-- `RateLimit(c)` -/
def newConn (c : Bytes) (w : World) : Except Fault (Nat × World) := do
  let (id, w) ← start env .perConn c w
  let w ← w.attach env id c (newHost env c)
  .ok (id, w)

/-! ## Asking -/

/-- `AdjustTime` -/
def adjustTime (p : BytesPool) : BytesPool :=
  if 0 < env.now - p.t then
    let pool := match env.gain (env.now - p.t) p with
      | none => p.poolMax
      | some g => p.pool + g
    { p with pool := if p.poolMax < pool then p.poolMax else pool, t := env.now }
  else p

/-- `BytesAllowed` -/
def bytesAllowed (d : Dir) : Nat → Nat → World → Except Fault (Int × World)
  | 0, _, _ => .error .outOfFuel
  | fuel + 1, id, w => do
    let n ← w.deref id
    let (parentAllowed, w) ← n.parent.elim (.ok (large, w)) fun p => bytesAllowed d fuel p w
    if (n.pools.at d).rate = 0 then .ok (parentAllowed, w)
    else
      let w := w.onPool id d (adjustTime env)
      let n ← w.deref id
      if n.xferNumber = 0 then .error .divisionByZero
      else .ok (min ((n.pools.at d).pool.tdiv n.xferNumber) parentAllowed, w)

/-- `Relaxed` -/
def relaxed (d : Dir) : Nat → Nat → World → Except Fault (Bool × World)
  | 0, _, _ => .error .outOfFuel
  | fuel + 1, id, w => do
    let n ← w.deref id
    let (parentRelaxed, w) ← n.parent.elim (.ok (true, w)) fun p => relaxed d fuel p w
    if (n.pools.at d).rate = 0 then .ok (parentRelaxed, w)
    else
      let w := w.onPool id d (adjustTime env)
      let n ← w.deref id
      let p := n.pools.at d
      .ok (if 0 < p.rate ∧ p.pool < p.poolMax.tdiv 2 then false else parentRelaxed, w)

end

/-- `BytesPool::Used` -/
def used (bytes : Int) (p : BytesPool) : BytesPool :=
  { p with pool := if p.pool < bytes then 0 else p.pool - bytes }

/-- `BytesUsed` -/
def bytesUsed (n : Int) (d : Dir) : Nat → Nat → World → Except Fault World
  | 0, _, _ => .error .outOfFuel
  | fuel + 1, id, w => do
    let node ← w.deref id
    let w ← node.parent.elim (.ok w) fun p => bytesUsed n d fuel p w
    .ok (w.onPool id d (used n))

/-! ## Runs -/

inductive Event
  | create (host : Bytes)
  | destroy (id : Nat)
  | reconfig (id : Nat) (name : Bytes) (host : Bytes)
  | bytesAllowed (id : Nat) (d : Dir)
  | relaxed (id : Nat) (d : Dir)
  | bytesUsed (id : Nat) (d : Dir) (n : Int)

def isConn (w : World) (id : Nat) : Bool := (w.nodes.get id).any fun n => n.level = .perConn

/-- A call on a connection that is alive. -/
def act (w : World) : Env × Event → Except Fault World
  | (env, .create host) => Prod.snd <$> w.newConn env host
  | (_, .destroy id) => if w.isConn id then w.delete id else .ok w
  | (env, .reconfig id name host) =>
    if w.isConn id then w.reconfig env (some name) 3 id (some host) else .ok w
  | (env, .bytesAllowed id d) =>
    if w.isConn id then Prod.snd <$> w.bytesAllowed env d 3 id else .ok w
  | (env, .relaxed id d) => if w.isConn id then Prod.snd <$> w.relaxed env d 3 id else .ok w
  | (_, .bytesUsed id d n) => if w.isConn id then w.bytesUsed n d 3 id else .ok w

/-! ## What counts -/

/-- A connection that counts for the node `id` of this level. -/
def under (id : Nat) (level : Level) (m : Node) : Bool :=
  m.level = .perConn && match level with
    | .perConn => false
    | .perHost => m.parent = some id
    | .total => m.parent.isSome

/-- What the counter of a node should be. -/
def due (w : World) (id : Nat) (n : Node) : Int :=
  if n.level = .perConn then 1 else w.nodes.total fun m => bit (under id n.level m)

/-- A world where some nodes are still without a parent. -/
structure Sound (pending : Nat → Prop) (w : World) : Prop where
  fresh : ∀ {id n}, w.nodes.get id = some n → id < w.fresh
  top : ∀ {t}, w.total.get [] = some t → ∃ n, w.nodes.get t = some n ∧ n.level = .total
  host : ∀ {key p}, key ≠ [] → w.total.get key = some p → ∃ n t, w.nodes.get p = some n
    ∧ n.level = .perHost ∧ n.parent = some t ∧ w.total.get [] = some t
  perConn : ∀ {id n}, w.nodes.get id = some n → n.level = .perConn → ¬ pending id →
    ∃ key p, n.parent = some p ∧ w.total.get key = some p
  perHost : ∀ {id n}, w.nodes.get id = some n → n.level = .perHost → ¬ pending id →
    ∃ t, n.parent = some t ∧ w.total.get [] = some t
  total : ∀ {id n}, w.nodes.get id = some n → n.level = .total →
    n.parent = none ∧ w.total.get [] = some id
  pending : ∀ {id n}, w.nodes.get id = some n → pending id → n.parent = none
  xfer : ∀ {id n}, w.nodes.get id = some n → n.xferNumber = w.due id n

/-! ## What does not count -/

/-- Another world with the same counters. -/
structure Alike (w w' : World) : Prop where
  total : w'.total = w.total
  fresh : w'.fresh = w.fresh
  nodes : ∀ id, (w'.nodes.get id).map Node.core = (w.nodes.get id).map Node.core
  sums : ∀ f : Level × Option Nat × Int → Int,
    w'.nodes.total (fun n => f n.core) = w.nodes.total fun n => f n.core

variable {w w' w'' : World} {pending : Nat → Prop} {id : Nat} {n : Node}

theorem Alike.refl (w : World) : Alike w w := ⟨rfl, rfl, fun _ => rfl, fun _ => rfl⟩

theorem Alike.trans (h : Alike w w') (h' : Alike w' w'') : Alike w w'' :=
  ⟨h'.total.trans h.total, h'.fresh.trans h.fresh, fun id => (h'.nodes id).trans (h.nodes id),
    fun f => (h'.sums f).trans (h.sums f)⟩

/-- A change of the pools of a node. -/
theorem alike_update {f : Node → Node} (hf : ∀ n, (f n).core = n.core) (w : World) (id : Nat) :
    Alike w (w.update id f) where
  total := rfl
  fresh := rfl
  nodes j := by
    unfold update
    rw [Table.get_modify]
    split_ifs
    · cases w.nodes.get j with
      | none => rfl
      | some n => exact congrArg some (hf n)
    · rfl
  sums g := Table.total_modify_same (fun n => by rw [hf]) _ _

theorem alike_setPools (w : World) (id : Nat) (p : Pools) : Alike w (w.setPools id p) :=
  alike_update (f := fun n => { n with pools := p }) (fun _ => rfl) w id

theorem alike_onPool (w : World) (id : Nat) (d : Dir) (f : BytesPool → BytesPool) :
    Alike w (w.onPool id d f) :=
  alike_update (f := fun n => { n with pools := n.pools.set d (f (n.pools.at d)) }) (fun _ => rfl)
    w id

theorem Alike.get (h : Alike w w') {n' : Node} (hGet : w'.nodes.get id = some n') :
    ∃ n, w.nodes.get id = some n ∧ n.core = n'.core := by
  have hNodes := h.nodes id
  rw [hGet] at hNodes
  cases hOld : w.nodes.get id with
  | none => rw [hOld] at hNodes; cases hNodes
  | some n =>
      rw [hOld] at hNodes
      exact ⟨n, rfl, (Option.some.inj hNodes).symm⟩

theorem Alike.get' (h : Alike w w') (hGet : w.nodes.get id = some n) :
    ∃ n', w'.nodes.get id = some n' ∧ n'.core = n.core := by
  have hNodes := h.nodes id
  rw [hGet] at hNodes
  cases hNew : w'.nodes.get id with
  | none => rw [hNew] at hNodes; cases hNodes
  | some n' =>
      rw [hNew] at hNodes
      exact ⟨n', rfl, Option.some.inj hNodes⟩

theorem core_eq {n n' : Node} (h : n.core = n'.core) :
    n.level = n'.level ∧ n.parent = n'.parent ∧ n.xferNumber = n'.xferNumber := by
  simpa [Node.core] using h

theorem due_alike (h : Alike w w') {n n' : Node} (hCore : n.core = n'.core) :
    w'.due id n' = w.due id n := by
  obtain ⟨hLevel, -, -⟩ := core_eq hCore
  unfold due
  rw [hLevel]
  split_ifs
  · rfl
  · exact h.sums fun c => bit (under id n'.level ⟨c.1, c.2.1, c.2.2, ⟨⟨0, 0, 0, 0⟩, ⟨0, 0, 0, 0⟩⟩⟩)

theorem Sound.alike (h : Sound pending w) (hAlike : Alike w w') : Sound pending w' := by
  have hTotal := hAlike.total
  refine ⟨fun hGet => ?_, fun hKey => ?_, fun hKey hGet => ?_, fun hGet hLevel hNot => ?_,
    fun hGet hLevel hNot => ?_, fun hGet hLevel => ?_, fun hGet hPending => ?_, fun hGet => ?_⟩
  · obtain ⟨n, hOld, -⟩ := hAlike.get hGet
    rw [hAlike.fresh]
    exact h.fresh hOld
  · rw [hTotal] at hKey
    obtain ⟨n, hOld, hLevel⟩ := h.top hKey
    obtain ⟨n', hNew, hCore⟩ := hAlike.get' hOld
    exact ⟨n', hNew, (core_eq hCore).1.trans hLevel⟩
  · rw [hTotal] at hGet ⊢
    obtain ⟨n, t, hOld, hLevel, hParent, hTop⟩ := h.host hKey hGet
    obtain ⟨n', hNew, hCore⟩ := hAlike.get' hOld
    exact ⟨n', t, hNew, (core_eq hCore).1.trans hLevel, (core_eq hCore).2.1.trans hParent, hTop⟩
  · obtain ⟨n, hOld, hCore⟩ := hAlike.get hGet
    obtain ⟨hLevel', hParent', -⟩ := core_eq hCore
    rw [hTotal, ← hParent']
    exact h.perConn hOld (hLevel'.trans hLevel) hNot
  · obtain ⟨n, hOld, hCore⟩ := hAlike.get hGet
    obtain ⟨hLevel', hParent', -⟩ := core_eq hCore
    rw [hTotal, ← hParent']
    exact h.perHost hOld (hLevel'.trans hLevel) hNot
  · obtain ⟨n, hOld, hCore⟩ := hAlike.get hGet
    obtain ⟨hLevel', hParent', -⟩ := core_eq hCore
    rw [hTotal, ← hParent']
    exact h.total hOld (hLevel'.trans hLevel)
  · obtain ⟨n, hOld, hCore⟩ := hAlike.get hGet
    rw [← (core_eq hCore).2.1]
    exact h.pending hOld hPending
  · obtain ⟨n, hOld, hCore⟩ := hAlike.get hGet
    rw [due_alike hAlike hCore, ← (core_eq hCore).2.2]
    exact h.xfer hOld

/-! ## Lines of parents -/

/-- From a node to a parent of a parent. -/
def Below (w : World) : Nat → Nat → Prop :=
  Relation.ReflTransGen fun a b => ∃ n, w.nodes.get a = some n ∧ n.parent = some b

theorem below_iff (hGet : w.nodes.get id = some n) {q : Nat} :
    w.Below id q ↔ q = id ∨ ∃ p, n.parent = some p ∧ w.Below p q := by
  unfold Below
  rw [Relation.ReflTransGen.cases_head_iff]
  refine or_congr eq_comm ⟨?_, ?_⟩
  · rintro ⟨p, ⟨m, hm, hParent⟩, hBelow⟩
    rw [hGet] at hm
    exact ⟨p, Option.some.inj hm ▸ hParent, hBelow⟩
  · rintro ⟨p, hParent, hBelow⟩
    exact ⟨p, ⟨n, hGet, hParent⟩, hBelow⟩

theorem Below.alike {q : Nat} (h : w.Below id q) (hAlike : Alike w w') : w'.Below id q := by
  refine Relation.ReflTransGen.mono ?_ _ _ h
  rintro a b ⟨m, hm, hParent⟩
  obtain ⟨m', hm', hCore⟩ := hAlike.get' hm
  exact ⟨m', hm', (core_eq hCore).2.1.trans hParent⟩

/-- There are at most so many nodes from here to the top, and their counters meet `Q`. -/
def Line (Q : Int → Prop) (w : World) : Nat → Nat → Prop
  | 0, _ => False
  | k + 1, id => ∃ n, w.nodes.get id = some n ∧ Q n.xferNumber ∧ ∀ p, n.parent = some p → Line Q w k p

variable {Q : Int → Prop} {fuel : Nat}

theorem Line.alike (h : Line Q w fuel id) (hAlike : Alike w w') : Line Q w' fuel id := by
  induction fuel generalizing id with
  | zero => exact h
  | succ k ih =>
      obtain ⟨n, hGet, hQ, hParent⟩ := h
      obtain ⟨n', hNew, hCore⟩ := hAlike.get' hGet
      obtain ⟨-, hParent', hXfer⟩ := core_eq hCore
      exact ⟨n', hNew, hXfer ▸ hQ, fun p hp => ih (hParent p (hParent' ▸ hp))⟩

theorem Line.succ (h : Line Q w fuel id) : Line Q w (fuel + 1) id := by
  induction fuel generalizing id with
  | zero => exact h.elim
  | succ k ih =>
      obtain ⟨n, hGet, hQ, hParent⟩ := h
      exact ⟨n, hGet, hQ, fun p hp => ih (hParent p hp)⟩

theorem deref_of (h : w.nodes.get id = some n) : w.deref id = .ok n := by
  unfold deref
  rw [h]

/-- An error of a setting. -/
def Unread (e : Fault) : Prop := ∃ fault, e = .settings fault

theorem reconfig_alike (env : Env) (name : Option Bytes) (h : Line Q w fuel id)
    (c : Option Bytes) : Yields Unread (Alike w) (w.reconfig env name fuel id c) := by
  induction fuel generalizing w id c with
  | zero => exact h.elim
  | succ k ih =>
      unfold reconfig
      refine Yields.ite (fun _ => Alike.refl w) fun _ => ?_
      obtain ⟨n, hGet, -, hParent⟩ := h
      rw [deref_of hGet, ok_bind]
      refine Yields.ite (fun _ => Alike.refl w) fun _ => ?_
      dsimp only
      generalize configure _ _ _ = pools
      cases pools with
      | error fault => exact ⟨fault, rfl⟩
      | ok pools =>
          have hAlike := alike_setPools w id pools
          have hRead : (Except.ok pools : Except PgetChunks.Fault Pools).mapError Fault.settings
              = .ok pools := rfl
          rw [hRead, ok_bind]
          refine Yields.option (fun _ => hAlike) fun p hp => Yields.ite (fun _ => ?_) fun _ => hAlike
          exact (ih ((hParent p hp).alike hAlike) _).imp fun _ => hAlike.trans

theorem relaxed_alike (env : Env) (d : Dir) (h : Line Q w fuel id) :
    Yields Never (fun r => Alike w r.2) (w.relaxed env d fuel id) := by
  induction fuel generalizing w id with
  | zero => exact h.elim
  | succ k ih =>
      unfold relaxed
      obtain ⟨n, hGet, -, hParent⟩ := h
      rw [deref_of hGet, ok_bind]
      have hUp : Yields Never (fun r : Bool × World => Alike w r.2)
          (n.parent.elim (.ok (true, w)) fun p => w.relaxed env d k p) :=
        Yields.option (fun _ => Alike.refl w) fun p hp => ih (hParent p hp)
      apply hUp.bind
      intro r hr
      apply Yields.ite
      · exact fun _ => hr
      intro _
      have hAlike := hr.trans (alike_onPool r.2 id d (adjustTime env))
      obtain ⟨n', hNew, -⟩ := hAlike.get' hGet
      dsimp only
      rw [deref_of hNew]
      exact hAlike

theorem bytesUsed_alike (bytes : Int) (d : Dir) (h : Line Q w fuel id) :
    Yields Never (Alike w) (w.bytesUsed bytes d fuel id) := by
  induction fuel generalizing w id with
  | zero => exact h.elim
  | succ k ih =>
      unfold bytesUsed
      obtain ⟨n, hGet, -, hParent⟩ := h
      rw [deref_of hGet, ok_bind]
      have hUp : Yields Never (Alike w)
          (n.parent.elim (.ok w) fun p => w.bytesUsed bytes d k p) :=
        Yields.option (fun _ => Alike.refl w) fun p hp => ih (hParent p hp)
      apply hUp.bind
      intro w' hw'
      exact hw'.trans (alike_onPool w' id d (used bytes))

/-! ## Shares -/

variable {env : Env} {d : Dir} {q : Nat}

theorem adjustTime_idem (env : Env) (p : BytesPool) :
    adjustTime env (adjustTime env p) = adjustTime env p := by
  by_cases h : 0 < env.now - p.t
  · have hNow : (adjustTime env p).t = env.now := by
      unfold adjustTime
      rw [if_pos h]
    have hStop : ¬ 0 < env.now - (adjustTime env p).t := by omega
    rw [adjustTime, if_neg hStop]
  · have hSame : adjustTime env p = p := if_neg h
    rw [hSame, hSame]

/-- Some pools of a direction have been filled up to now. -/
structure Aged (env : Env) (d : Dir) (w w' : World) : Prop extends Alike w w' where
  pools : ∀ {q n}, w.nodes.get q = some n → ∃ n', w'.nodes.get q = some n' ∧ n'.core = n.core
    ∧ (n'.pools.at d = n.pools.at d ∨ n'.pools.at d = adjustTime env (n.pools.at d))

theorem Aged.refl (env : Env) (d : Dir) (w : World) : Aged env d w w :=
  ⟨Alike.refl w, fun hGet => ⟨_, hGet, rfl, .inl rfl⟩⟩

theorem Aged.trans (h : Aged env d w w') (h' : Aged env d w' w'') : Aged env d w w'' := by
  refine ⟨h.toAlike.trans h'.toAlike, fun hGet => ?_⟩
  obtain ⟨n', hGet', hCore', hPool'⟩ := h.pools hGet
  obtain ⟨n'', hGet'', hCore'', hPool''⟩ := h'.pools hGet'
  refine ⟨n'', hGet'', hCore''.trans hCore', ?_⟩
  rcases hPool' with hPool' | hPool'
  · rw [hPool'] at hPool''
    exact hPool''
  · rw [hPool', adjustTime_idem, or_self] at hPool''
    exact .inr hPool''

/-- A pool that has been filled is not filled again. -/
theorem Aged.keeps_full (h : Aged env d w w') {p : BytesPool}
    (hFull : ∃ n, w.nodes.get q = some n ∧ n.pools.at d = adjustTime env p) :
    ∃ n, w'.nodes.get q = some n ∧ n.pools.at d = adjustTime env p := by
  obtain ⟨n, hGet, hPool⟩ := hFull
  obtain ⟨n', hGet', -, hPool'⟩ := h.pools hGet
  rw [hPool, adjustTime_idem, or_self] at hPool'
  exact ⟨n', hGet', hPool'⟩

theorem at_set (p : Pools) (d : Dir) (b : BytesPool) : (p.set d b).at d = b := by cases d <;> rfl

theorem get_onPool (w : World) (id : Nat) (d : Dir) (f : BytesPool → BytesPool) (q : Nat) :
    (w.onPool id d f).nodes.get q = if q = id
      then (w.nodes.get q).map fun n => { n with pools := n.pools.set d (f (n.pools.at d)) }
      else w.nodes.get q := Table.get_modify w.nodes id _ q

theorem aged_onPool (env : Env) (d : Dir) (w : World) (id : Nat) :
    Aged env d w (w.onPool id d (adjustTime env)) := by
  refine ⟨alike_onPool w id d _, fun {q n} hGet => ?_⟩
  rw [get_onPool, hGet]
  split_ifs
  · exact ⟨_, rfl, rfl, .inr (at_set _ _ _)⟩
  · exact ⟨n, rfl, rfl, .inl rfl⟩

/-- What a node may transfer is at most its part of each pool above it. -/
theorem bytesAllowed_le (env : Env) (d : Dir) (h : Line (0 < ·) w fuel id) :
    Yields Never (fun r => Aged env d w r.2 ∧ ∀ q n, w.Below id q → w.nodes.get q = some n →
      (n.pools.at d).rate ≠ 0 →
        (∃ n', r.2.nodes.get q = some n' ∧ n'.pools.at d = adjustTime env (n.pools.at d))
        ∧ r.1 ≤ (adjustTime env (n.pools.at d)).pool.tdiv n.xferNumber)
      (w.bytesAllowed env d fuel id) := by
  induction fuel generalizing w id with
  | zero => exact h.elim
  | succ k ih =>
      unfold bytesAllowed
      obtain ⟨n, hGet, hPos, hParent⟩ := h
      rw [deref_of hGet, ok_bind]
      have hUp : Yields Never (fun r : Int × World => Aged env d w r.2 ∧ ∀ p, n.parent = some p →
          ∀ q m, w.Below p q → w.nodes.get q = some m → (m.pools.at d).rate ≠ 0 →
            (∃ m', r.2.nodes.get q = some m' ∧ m'.pools.at d = adjustTime env (m.pools.at d))
            ∧ r.1 ≤ (adjustTime env (m.pools.at d)).pool.tdiv m.xferNumber)
          (n.parent.elim (.ok (large, w)) fun p => w.bytesAllowed env d k p) := by
        refine Yields.option (fun hNone => ⟨Aged.refl env d w, fun p hp => ?_⟩) fun p hp =>
          (ih (hParent p hp)).imp fun r hr => ⟨hr.1, fun p' hp' => ?_⟩
        · rw [hNone] at hp
          cases hp
        · obtain rfl : p = p' := Option.some.inj (hp.symm.trans hp')
          exact hr.2
      apply hUp.bind
      rintro ⟨allowed, w₁⟩ ⟨hAged, hShares⟩
      have hOf : ∀ {q}, w.Below id q → q = id ∨ ∃ p, n.parent = some p ∧ w.Below p q :=
        (below_iff hGet).mp
      apply Yields.ite
      · refine fun hRate => ⟨hAged, fun q m hBelow hm hSome => ?_⟩
        rcases hOf hBelow with rfl | ⟨p, hp, hBelow'⟩
        · rw [hGet] at hm
          cases hm
          exact absurd hRate hSome
        · exact hShares p hp q m hBelow' hm hSome
      intro hRate
      dsimp only
      have hNext := aged_onPool env d w₁ id
      obtain ⟨n₁, hGet₁, hCore₁, hPool₁⟩ := hAged.pools hGet
      have hFull : adjustTime env (n₁.pools.at d) = adjustTime env (n.pools.at d) := by
        rcases hPool₁ with hPool | hPool
        · rw [hPool]
        · rw [hPool, adjustTime_idem]
      have hNew : (w₁.onPool id d (adjustTime env)).nodes.get id
          = some { n₁ with pools := n₁.pools.set d (adjustTime env (n.pools.at d)) } := by
        rw [get_onPool, if_pos rfl, hGet₁, Option.map_some, hFull]
      have hXfer := (core_eq hCore₁).2.2
      rw [deref_of hNew, ok_bind]
      refine Yields.ite (fun hZero => ?_) fun _ => ⟨hAged.trans hNext, fun q m hBelow hm hSome => ?_⟩
      · dsimp only at hZero
        omega
      dsimp only
      rw [at_set, hXfer]
      rcases hOf hBelow with rfl | ⟨p, hp, hBelow'⟩
      · rw [hGet] at hm
        cases hm
        exact ⟨⟨_, hNew, at_set _ _ _⟩, min_le_left _ _⟩
      · obtain ⟨hFilled, hLe⟩ := hShares p hp q m hBelow' hm hSome
        exact ⟨hNext.keeps_full hFilled, (min_le_right _ _).trans hLe⟩

/-! ## Counting along a line -/

variable {add : Int} {t p : Nat} {m : Node}

theorem get_bump (add : Int) (w : World) (id j : Nat) : (w.bump add id).nodes.get j
    = if j = id then (w.nodes.get j).map fun n => { n with xferNumber := n.xferNumber + add }
      else w.nodes.get j :=
  Table.get_modify w.nodes id _ j

theorem addXfer_top {k : Nat} (hGet : w.nodes.get t = some n) (hParent : n.parent = none)
    (hPos : 0 ≤ n.xferNumber + add) : addXfer add (k + 1) t w = .ok (w.bump add t) := by
  unfold addXfer
  rw [deref_of hGet, ok_bind, if_neg (by omega), hParent]
  rfl

theorem addXfer_host {k : Nat} (hGet : w.nodes.get p = some n) (hParent : n.parent = some t)
    (hPos : 0 ≤ n.xferNumber + add) (hNe : t ≠ p) (hTop : w.nodes.get t = some m)
    (hNone : m.parent = none) (hTopPos : 0 ≤ m.xferNumber + add) :
    addXfer add (k + 2) p w = .ok ((w.bump add p).bump add t) := by
  unfold addXfer
  rw [deref_of hGet, ok_bind, if_neg (by omega), hParent]
  have hStays : (w.bump add p).nodes.get t = some m := by rw [get_bump, if_neg hNe, hTop]
  exact addXfer_top hStays hNone hTopPos

/-- The counters of these nodes have changed, and the parent of one node has been set. -/
structure Attached (w : World) (id p : Nat) (line : List Nat) (add : Int) (w' : World) : Prop where
  total : w'.total = w.total
  fresh : w'.fresh = w.fresh
  nodes : ∀ j, w'.nodes.get j = (w.nodes.get j).map fun m => { m with
    parent := if j = id then some p else m.parent
    xferNumber := if j ∈ line then m.xferNumber + add else m.xferNumber }
  sums : ∀ j level, w'.nodes.total (fun m => bit (under j level m))
    = w.nodes.total (fun m => bit (under j level m))
      + (w.nodes.get id).elim 0 fun n => bit (under j level { n with parent := some p })

theorem under_none (j : Nat) (level : Level) (h : n.parent = none) : under j level n = false := by
  unfold under
  rw [h]
  cases level <;> simp

theorem attached_nil (hGet : w.nodes.get id = some n) (hNone : n.parent = none) (p : Nat)
    (add : Int) : Attached w id p [] add (w.update id fun n => { n with parent := some p }) where
  total := rfl
  fresh := rfl
  nodes j := by
    unfold update
    rw [Table.get_modify]
    by_cases hj : j = id
    · simp [hj]
    · simp [hj]
  sums j level := by
    unfold update
    rw [Table.total_modify hGet, hGet, under_none j level hNone]
    simp

theorem Attached.bump {line : List Nat} (h : Attached w id p line add w') (hNew : t ∉ line) :
    Attached w id p (t :: line) add (w'.bump add t) where
  total := h.total
  fresh := h.fresh
  nodes j := by
    rw [get_bump, h.nodes]
    by_cases hj : j = t
    · subst hj
      simp only [if_true, List.mem_cons_self, if_neg hNew]
      cases w.nodes.get j <;> rfl
    · rw [if_neg hj]
      simp only [List.mem_cons, hj, false_or]
  sums j level := by
    rw [← h.sums]
    exact Table.total_modify_same (f := fun n => { n with xferNumber := n.xferNumber + add })
      (w := fun m => bit (under j level m)) (fun m => rfl) w'.nodes t

/-- The parent of a node is in the map. -/
theorem Sound.parent (h : Sound pending w) (hGet : w.nodes.get id = some n)
    (hParent : n.parent = some p) : ∃ key, w.total.get key = some p := by
  have hNot : ¬ pending id := fun hPending => by
    rw [h.pending hGet hPending] at hParent
    cases hParent
  cases hLevel : n.level with
  | perConn =>
      obtain ⟨key, q, hq, hKey⟩ := h.perConn hGet hLevel hNot
      rw [hParent] at hq
      exact ⟨key, hKey.trans hq.symm⟩
  | perHost =>
      obtain ⟨q, hq, hKey⟩ := h.perHost hGet hLevel hNot
      rw [hParent] at hq
      exact ⟨[], hKey.trans hq.symm⟩
  | total =>
      rw [(h.total hGet hLevel).1] at hParent
      cases hParent

/-- What is in the map exists. -/
theorem Sound.mapped (h : Sound pending w) {key : Bytes} (hKey : w.total.get key = some p) :
    ∃ n, w.nodes.get p = some n ∧ n.level ≠ .perConn ∧ (n.level = .total ↔ key = []) := by
  by_cases hNil : key = []
  · subst hNil
    obtain ⟨n, hGet, hLevel⟩ := h.top hKey
    exact ⟨n, hGet, by simp [hLevel], by simp [hLevel]⟩
  · obtain ⟨n, t, hGet, hLevel, -⟩ := h.host hNil hKey
    exact ⟨n, hGet, by simp [hLevel], by simp [hLevel, hNil]⟩

/-- What a new connection adds to the nodes above it. -/
def weight (n : Node) : Int := if n.level = .perConn then 1 else 0

/-- The nodes above a new node, from the top. -/
inductive Above (w : World) (n : Node) : Nat → List Nat → Prop
  | top {t : Nat} (h : w.total.get [] = some t) : Above w n t [t]
  | host {key : Bytes} {p t : Nat} (hConn : n.level = .perConn) (hKey : key ≠ [])
    (h : w.total.get key = some p) (hTop : w.total.get [] = some t) : Above w n p [t, p]

theorem Above.mem_key {line : List Nat} (h : Above w n p line) {j : Nat} (hj : j ∈ line) :
    ∃ key, w.total.get key = some j := by
  cases h with
  | top h => exact ⟨[], (List.mem_singleton.mp hj).symm ▸ h⟩
  | host hConn hKey h hTop =>
      rcases List.mem_pair.mp hj with rfl | rfl
      · exact ⟨[], hTop⟩
      · exact ⟨_, h⟩

theorem Above.mem_self {line : List Nat} (h : Above w n p line) : p ∈ line := by
  cases h <;> simp

/-- The nodes above are those for which the new node counts. -/
theorem Above.mem_iff {line : List Nat} (h : Sound pending w) (hAbove : Above w n p line)
    {j : Nat} (hGet : w.nodes.get j = some m) (hNew : n.level = .perConn) :
    j ∈ line ↔ under j m.level { n with parent := some p } = true := by
  have hMapped : ∀ {key q}, w.total.get key = some q → q = j →
      m.level ≠ .perConn ∧ (m.level = .total ↔ key = []) := by
    rintro key q hKey rfl
    obtain ⟨m', hGet', hFacts⟩ := h.mapped hKey
    rw [hGet] at hGet'
    exact Option.some.inj hGet' ▸ hFacts
  cases hLevel : m.level with
  | perConn =>
      refine iff_of_false (fun hMem => ?_) (by simp [under])
      cases hAbove with
      | top hTop => exact (hMapped hTop (List.mem_singleton.mp hMem).symm).1 hLevel
      | host _ _ hKey hTop =>
          rcases List.mem_pair.mp hMem with rfl | rfl
          · exact (hMapped hTop rfl).1 hLevel
          · exact (hMapped hKey rfl).1 hLevel
  | perHost =>
      have hNotTop : ∀ {t}, w.total.get [] = some t → t ≠ j := fun hTop hEq => by
        have hTotal := (hMapped hTop hEq).2.mpr rfl
        rw [hLevel] at hTotal
        cases hTotal
      have hUnder : under j .perHost { n with parent := some p } = true ↔ p = j := by
        simp [under, hNew]
      rw [hUnder]
      cases hAbove with
      | top hTop =>
          rw [List.mem_singleton]
          exact iff_of_false (fun hEq => hNotTop hTop hEq.symm) (hNotTop hTop)
      | host _ _ hKey hTop =>
          rw [List.mem_pair]
          exact ⟨fun hOr => (hOr.resolve_left fun hEq => hNotTop hTop hEq.symm).symm,
            fun hEq => .inr hEq.symm⟩
  | total =>
      have hKey := (h.total hGet hLevel).2
      refine iff_of_true ?_ (by simp [under, hNew])
      cases hAbove with
      | top hTop => exact List.mem_singleton.mpr (Option.some.inj (hKey.symm.trans hTop))
      | host _ _ _ hTop =>
          exact List.mem_pair.mpr (.inl (Option.some.inj (hKey.symm.trans hTop)))

theorem Above.not_conn {line : List Nat} (h : Sound pending w) (hAbove : Above w n p line) {j : Nat}
    (hGet : w.nodes.get j = some m) (hLevel : m.level = .perConn) : j ∉ line := by
  have hMapped : ∀ {key q}, w.total.get key = some q → j ≠ q := by
    rintro key q hKey rfl
    obtain ⟨m', hGet', hNot, -⟩ := h.mapped hKey
    rw [hGet] at hGet'
    cases hGet'
    exact hNot hLevel
  cases hAbove with
  | top hTop => simpa using hMapped hTop
  | host _ _ hKey hTop => simpa using ⟨hMapped hTop, hMapped hKey⟩

/-- A node that gets its place is counted. -/
theorem Sound.attached {line : List Nat} (h : Sound pending w) (hGet : w.nodes.get id = some n)
    (hPending : pending id) (hLow : n.level ≠ .total) (hAbove : Above w n p line)
    (hAttached : Attached w id p line (weight n) w') : Sound (fun j => pending j ∧ j ≠ id) w' := by
  have hNone := h.pending hGet hPending
  have hOld : ∀ {j m'}, w'.nodes.get j = some m' → ∃ m, w.nodes.get j = some m
      ∧ m'.level = m.level ∧ m'.parent = (if j = id then some p else m.parent)
      ∧ m'.xferNumber = if j ∈ line then m.xferNumber + weight n else m.xferNumber := by
    intro j m' hNew
    rw [hAttached.nodes] at hNew
    obtain ⟨m, hm, rfl⟩ := Option.map_eq_some_iff.mp hNew
    exact ⟨m, hm, rfl, rfl, rfl⟩
  have hKeeps : ∀ {j m}, w.nodes.get j = some m → ∃ m', w'.nodes.get j = some m'
      ∧ m'.level = m.level ∧ m'.parent = if j = id then some p else m.parent := by
    intro j m hm
    rw [hAttached.nodes, hm]
    exact ⟨_, rfl, rfl, rfl⟩
  refine ⟨fun hNew => ?_, fun hKey => ?_, fun hKey hMap => ?_, fun {j m'} hNew hLevel hNot => ?_,
    fun {j m'} hNew hLevel hNot => ?_, fun {j m'} hNew hLevel => ?_, fun hNew hBoth => ?_,
    fun {j m'} hNew => ?_⟩
  · obtain ⟨m, hm, -⟩ := hOld hNew
    rw [hAttached.fresh]
    exact h.fresh hm
  · rw [hAttached.total] at hKey
    obtain ⟨m, hm, hLevel⟩ := h.top hKey
    obtain ⟨m', hm', hLevel', -⟩ := hKeeps hm
    exact ⟨m', hm', hLevel'.trans hLevel⟩
  · rw [hAttached.total] at hMap ⊢
    obtain ⟨m, t, hm, hLevel, hParent, hTop⟩ := h.host hKey hMap
    obtain ⟨m', hm', hLevel', hParent'⟩ := hKeeps hm
    refine ⟨m', t, hm', hLevel'.trans hLevel, ?_, hTop⟩
    rw [hParent', if_neg, hParent]
    rintro rfl
    rw [hGet] at hm
    cases hm
    rw [hNone] at hParent
    cases hParent
  · obtain ⟨m, hm, hLevel', hParent, -⟩ := hOld hNew
    rw [hAttached.total, hParent]
    by_cases hj : j = id
    · rw [if_pos hj]
      obtain ⟨key, hKey⟩ := hAbove.mem_key hAbove.mem_self
      exact ⟨key, p, rfl, hKey⟩
    · rw [if_neg hj]
      exact h.perConn hm (hLevel'.symm.trans hLevel) fun hIs => hNot ⟨hIs, hj⟩
  · obtain ⟨m, hm, hLevel', hParent, -⟩ := hOld hNew
    rw [hAttached.total, hParent]
    by_cases hj : j = id
    · rw [if_pos hj]
      subst hj
      rw [hGet] at hm
      cases hm
      cases hAbove with
      | top hTop => exact ⟨_, rfl, hTop⟩
      | host hConn =>
          rw [hLevel', hConn] at hLevel
          cases hLevel
    · rw [if_neg hj]
      exact h.perHost hm (hLevel'.symm.trans hLevel) fun hIs => hNot ⟨hIs, hj⟩
  · obtain ⟨m, hm, hLevel', hParent, -⟩ := hOld hNew
    obtain ⟨hOldNone, hTop⟩ := h.total hm (hLevel'.symm.trans hLevel)
    have hj : j ≠ id := by
      rintro rfl
      rw [hGet] at hm
      cases hm
      exact hLow (hLevel'.symm.trans hLevel)
    rw [hAttached.total, hParent, if_neg hj]
    exact ⟨hOldNone, hTop⟩
  · obtain ⟨m, hm, hLevel', hParent, -⟩ := hOld hNew
    rw [hParent, if_neg hBoth.2]
    exact h.pending hm hBoth.1
  · obtain ⟨m, hm, hLevel', hParent, hXfer⟩ := hOld hNew
    have hDue := h.xfer hm
    have hSums := hAttached.sums j m.level
    rw [hGet, Option.elim_some] at hSums
    unfold due at hDue ⊢
    rw [hXfer, hLevel', hSums, hDue]
    by_cases hConn : n.level = .perConn
    · have hMem := hAbove.mem_iff h hm hConn
      rw [weight, if_pos hConn]
      by_cases hIn : j ∈ line
      · have hUnder := hMem.mp hIn
        have hNode : m.level ≠ .perConn := by
          intro hEq
          rw [hEq] at hUnder
          simp [under] at hUnder
        rw [if_pos hIn, hUnder, if_neg hNode, if_neg hNode]
        rfl
      · have hUnder := (Bool.not_eq_true _).mp (mt hMem.mpr hIn)
        rw [if_neg hIn, hUnder]
        simp
    · have hUnder : under j m.level { n with parent := some p } = false := by simp [under, hConn]
      rw [weight, if_neg hConn, hUnder]
      simp

/-! ## New nodes -/

theorem bit_eq_zero {b : Bool} : bit b = 0 ↔ b = false := by cases b <;> decide

theorem Sound.fresh_none (h : Sound pending w) : w.nodes.get w.fresh = none := by
  cases hGet : w.nodes.get w.fresh with
  | none => rfl
  | some m => exact absurd (h.fresh hGet) (Nat.lt_irrefl _)

theorem get_insert_cases (h : w.nodes.get w.fresh = none) {j : Nat}
    (hm : (w.nodes.insert w.fresh n).get j = some m) :
    (j = w.fresh ∧ m = n) ∨ w.nodes.get j = some m := by
  rw [Table.get_insert h] at hm
  split_ifs at hm with hj
  · cases hm
    exact .inl ⟨hj, rfl⟩
  · exact .inr hm

/-- A new node without a parent, of which no other one is below. -/
theorem Sound.insert (h : Sound pending w) (hParent : n.parent = none) (hLow : n.level ≠ .total)
    (hXfer : n.xferNumber = weight n) :
    Sound (fun j => pending j ∨ j = w.fresh) ⟨w.nodes.insert w.fresh n, w.total, w.fresh + 1⟩ := by
  have hFresh := h.fresh_none
  have hGet := Table.get_insert hFresh n
  have hOld : ∀ {j m}, w.nodes.get j = some m → (w.nodes.insert w.fresh n).get j = some m :=
    fun hm => Table.get_insert_of_some hm _ _
  have hCases : ∀ {j m}, (w.nodes.insert w.fresh n).get j = some m →
      (j = w.fresh ∧ m = n) ∨ w.nodes.get j = some m := get_insert_cases hFresh
  have hSums : ∀ j level, (w.nodes.insert w.fresh n).total (fun m => bit (under j level m))
      = w.nodes.total fun m => bit (under j level m) := by
    intro j level
    rw [Table.total_insert hFresh, under_none j level hParent]
    simp
  refine ⟨fun {j m} hNew => ?_, fun hKey => ?_, fun hKey hMap => ?_, fun {j m} hNew hLevel hNot => ?_,
    fun {j m} hNew hLevel hNot => ?_, fun {j m} hNew hLevel => ?_, fun {j m} hNew hOr => ?_,
    fun {j m} hNew => ?_⟩
  · rcases hCases hNew with ⟨rfl, -⟩ | hm
    · exact Nat.lt_succ_self _
    · exact Nat.lt_succ_of_lt (h.fresh hm)
  · obtain ⟨m, hm, hLevel⟩ := h.top hKey
    exact ⟨m, hOld hm, hLevel⟩
  · obtain ⟨m, t, hm, hFacts⟩ := h.host hKey hMap
    exact ⟨m, t, hOld hm, hFacts⟩
  · rcases hCases hNew with ⟨rfl, -⟩ | hm
    · exact absurd (.inr rfl) hNot
    · exact h.perConn hm hLevel fun hIs => hNot (.inl hIs)
  · rcases hCases hNew with ⟨rfl, -⟩ | hm
    · exact absurd (.inr rfl) hNot
    · exact h.perHost hm hLevel fun hIs => hNot (.inl hIs)
  · rcases hCases hNew with ⟨-, rfl⟩ | hm
    · exact absurd hLevel hLow
    · exact h.total hm hLevel
  · rcases hCases hNew with ⟨-, rfl⟩ | hm
    · exact hParent
    · rcases hOr with hPending | rfl
      · exact h.pending hm hPending
      · rw [hFresh] at hm
        cases hm
  · show m.xferNumber = due ⟨w.nodes.insert w.fresh n, w.total, w.fresh + 1⟩ j m
    unfold due
    rw [hSums]
    rcases hCases hNew with ⟨rfl, rfl⟩ | hm
    · rw [hXfer, weight]
      split_ifs with hConn
      · rfl
      · refine (Table.total_eq_zero fun k m' hm' => ?_).symm
        rw [bit_eq_zero]
        have hHost : m.level = .perHost := by
          cases hLevel : m.level with
          | perConn => exact absurd hLevel hConn
          | perHost => rfl
          | total => exact absurd hLevel hLow
        by_contra hUnder
        have hParent' : m'.parent = some w.fresh := by
          rw [hHost] at hUnder
          simp [under] at hUnder
          exact hUnder.2
        obtain ⟨key, hKey⟩ := h.parent hm' hParent'
        obtain ⟨q, hq, -⟩ := h.mapped hKey
        rw [hFresh] at hq
        cases hq
    · exact h.xfer hm

theorem start_alike (env : Env) (h : w.nodes.get w.fresh = none) (level : Level) (c : Bytes) :
    Yields Unread (fun r => r.1 = w.fresh
      ∧ Alike ⟨w.nodes.insert w.fresh (.blank level), w.total, w.fresh + 1⟩ r.2)
      (w.start env level c) := by
  have hGet : (w.nodes.insert w.fresh (.blank level)).get w.fresh = some (.blank level) := by
    rw [Table.get_insert h, if_pos rfl]
  have hLine : Line (fun _ => True) ⟨w.nodes.insert w.fresh (.blank level), w.total, w.fresh + 1⟩
      3 w.fresh := ⟨_, hGet, trivial, fun p hp => nomatch hp⟩
  exact (reconfig_alike env none hLine (some c)).bind fun w' hw' => ⟨rfl, hw'⟩

/-- Connections keep their places and counters. -/
def Keeps (w w' : World) : Prop :=
  ∀ j m, w.nodes.get j = some m → m.level = .perConn → ∃ m', w'.nodes.get j = some m' ∧ m'.core = m.core

theorem Alike.keeps (h : Alike w w') : Keeps w w' := fun _ _ hm _ => h.get' hm

/-- A new entry of the map. -/
def withTotal (w : World) (key : Bytes) (p : Nat) : World :=
  { w with total := (w.total.erase key).insert key p }

theorem get_withTotal (w : World) (key : Bytes) (p : Nat) (k : Bytes) :
    (w.withTotal key p).total.get k = if k = key then some p else w.total.get k := by
  unfold withTotal
  rw [Table.get_insert (by rw [Table.get_erase, if_pos rfl]), Table.get_erase]
  split_ifs <;> rfl

theorem addTotal_eq {key : Bytes} (h : w.total.get key = none) (p : Nat) :
    w.addTotal key p = .ok (w.withTotal key p) := by
  unfold addTotal
  rw [h]
  rfl

theorem Alike.withTotal (h : Alike w w') (key : Bytes) (p : Nat) :
    Alike (w.withTotal key p) (w'.withTotal key p) := by
  refine ⟨?_, h.fresh, h.nodes, h.sums⟩
  unfold World.withTotal
  rw [h.total]

/-- The first node of all. -/
theorem Sound.insert_top (h : Sound pending w) (hNone : w.total.get [] = none) :
    Sound pending (withTotal ⟨w.nodes.insert w.fresh (.blank .total), w.total, w.fresh + 1⟩ []
      w.fresh) := by
  have hFresh := h.fresh_none
  have hGet := Table.get_insert hFresh (.blank .total)
  have hMap := get_withTotal ⟨w.nodes.insert w.fresh (.blank .total), w.total, w.fresh + 1⟩ [] w.fresh
  have hCases : ∀ {j m}, (w.nodes.insert w.fresh (.blank .total)).get j = some m →
      (j = w.fresh ∧ m = .blank .total) ∨ w.nodes.get j = some m := get_insert_cases hFresh
  have hHosts : ∀ {key p}, w.total.get key = some p → False := by
    intro key p hKey
    by_cases hNil : key = []
    · rw [hNil, hNone] at hKey
      cases hKey
    · obtain ⟨m, t, -, -, -, hTop⟩ := h.host hNil hKey
      rw [hNone] at hTop
      cases hTop
  have hParent : ∀ {j m}, w.nodes.get j = some m → m.parent = none := by
    intro j m hm
    cases hUp : m.parent with
    | none => rfl
    | some p =>
        obtain ⟨key, hKey⟩ := h.parent hm hUp
        exact (hHosts hKey).elim
  have hZero : ∀ j level, w.nodes.total (fun m => bit (under j level m)) = 0 := fun j level =>
    Table.total_eq_zero fun k m hm => bit_eq_zero.mpr (under_none j level (hParent hm))
  have hSums : ∀ j level, (w.nodes.insert w.fresh (.blank .total)).total
      (fun m => bit (under j level m)) = 0 := by
    intro j level
    rw [Table.total_insert hFresh, hZero]
    rfl
  refine ⟨fun hNew => ?_, fun hKey => ?_, fun hKey hIn => ?_, fun hNew hLevel hNot => ?_,
    fun hNew hLevel hNot => ?_, fun hNew hLevel => ?_, fun hNew hPending => ?_,
    fun {j m} hNew => ?_⟩
  · rcases hCases hNew with ⟨rfl, -⟩ | hm
    · exact Nat.lt_succ_self _
    · exact Nat.lt_succ_of_lt (h.fresh hm)
  · rw [hMap, if_pos rfl] at hKey
    cases hKey
    exact ⟨.blank .total, (hGet _).trans (if_pos rfl), rfl⟩
  · rw [hMap, if_neg hKey] at hIn
    exact (hHosts hIn).elim
  · rcases hCases hNew with ⟨-, rfl⟩ | hm
    · cases hLevel
    · obtain ⟨key, p, -, hKey⟩ := h.perConn hm hLevel hNot
      exact (hHosts hKey).elim
  · rcases hCases hNew with ⟨-, rfl⟩ | hm
    · cases hLevel
    · obtain ⟨t, -, hKey⟩ := h.perHost hm hLevel hNot
      exact (hHosts hKey).elim
  · rcases hCases hNew with ⟨rfl, rfl⟩ | hm
    · exact ⟨rfl, (hMap []).trans (if_pos rfl)⟩
    · exact (hHosts (h.total hm hLevel).2).elim
  · rcases hCases hNew with ⟨-, rfl⟩ | hm
    · rfl
    · exact hParent hm
  · show m.xferNumber = due _ j m
    unfold due
    rw [show (withTotal ⟨w.nodes.insert w.fresh (.blank .total), w.total, w.fresh + 1⟩ []
      w.fresh).nodes = w.nodes.insert w.fresh (.blank .total) from rfl, hSums]
    rcases hCases hNew with ⟨-, rfl⟩ | hm
    · rfl
    · rw [h.xfer hm, due, hZero]

/-- A host gets its entry. -/
theorem Sound.withTotal (h : Sound pending w) {key : Bytes} (hKey : key ≠ [])
    (hNew : w.total.get key = none) (hGet : w.nodes.get p = some n) (hLevel : n.level = .perHost)
    (hNot : ¬ pending p) : Sound pending (w.withTotal key p) := by
  have hMap := get_withTotal w key p
  have hOld : ∀ {k q}, w.total.get k = some q → (w.withTotal key p).total.get k = some q := by
    intro k q hk
    rw [hMap, if_neg, hk]
    rintro rfl
    rw [hNew] at hk
    cases hk
  have hTop : (w.withTotal key p).total.get [] = w.total.get [] := by
    rw [hMap, if_neg (Ne.symm hKey)]
  refine ⟨h.fresh, fun hk => h.top (hTop.symm.trans hk), fun {k q} hk hIn => ?_,
    fun hm hLevel hNot => ?_, fun hm hLevel hNot => ?_, fun hm hLevel => ?_, h.pending, h.xfer⟩
  · rw [hTop]
    rw [hMap] at hIn
    split_ifs at hIn with hEq
    · cases hIn
      obtain ⟨t, hParent, hIs⟩ := h.perHost hGet hLevel hNot
      exact ⟨n, t, hGet, hLevel, hParent, hIs⟩
    · exact h.host hk hIn
  · obtain ⟨k, q, hParent, hk⟩ := h.perConn hm hLevel hNot
    exact ⟨k, q, hParent, hOld hk⟩
  · rw [hTop]
    exact h.perHost hm hLevel hNot
  · rw [hTop]
    exact h.total hm hLevel

theorem Sound.congr {pending' : Nat → Prop} (h : Sound pending w)
    (hEq : ∀ j, pending' j ↔ pending j) : Sound pending' w := by
  obtain rfl : pending' = pending := funext fun j => propext (hEq j)
  exact h

theorem due_nonneg (w : World) (id : Nat) (n : Node) : 0 ≤ w.due id n := by
  unfold due
  split_ifs
  · decide
  · refine Table.total_nonneg fun k m _ => ?_
    cases under id n.level m <;> decide

/-- The nodes in the map are not far from the top. -/
theorem Sound.line (h : Sound pending w) {key : Bytes} (hKey : w.total.get key = some p)
    (hQ : ∀ m, w.nodes.get p = some m → Q m.xferNumber)
    (hTop : ∀ t m, w.total.get [] = some t → w.nodes.get t = some m → Q m.xferNumber) :
    Line Q w 2 p := by
  obtain ⟨n, hGet, hLevel, hIff⟩ := h.mapped hKey
  refine ⟨n, hGet, hQ n hGet, fun t ht => ?_⟩
  have hUp : w.total.get [] = some t := by
    by_cases hNil : key = []
    · rw [(h.total hGet (hIff.mpr hNil)).1] at ht
      cases ht
    · obtain ⟨n', t', hGet', -, hParent, hIs⟩ := h.host hNil hKey
      rw [hGet] at hGet'
      cases hGet'
      rw [hParent] at ht
      cases ht
      exact hIs
  obtain ⟨m, hm, hTotal⟩ := h.top hUp
  refine ⟨m, hm, hTop t m hUp hm, fun q hq => ?_⟩
  rw [(h.total hm hTotal).1] at hq
  cases hq

theorem refresh_alike (env : Env) (h : Sound pending w) {key : Bytes}
    (hKey : w.total.get key = some p) :
    Yields Unread (fun r => r.1 = p ∧ Alike w r.2) (w.refresh env key p) := by
  obtain ⟨n, hGet, -⟩ := h.mapped hKey
  have hLine : Line (fun _ => True) w 3 p :=
    (h.line hKey (fun _ _ => trivial) fun _ _ _ _ => trivial).succ
  unfold refresh
  rw [deref_of hGet, ok_bind]
  have hRead : Yields Unread (Alike w)
      (if n.xferNumber = 0 then w.reconfig env none 3 p (some key) else .ok w) :=
    Yields.ite (fun _ => reconfig_alike env none hLine _) fun _ => Alike.refl w
  apply hRead.bind
  intro w' hw'
  exact ⟨rfl, hw'⟩

/-- The parent of a new node counts it. -/
theorem addXfer_attached {key : Bytes} (h : Sound pending w) (hGet : w.nodes.get id = some n)
    (hPending : pending id) (hLow : n.level ≠ .total) (hKey : w.total.get key = some p)
    (hHost : n.level = .perHost → key = []) :
    ∃ w' line, addXfer (weight n) 3 p (w.update id fun n => { n with parent := some p }) = .ok w'
      ∧ Above w n p line ∧ Attached w id p line (weight n) w' := by
  have hNone := h.pending hGet hPending
  have hBase := attached_nil hGet hNone p (weight n)
  have hWeight : 0 ≤ weight n := by
    unfold weight
    split_ifs <;> decide
  have hPos : ∀ {j m}, w.nodes.get j = some m → 0 ≤ m.xferNumber + weight n := by
    intro j m hm
    have hDue := due_nonneg w j m
    rw [← h.xfer hm] at hDue
    omega
  have hApart : ∀ {k q}, w.total.get k = some q → q ≠ id := by
    rintro k q hk rfl
    by_cases hNil : k = []
    · subst hNil
      obtain ⟨m, hm, hLevel⟩ := h.top hk
      rw [hGet] at hm
      cases hm
      exact hLow hLevel
    · obtain ⟨m, t, hm, -, hParent, -⟩ := h.host hNil hk
      rw [hGet] at hm
      cases hm
      rw [hNone] at hParent
      cases hParent
  have hStays : ∀ {k q m}, w.total.get k = some q → w.nodes.get q = some m →
      (w.update id fun n => { n with parent := some p }).nodes.get q = some m := by
    intro k q m hk hm
    rw [hBase.nodes, hm]
    simp [hApart hk]
  by_cases hNil : key = []
  · subst hNil
    obtain ⟨m, hm, hLevel⟩ := h.top hKey
    exact ⟨_, [p], addXfer_top (hStays hKey hm) (h.total hm hLevel).1 (hPos hm), .top hKey,
      hBase.bump List.not_mem_nil⟩
  · obtain ⟨m, t, hm, hLevel, hParent, hTop⟩ := h.host hNil hKey
    obtain ⟨m', hm', hLevel'⟩ := h.top hTop
    have hConn : n.level = .perConn := by
      cases hIs : n.level with
      | perConn => rfl
      | perHost => exact absurd (hHost hIs) hNil
      | total => exact absurd hIs hLow
    have hNe : t ≠ p := by
      rintro rfl
      rw [hm] at hm'
      cases hm'
      rw [hLevel] at hLevel'
      cases hLevel'
    exact ⟨_, [t, p], addXfer_host (hStays hKey hm) hParent (hPos hm) hNe (hStays hTop hm')
      (h.total hm' hLevel').1 (hPos hm'), .host hConn hNil hKey hTop,
      (hBase.bump List.not_mem_nil).bump (by simpa using hNe)⟩

/-- What a node gets at the end of `init`. `R` is what is known of the map. -/
theorem attach_sound (env : Env) (key : Bytes) (make : World → Except Fault (Nat × World))
    {R : (Bytes → Option Nat) → Prop} (h : Sound pending w) (hGet : w.nodes.get id = some n)
    (hPending : pending id) (hLow : n.level ≠ .total) (hXfer : n.xferNumber = weight n)
    (hHost : n.level = .perHost → key = []) (hR : w.total.get key ≠ none → R w.total.get)
    (hMake : w.total.get key = none → Yields Unread (fun r => Sound pending r.2
      ∧ r.2.total.get key = some r.1 ∧ (∃ m, r.2.nodes.get id = some m ∧ m.core = n.core)
      ∧ Keeps w r.2 ∧ R r.2.total.get) (enter key make w)) :
    Yields Unread (fun w' => Sound (fun j => pending j ∧ j ≠ id) w' ∧ R w'.total.get
      ∧ (∃ m, w'.nodes.get id = some m ∧ m.level = n.level)
      ∧ ∀ j m, w.nodes.get j = some m → m.level = .perConn → j ≠ id →
        ∃ m', w'.nodes.get j = some m' ∧ m'.core = m.core)
      (w.attach env id key make) := by
  have hFound : Yields Unread (fun r => Sound pending r.2 ∧ r.2.total.get key = some r.1
      ∧ (∃ m, r.2.nodes.get id = some m ∧ m.core = n.core) ∧ Keeps w r.2 ∧ R r.2.total.get)
      ((w.total.get key).elim (enter key make w) (w.refresh env key)) := by
    refine Yields.option hMake fun p hKey => (refresh_alike env h hKey).imp ?_
    rintro ⟨q, w'⟩ ⟨rfl, hAlike⟩
    refine ⟨h.alike hAlike, ?_, hAlike.get' hGet, hAlike.keeps, ?_⟩
    · show w'.total.get key = _
      rw [hAlike.total, hKey]
    · show R w'.total.get
      rw [hAlike.total]
      exact hR (by rw [hKey]; nofun)
  unfold attach
  apply hFound.bind
  rintro ⟨p, w₁⟩ ⟨h₁, hKey, ⟨m, hm, hCore⟩, hKeeps, hR₁⟩
  obtain ⟨hLevel, -, hXfer'⟩ := core_eq hCore
  have hWeight : m.xferNumber = weight m := by rw [hXfer', hXfer, weight, weight, hLevel]
  obtain ⟨w₂, line, hAdd, hAbove, hAttached⟩ := addXfer_attached h₁ hm hPending (hLevel ▸ hLow)
    hKey (hLevel ▸ hHost)
  dsimp only
  rw [deref_of hm, ok_bind, hWeight, hAdd]
  refine ⟨h₁.attached hm hPending (hLevel ▸ hLow) hAbove hAttached, ?_, ?_, ?_⟩
  · rw [hAttached.total]
    exact hR₁
  · rw [hAttached.nodes, hm]
    exact ⟨_, rfl, hLevel⟩
  · intro j m₀ hm₀ hConn hj
    obtain ⟨m₁, hm₁, hCore₁⟩ := hKeeps j m₀ hm₀ hConn
    rw [hAttached.nodes, hm₁]
    refine ⟨_, rfl, ?_⟩
    have hLine := hAbove.not_conn h₁ hm₁ ((core_eq hCore₁).1.trans hConn)
    rw [← hCore₁]
    simp [Node.core, hj, hLine]

/-! ## Connections -/

theorem Sound.insert_blank (h : Sound pending w) (level : Level) (hLow : level ≠ .total) :
    Sound (fun j => pending j ∨ j = w.fresh)
      ⟨w.nodes.insert w.fresh (.blank level), w.total, w.fresh + 1⟩ :=
  h.insert rfl hLow rfl

/-- Nodes that were there are still there when a new one is started. -/
theorem stays_insert {level : Level} (hAlike : Alike ⟨w.nodes.insert w.fresh (.blank level),
    w.total, w.fresh + 1⟩ w') {j : Nat} (hm : w.nodes.get j = some m) :
    ∃ m', w'.nodes.get j = some m' ∧ m'.core = m.core :=
  hAlike.get' (Table.get_insert_of_some hm _ _)

/-- The first node of all and its entry. -/
theorem enter_total (env : Env) (h : Sound pending w) (hNone : w.total.get [] = none) :
    Yields Unread (fun r => Sound pending r.2 ∧ r.2.total.get [] = some r.1
      ∧ (∀ j m, w.nodes.get j = some m → ∃ m', r.2.nodes.get j = some m' ∧ m'.core = m.core)
      ∧ ∀ k ≠ [], r.2.total.get k = w.total.get k) (enter [] (newTotal env) w) := by
  unfold enter newTotal
  apply (start_alike env h.fresh_none .total []).bind
  rintro ⟨p, w₁⟩ ⟨rfl, hAlike⟩
  have hMap : w₁.total = w.total := hAlike.total
  dsimp only
  rw [addTotal_eq (by rw [hMap, hNone]), ok_bind]
  have hSound := (h.insert_top hNone).alike (hAlike.withTotal [] w.fresh)
  refine ⟨hSound, ?_, fun j m hm => ?_, fun k hk => ?_⟩
  · rw [get_withTotal, if_pos rfl]
  · exact stays_insert hAlike hm
  · rw [get_withTotal, if_neg hk, hMap]

/-- A new host and its entry. -/
theorem enter_host (env : Env) (h : Sound pending w) (hOld : ¬ pending w.fresh) {c : Bytes}
    (hKey : c ≠ []) (hNone : w.total.get c = none) :
    Yields Unread (fun r => Sound pending r.2 ∧ r.2.total.get c = some r.1 ∧ Keeps w r.2)
      (enter c (newHost env c) w) := by
  unfold enter newHost
  have hMade : Yields Unread (fun r => Sound pending r.2 ∧ (∃ m, r.2.nodes.get r.1 = some m
      ∧ m.level = .perHost) ∧ ¬ pending r.1 ∧ r.2.total.get c = none ∧ Keeps w r.2)
      (do
        let (id, w) ← w.start env .perHost c
        let w ← w.attach env id [] (newTotal env)
        .ok (id, w)) := by
    apply (start_alike env h.fresh_none .perHost c).bind
    rintro ⟨p, w₁⟩ ⟨rfl, hAlike⟩
    have hMap : w₁.total = w.total := hAlike.total
    obtain ⟨m, hm, hCore⟩ := hAlike.get' ((Table.get_insert h.fresh_none _ _).trans (if_pos rfl))
    obtain ⟨hLevel, -, hXfer⟩ := core_eq hCore
    have hSound := (h.insert_blank .perHost nofun).alike hAlike
    have hAttach := attach_sound env [] (newTotal env)
      (R := fun f => ∀ k ≠ [], f k = w₁.total.get k) hSound hm (.inr rfl) (by rw [hLevel]; nofun)
      (by rw [hXfer, weight, hLevel]; rfl) (fun _ => rfl) (fun _ _ _ => rfl)
      fun hTop => (enter_total env hSound hTop).imp fun r hr =>
        ⟨hr.1, hr.2.1, hr.2.2.1 _ _ hm, fun j m' hm' _ => hr.2.2.1 j m' hm', hr.2.2.2⟩
    apply hAttach.bind
    rintro w₂ ⟨h₂, hRest, ⟨m₂, hm₂, hLevel₂⟩, hOthers⟩
    refine ⟨h₂.congr fun j => ?_, ⟨m₂, hm₂, hLevel₂.trans hLevel⟩, hOld, ?_, fun j m₀ hm₀ hConn => ?_⟩
    · constructor
      · exact fun hj => ⟨.inl hj, fun hEq => hOld (hEq ▸ hj)⟩
      · exact fun hj => hj.1.resolve_right hj.2
    · exact (hRest c hKey).trans (by rw [hMap, hNone])
    · obtain ⟨m₁, hm₁, hCore₁⟩ := stays_insert hAlike hm₀
      have hNe : j ≠ w.fresh := fun hEq => absurd (h.fresh hm₀) (by omega)
      obtain ⟨m₃, hm₃, hCore₃⟩ := hOthers j m₁ hm₁ ((core_eq hCore₁).1.trans hConn) hNe
      exact ⟨m₃, hm₃, hCore₃.trans hCore₁⟩
  apply hMade.bind
  rintro ⟨p, w'⟩ ⟨hSound, ⟨m, hm, hLevel⟩, hNot, hNew, hKeeps⟩
  dsimp only
  rw [addTotal_eq hNew, ok_bind]
  refine ⟨hSound.withTotal hKey hNew hm hLevel hNot, ?_, hKeeps⟩
  rw [get_withTotal, if_pos rfl]

/-- Every node has its place. -/
def Settled (w : World) : Prop := Sound (fun _ => False) w

/-- A new connection is counted, except if it is the first one and its host is empty. -/
theorem newConn_settled (env : Env) (h : Settled w) {c : Bytes}
    (hGuard : c = [] → w.total.get [] ≠ none) :
    Yields Unread (fun r => Settled r.2) (w.newConn env c) := by
  unfold newConn
  apply (start_alike env h.fresh_none .perConn c).bind
  rintro ⟨id, w₁⟩ ⟨rfl, hAlike⟩
  have hMap : w₁.total = w.total := hAlike.total
  obtain ⟨n, hGet, hCore⟩ := hAlike.get' ((Table.get_insert h.fresh_none _ _).trans (if_pos rfl))
  obtain ⟨hLevel, -, hXfer⟩ := core_eq hCore
  have hSound := (h.insert_blank .perConn nofun).alike hAlike
  have hNext : ¬ (False ∨ w₁.fresh = w.fresh) := by
    rw [false_or, show w₁.fresh = w.fresh + 1 from hAlike.fresh]
    omega
  have hAttach := attach_sound env c (newHost env c) (R := fun _ => True) hSound
    hGet (.inr rfl) (by rw [hLevel]; nofun) (by rw [hXfer, weight, hLevel]; rfl)
    (fun hHost => by rw [hLevel] at hHost; cases hHost) (fun _ => trivial) fun hNone => by
      have hKey : c ≠ [] := by
        rintro rfl
        exact hGuard rfl (by rw [← hMap, hNone])
      refine (enter_host env hSound hNext hKey hNone).imp ?_
      rintro r ⟨hSound', hIn, hKeeps⟩
      exact ⟨hSound', hIn, hKeeps _ _ hGet hLevel, hKeeps, trivial⟩
  apply hAttach.bind
  rintro w₂ ⟨h₂, -⟩
  refine h₂.congr fun j => ?_
  constructor
  · exact False.elim
  · exact fun hj => hj.1.elim id hj.2

/-- The counters of these nodes have changed. -/
structure Bumped (w : World) (line : List Nat) (add : Int) (w' : World) : Prop where
  total : w'.total = w.total
  fresh : w'.fresh = w.fresh
  nodes : ∀ j, w'.nodes.get j = (w.nodes.get j).map fun m =>
    { m with xferNumber := if j ∈ line then m.xferNumber + add else m.xferNumber }
  sums : ∀ j level, w'.nodes.total (fun m => bit (under j level m))
    = w.nodes.total fun m => bit (under j level m)

theorem bumped_nil (w : World) (add : Int) : Bumped w [] add w :=
  ⟨rfl, rfl, fun j => by simp, fun _ _ => rfl⟩

theorem Bumped.bump {line : List Nat} (h : Bumped w line add w') (hNew : t ∉ line) :
    Bumped w (t :: line) add (w'.bump add t) where
  total := h.total
  fresh := h.fresh
  nodes j := by
    rw [get_bump, h.nodes]
    by_cases hj : j = t
    · subst hj
      simp only [if_true, List.mem_cons_self, if_neg hNew]
      cases w.nodes.get j <;> rfl
    · rw [if_neg hj]
      simp only [List.mem_cons, hj, false_or]
  sums j level := by
    rw [← h.sums]
    exact Table.total_modify_same (f := fun n => { n with xferNumber := n.xferNumber + add })
      (w := fun m => bit (under j level m)) (fun m => rfl) w'.nodes t

theorem addXfer_bumped (add : Int) {line : List Nat} (h : Sound pending w) (hAbove : Above w n p line)
    (hPos : ∀ j ∈ line, ∀ m, w.nodes.get j = some m → 0 ≤ m.xferNumber + add) :
    ∃ w', addXfer add 3 p w = .ok w' ∧ Bumped w line add w' := by
  cases hAbove with
  | top hTop =>
      obtain ⟨m, hm, hLevel⟩ := h.top hTop
      exact ⟨_, addXfer_top hm (h.total hm hLevel).1 (hPos p (by simp) m hm),
        (bumped_nil w add).bump List.not_mem_nil⟩
  | @host key _ t hConn hKey hIn hTop =>
      obtain ⟨m, t', hm, hLevel, hParent, hTop'⟩ := h.host hKey hIn
      obtain rfl : t = t' := Option.some.inj (hTop.symm.trans hTop')
      obtain ⟨m', hm', hLevel'⟩ := h.top hTop
      have hNe : t ≠ p := by
        rintro rfl
        rw [hm] at hm'
        cases hm'
        rw [hLevel] at hLevel'
        cases hLevel'
      exact ⟨_, addXfer_host hm hParent (hPos p (by simp) m hm) hNe hm' (h.total hm' hLevel').1
        (hPos t (by simp) m' hm'),
        ((bumped_nil w add).bump List.not_mem_nil).bump (by simpa using hNe)⟩

/-- The nodes above a connection. -/
theorem Settled.above (h : Settled w) (hGet : w.nodes.get id = some n) (hConn : n.level = .perConn) :
    ∃ p line, n.parent = some p ∧ Above w n p line := by
  obtain ⟨key, p, hParent, hIn⟩ := h.perConn hGet hConn not_false
  by_cases hKey : key = []
  · subst hKey
    exact ⟨p, [p], hParent, .top hIn⟩
  · obtain ⟨m, t, -, -, -, hTop⟩ := h.host hKey hIn
    exact ⟨p, [t, p], hParent, .host hConn hKey hIn hTop⟩

/-- A connection counts for the nodes above it. -/
theorem Settled.mem_line {line : List Nat} (h : Settled w) (hConn : n.level = .perConn)
    (hParent : n.parent = some p) (hAbove : Above w n p line) {j : Nat}
    (hm : w.nodes.get j = some m) : j ∈ line ↔ under j m.level n = true := by
  have hSame : { n with parent := some p } = n := by
    rw [← hParent]
  have hIff := hAbove.mem_iff h hm hConn
  rw [hSame] at hIff
  exact hIff

theorem Settled.one_le {line : List Nat} (h : Settled w) (hGet : w.nodes.get id = some n)
    (hConn : n.level = .perConn) (hParent : n.parent = some p) (hAbove : Above w n p line) {j : Nat}
    (hj : j ∈ line) (hm : w.nodes.get j = some m) : 1 ≤ m.xferNumber := by
  have hUnder := (h.mem_line hConn hParent hAbove hm).mp hj
  have hNode : m.level ≠ .perConn := fun hIs => hAbove.not_conn h hm hIs hj
  have hRest := Table.total_erase hGet fun m' => bit (under j m.level m')
  have hNonneg : 0 ≤ (w.nodes.erase id).total fun m' => bit (under j m.level m') :=
    Table.total_nonneg fun k m' _ => by cases under j m.level m' <;> decide
  rw [h.xfer hm, due, if_neg hNode]
  rw [hUnder, bit_true] at hRest
  omega

theorem delete_settled (h : Settled w) (hGet : w.nodes.get id = some n)
    (hConn : n.level = .perConn) : ∃ w', w.delete id = .ok w' ∧ Settled w' := by
  obtain ⟨p, line, hParent, hAbove⟩ := h.above hGet hConn
  have hOne : n.xferNumber = 1 := by rw [h.xfer hGet, due, if_pos hConn]
  obtain ⟨w₁, hAdd, hBumped⟩ := addXfer_bumped (-1) h hAbove fun j hj m hm => by
    have := h.one_le hGet hConn hParent hAbove hj hm
    omega
  refine ⟨⟨w₁.nodes.erase id, w₁.total, w₁.fresh⟩, ?_, ?_⟩
  · unfold delete
    rw [deref_of hGet, ok_bind, hParent, Option.elim_some, hOne, if_pos one_ne_zero, hAdd]
    rfl
  have hNot : id ∉ line := hAbove.not_conn h hGet hConn
  have hGone : w₁.nodes.get id = some n := by
    rw [hBumped.nodes, hGet, Option.map_some, if_neg hNot]
  have hOld : ∀ {j m'}, (w₁.nodes.erase id).get j = some m' → j ≠ id ∧ ∃ m,
      w.nodes.get j = some m ∧ m'.level = m.level ∧ m'.parent = m.parent
      ∧ m'.xferNumber = if j ∈ line then m.xferNumber + -1 else m.xferNumber := by
    intro j m' hNew
    rw [Table.get_erase] at hNew
    by_cases hj : j = id
    · rw [if_pos hj] at hNew
      cases hNew
    · rw [if_neg hj, hBumped.nodes] at hNew
      obtain ⟨m, hm, rfl⟩ := Option.map_eq_some_iff.mp hNew
      exact ⟨hj, m, hm, rfl, rfl, rfl⟩
  have hKeeps : ∀ {j m}, j ≠ id → w.nodes.get j = some m → ∃ m',
      (w₁.nodes.erase id).get j = some m' ∧ m'.level = m.level ∧ m'.parent = m.parent := by
    intro j m hj hm
    rw [Table.get_erase, if_neg hj, hBumped.nodes, hm]
    exact ⟨_, rfl, rfl, rfl⟩
  have hApart : ∀ {j m}, w.nodes.get j = some m → m.level ≠ .perConn → j ≠ id := by
    rintro j m hm hLevel rfl
    rw [hGet] at hm
    cases hm
    exact hLevel hConn
  refine ⟨fun hNew => ?_, fun hKey => ?_, fun hKey hIn => ?_, fun hNew hLevel _ => ?_,
    fun hNew hLevel _ => ?_, fun hNew hLevel => ?_, fun _ hFalse => hFalse.elim,
    fun {j m'} hNew => ?_⟩
  · obtain ⟨-, m, hm, -⟩ := hOld hNew
    exact lt_of_lt_of_eq (h.fresh hm) hBumped.fresh.symm
  · have hKey' := (congrArg (fun t => t.get []) hBumped.total).symm.trans hKey
    obtain ⟨m, hm, hLevel⟩ := h.top hKey'
    obtain ⟨m', hm', hLevel', -⟩ := hKeeps (hApart hm (by rw [hLevel]; rintro ⟨⟩)) hm
    exact ⟨m', hm', hLevel'.trans hLevel⟩
  · simp only [hBumped.total] at hIn ⊢
    obtain ⟨m, t, hm, hLevel, hParent, hTop⟩ := h.host hKey hIn
    obtain ⟨m', hm', hLevel', hParent'⟩ := hKeeps (hApart hm (by rw [hLevel]; rintro ⟨⟩)) hm
    exact ⟨m', t, hm', hLevel'.trans hLevel, hParent'.trans hParent, hTop⟩
  · obtain ⟨-, m, hm, hLevel', hParent', -⟩ := hOld hNew
    simp only [hBumped.total, hParent']
    exact h.perConn hm (hLevel'.symm.trans hLevel) not_false
  · obtain ⟨-, m, hm, hLevel', hParent', -⟩ := hOld hNew
    simp only [hBumped.total, hParent']
    exact h.perHost hm (hLevel'.symm.trans hLevel) not_false
  · obtain ⟨-, m, hm, hLevel', hParent', -⟩ := hOld hNew
    simp only [hBumped.total, hParent']
    exact h.total hm (hLevel'.symm.trans hLevel)
  · obtain ⟨-, m, hm, hLevel', -, hXfer⟩ := hOld hNew
    have hDue := h.xfer hm
    have hSums := (Table.total_erase hGone fun m' => bit (under j m.level m')).trans
      (congrArg (· - bit (under j m.level n)) (hBumped.sums j m.level))
    have hMem := h.mem_line hConn hParent hAbove hm
    unfold due at hDue ⊢
    rw [hXfer, hLevel', hSums, hDue]
    by_cases hIn : j ∈ line
    · have hNode : m.level ≠ .perConn := fun hIs => hAbove.not_conn h hm hIs hIn
      rw [if_pos hIn, if_neg hNode, if_neg hNode, hMem.mp hIn]
      rfl
    · rw [if_neg hIn, (Bool.not_eq_true _).mp (mt hMem.mpr hIn)]
      simp

/-! ## Descendants -/

theorem isConn_iff : w.isConn id ↔ ∃ n, w.nodes.get id = some n ∧ n.level = .perConn := by
  unfold isConn
  rw [Option.any_eq_true]
  simp only [decide_eq_true_eq]

/-- The connections that are alive below a node. -/
def conns (w : World) (id : Nat) : Set Nat := {c | w.isConn c ∧ w.Below c id}

theorem Above.mem_top {line : List Nat} (h : Above w n p line) (hTop : w.total.get [] = some t) :
    t ∈ line := by
  cases h with
  | top hIs => simp [Option.some.inj (hTop.symm.trans hIs)]
  | host _ _ _ hIs => simp [Option.some.inj (hTop.symm.trans hIs)]

theorem Settled.line_conn (h : Settled w) (hGet : w.nodes.get id = some n)
    (hConn : n.level = .perConn) : Line (0 < ·) w 3 id := by
  obtain ⟨p, line, hParent, hAbove⟩ := h.above hGet hConn
  obtain ⟨key, hKey⟩ := hAbove.mem_key hAbove.mem_self
  have hPos : ∀ {j m}, j ∈ line → w.nodes.get j = some m → 0 < m.xferNumber :=
    fun hj hm => h.one_le hGet hConn hParent hAbove hj hm
  have hOne : n.xferNumber = 1 := by rw [h.xfer hGet, due, if_pos hConn]
  refine ⟨n, hGet, by omega, fun p' hp' => ?_⟩
  obtain rfl : p = p' := Option.some.inj (hParent.symm.trans hp')
  exact h.line hKey (fun m hm => hPos hAbove.mem_self hm)
    fun t m hTop hm => hPos (hAbove.mem_top hTop) hm

theorem Settled.below_top (h : Settled w) (hTop : w.total.get [] = some t) :
    w.Below t q ↔ q = t := by
  obtain ⟨m, hm, hLevel⟩ := h.top hTop
  rw [below_iff hm, (h.total hm hLevel).1]
  simp

theorem Settled.below_line {line : List Nat} (h : Settled w) (hGet : w.nodes.get id = some n)
    (hParent : n.parent = some p) (hAbove : Above w n p line) :
    w.Below id q ↔ q = id ∨ q ∈ line := by
  have hUp : w.Below id q ↔ q = id ∨ w.Below p q := by
    rw [below_iff hGet, hParent]
    simp
  rw [hUp]
  refine or_congr Iff.rfl ?_
  cases hAbove with
  | top hTop => rw [h.below_top hTop, List.mem_singleton]
  | host hConn hKey hIn hTop =>
      obtain ⟨m, t, hm, -, hParent', hTop'⟩ := h.host hKey hIn
      obtain rfl := Option.some.inj (hTop.symm.trans hTop')
      rw [below_iff hm, hParent', List.mem_pair, or_comm]
      simp [h.below_top hTop]

theorem Settled.mem_conns (h : Settled w) (hGet : w.nodes.get id = some n) {c : Nat} :
    c ∈ w.conns id ↔ (c = id ∧ n.level = .perConn)
      ∨ ∃ m, w.nodes.get c = some m ∧ under id n.level m = true := by
  constructor
  · rintro ⟨hConn, hBelow⟩
    obtain ⟨m, hm, hLevel⟩ := isConn_iff.mp hConn
    obtain ⟨p, line, hParent, hAbove⟩ := h.above hm hLevel
    rcases (h.below_line hm hParent hAbove).mp hBelow with rfl | hIn
    · rw [hGet] at hm
      exact .inl ⟨rfl, Option.some.inj hm ▸ hLevel⟩
    · exact .inr ⟨m, hm, (h.mem_line hLevel hParent hAbove hGet).mp hIn⟩
  · rintro (⟨rfl, hLevel⟩ | ⟨m, hm, hUnder⟩)
    · exact ⟨isConn_iff.mpr ⟨n, hGet, hLevel⟩, .refl⟩
    · have hLevel : m.level = .perConn := by
        unfold under at hUnder
        exact of_decide_eq_true ((Bool.and_eq_true _ _).mp hUnder).1
      obtain ⟨p, line, hParent, hAbove⟩ := h.above hm hLevel
      have hIn := (h.mem_line hLevel hParent hAbove hGet).mpr hUnder
      exact ⟨isConn_iff.mpr ⟨m, hm, hLevel⟩, (h.below_line hm hParent hAbove).mpr (.inr hIn)⟩

/-- A counter is the number of connections that are alive below its node. -/
theorem Settled.counted (h : Settled w) (hGet : w.nodes.get id = some n) :
    n.xferNumber = (w.conns id).ncard := by
  rw [h.xfer hGet, due]
  split_ifs with hLevel
  · have hOne : w.conns id = {id} := by
      ext c
      rw [h.mem_conns hGet, hLevel]
      simp [under]
    rw [hOne, Set.ncard_singleton]
    rfl
  · have hSet : w.conns id = {c | ∃ m, w.nodes.get c = some m ∧ under id n.level m = true} := by
      ext c
      rw [h.mem_conns hGet]
      simp [hLevel]
    rw [hSet, Table.ncard_eq_count, Table.total_bit]

/-! ## Runs -/

/-- The first `RateLimit` is not for the empty host. -/
def Permitted (w : World) : Event → Prop
  | .create host => host = [] → w.total.get [] ≠ none
  | _ => True

theorem act_settled (h : Settled w) (env : Env) (event : Event) (hOk : w.Permitted event) :
    Yields Unread Settled (w.act (env, event)) := by
  have hIf : ∀ {id} {x : Except Fault World},
      ((∃ n, w.nodes.get id = some n ∧ n.level = .perConn) → Yields Unread Settled x) →
      Yields Unread Settled (if w.isConn id then x else .ok w) :=
    fun hx => Yields.ite (fun hIs => hx (isConn_iff.mp hIs)) fun _ => h
  cases event with
  | create host => exact (newConn_settled env h hOk).map
  | destroy id =>
      refine hIf fun ⟨n, hGet, hConn⟩ => ?_
      obtain ⟨w', hDelete, hSettled⟩ := delete_settled h hGet hConn
      rw [hDelete]
      exact hSettled
  | reconfig id name host =>
      exact hIf fun ⟨n, hGet, hConn⟩ => (reconfig_alike env (some name) (h.line_conn hGet hConn)
        (some host)).imp fun _ => h.alike
  | bytesAllowed id d =>
      exact hIf fun ⟨n, hGet, hConn⟩ => (((bytesAllowed_le env d (h.line_conn hGet hConn)).imp
        fun _ hr => h.alike hr.1.toAlike).total).map
  | relaxed id d =>
      exact hIf fun ⟨n, hGet, hConn⟩ => (((relaxed_alike env d (h.line_conn hGet hConn)).imp
        fun _ => h.alike).total).map
  | bytesUsed id d bytes =>
      exact hIf fun ⟨n, hGet, hConn⟩ => ((bytesUsed_alike bytes d (h.line_conn hGet hConn)).imp
        fun _ => h.alike).total

/-- What connections are granted when they ask one after another. -/
def grants (env : Env) (d : Dir) : List Nat → World → Except Fault (List Int × World)
  | [], w => .ok ([], w)
  | c :: cs, w => do
    let (allowed, w) ← w.bytesAllowed env d 3 c
    let (rest, w) ← grants env d cs w
    .ok (allowed :: rest, w)

theorem grants_le (env : Env) (d : Dir) {cs : List Nat} (h : Settled w)
    (hCs : ∀ c ∈ cs, c ∈ w.conns p) (hGet : w.nodes.get p = some n)
    (hRate : (n.pools.at d).rate ≠ 0) :
    ∃ shares w', grants env d cs w = .ok (shares, w') ∧ shares.length = cs.length
      ∧ Aged env d w w'
      ∧ (cs ≠ [] → ∃ n', w'.nodes.get p = some n' ∧ n'.pools.at d = adjustTime env (n.pools.at d))
      ∧ ∀ a ∈ shares, a ≤ (adjustTime env (n.pools.at d)).pool.tdiv n.xferNumber := by
  induction cs generalizing w n with
  | nil => exact ⟨[], w, rfl, rfl, Aged.refl env d w, fun hne => absurd rfl hne, nofun⟩
  | cons c cs ih =>
      obtain ⟨hConn, hBelow⟩ := hCs c List.mem_cons_self
      obtain ⟨m, hm, hLevel⟩ := isConn_iff.mp hConn
      obtain ⟨⟨allowed, w₁⟩, hFirst, hAged, hShares⟩ :=
        (bytesAllowed_le env d (h.line_conn hm hLevel)).exists
      obtain ⟨⟨n₁, hGet₁, hFull⟩, hLe⟩ := hShares p n hBelow hGet hRate
      obtain ⟨n₂, hGet₂, hCore₁, -⟩ := hAged.pools hGet
      obtain rfl : n₁ = n₂ := Option.some.inj (hGet₁.symm.trans hGet₂)
      have hCs₁ : ∀ c' ∈ cs, c' ∈ w₁.conns p := by
        intro c' hc'
        obtain ⟨hConn', hBelow'⟩ := hCs c' (List.mem_cons_of_mem _ hc')
        obtain ⟨m', hm', hLevel'⟩ := isConn_iff.mp hConn'
        obtain ⟨m'', hm'', hCore''⟩ := hAged.toAlike.get' hm'
        exact ⟨isConn_iff.mpr ⟨m'', hm'', (core_eq hCore'').1.trans hLevel'⟩,
          hBelow'.alike hAged.toAlike⟩
      have hRate₁ : (n₁.pools.at d).rate ≠ 0 := by
        rw [hFull]
        unfold adjustTime
        split_ifs <;> exact hRate
      obtain ⟨rest, w₂, hRest, hLength, hAged₂, -, hLe₂⟩ := ih (h.alike hAged.toAlike) hCs₁ hGet₁ hRate₁
      refine ⟨allowed :: rest, w₂, ?_, by rw [List.length_cons, List.length_cons, hLength],
        hAged.trans hAged₂, fun _ => hAged₂.keeps_full ⟨n₁, hGet₁, hFull⟩, ?_⟩
      · unfold grants
        rw [hFirst, ok_bind]
        dsimp only
        rw [hRest]
        rfl
      · rw [hFull, adjustTime_idem, (core_eq hCore₁).2.2] at hLe₂
        intro a ha
        rcases List.mem_cons.mp ha with rfl | ha
        · exact hLe
        · exact hLe₂ a ha

theorem sum_le_mul {l : List Int} {b : Int} (h : ∀ a ∈ l, a ≤ b) : l.sum ≤ l.length * b := by
  have hSum := List.sum_le_card_nsmul l b h
  rwa [nsmul_eq_mul] at hSum

/-- So many equal parts of a pool are not more than the pool. -/
theorem mul_tdiv_le {k x : Int} (hk : 0 < k) (hkx : k ≤ x) (pool : Int) :
    k * pool.tdiv x ≤ max 0 pool := by
  rcases le_total 0 pool with hPool | hPool
  · have hPart : 0 ≤ pool.tdiv x := Int.tdiv_nonneg hPool (by omega)
    calc k * pool.tdiv x ≤ x * pool.tdiv x := Int.mul_le_mul_of_nonneg_right hkx hPart
      _ ≤ pool := by
        rw [Int.tdiv_eq_ediv_of_nonneg hPool]
        exact Int.mul_ediv_self_le (by omega)
      _ ≤ max 0 pool := le_max_right 0 pool
  · have hPart : 0 ≤ -(pool.tdiv x) := by
      rw [← Int.neg_tdiv]
      exact Int.tdiv_nonneg (by omega) (by omega)
    have hSum : k * pool.tdiv x ≤ 0 := Int.mul_nonpos_of_nonneg_of_nonpos hk.le (by omega)
    exact hSum.trans (le_max_left 0 pool)

/-- The counters are right, and so what follows from them. -/
structure Accounted (w : World) : Prop where
  counted : ∀ id n, w.nodes.get id = some n → n.xferNumber = (w.conns id).ncard
  /-- A divisor is positive. -/
  positive : ∀ c id, c ∈ w.conns id → ∃ n, w.nodes.get id = some n ∧ 0 < n.xferNumber
  /-- No object is missing, no counter negative and no divisor zero. -/
  safe : ∀ env event, w.Permitted event → Yields Unread (fun _ => True) (w.act (env, event))
  /-- What is granted below a node that has a limit is not more than its pool. -/
  shares : ∀ env d cs p n, cs.Nodup → (∀ c ∈ cs, c ∈ w.conns p) → w.nodes.get p = some n →
    (n.pools.at d).rate ≠ 0 → ∃ shares w' n', grants env d cs w = .ok (shares, w')
      ∧ w'.nodes.get p = some n' ∧ shares.sum ≤ max 0 (n'.pools.at d).pool

theorem conns_finite (w : World) (id : Nat) : (w.conns id).Finite :=
  w.nodes.ids.toFinset.finite_toSet.subset fun c hc => by
    obtain ⟨n, hGet, -⟩ := isConn_iff.mp hc.1
    have hIn := List.mem_map_of_mem (f := Prod.fst) (Table.get_eq_some_iff.mp hGet)
    exact List.mem_toFinset.mpr hIn

theorem Settled.accounted (h : Settled w) : Accounted w where
  counted _ _ hGet := h.counted hGet
  positive c id hc := by
    obtain ⟨m, hm, hLevel⟩ := isConn_iff.mp hc.1
    obtain ⟨p, line, hParent, hAbove⟩ := h.above hm hLevel
    rcases (h.below_line hm hParent hAbove).mp hc.2 with rfl | hIn
    · refine ⟨m, hm, ?_⟩
      rw [h.xfer hm, due, if_pos hLevel]
      exact one_pos
    · obtain ⟨key, hKey⟩ := hAbove.mem_key hIn
      obtain ⟨n, hGet, -⟩ := h.mapped hKey
      exact ⟨n, hGet, h.one_le hm hLevel hParent hAbove hIn hGet⟩
  safe env event hOk := (act_settled h env event hOk).imp fun _ _ => trivial
  shares env d cs p n hNodup hCs hGet hRate := by
    obtain ⟨shares, w', hGrants, hLength, hAged, hFull, hLe⟩ := grants_le env d h hCs hGet hRate
    obtain ⟨n', hGet', -, -⟩ := hAged.pools hGet
    refine ⟨shares, w', n', hGrants, hGet', ?_⟩
    by_cases hNil : cs = []
    · subst hNil
      rw [List.length_nil, List.length_eq_zero_iff] at hLength
      rw [hLength]
      exact le_max_left 0 _
    · obtain ⟨n'', hGet'', hPool⟩ := hFull hNil
      rw [hGet'] at hGet''
      cases hGet''
      rw [hPool]
      have hSub : {c | c ∈ cs} ⊆ w.conns p := hCs
      have hCard := Set.ncard_le_ncard hSub (w.conns_finite p)
      have hList : Set.ncard {c | c ∈ cs} = cs.length := by
        rw [← List.coe_toFinset, Set.ncard_coe_finset, List.toFinset_card_of_nodup hNodup]
      have hCount := h.counted hGet
      have hSome := List.length_pos_iff.mpr hNil
      refine (sum_le_mul hLe).trans (mul_tdiv_le (by omega) ?_ _)
      omega

/-- A step that may be taken. -/
def step (w : World) (o : Env × Event) (w' : World) : Prop := w.Permitted o.2 ∧ w.act o = .ok w'

theorem empty_settled : Settled empty :=
  ⟨nofun, nofun, nofun, nofun, nofun, nofun, nofun, nofun⟩

/-- In every run that does not begin with the empty host the counters are right. -/
theorem run_accounted (h : Reach (· = empty) step w) : Accounted w := by
  refine (Reach.invariant (I := Settled) ?_ ?_ h).accounted
  · rintro s rfl
    exact empty_settled
  · rintro s ⟨env, event⟩ s' hs ⟨hOk, hAct⟩
    have hYields := act_settled hs env event hOk
    rw [hAct] at hYields
    exact hYields

/-- Nothing is limited. -/
def unlimited : Env where
  now := 0
  query _ _ := some (bytes "0")
  gain _ _ := none

theorem run_accounted_one : ∃ w, act empty (unlimited, .create (bytes "a")) = .ok w
    ∧ w.isConn 0 = true ∧ Accounted w :=
  ⟨_, rfl, rfl, run_accounted (.next (unlimited, .create (bytes "a")) (.start rfl) ⟨nofun, rfl⟩)⟩

/-- The first connection is to the empty host. The node of its host takes the place of the one for
everything, which is deleted and used after that. -/
theorem not_accounted_empty : act empty (unlimited, .create []) = .error .freed := by rfl

end World

end Lftp.Ports.RateTree
