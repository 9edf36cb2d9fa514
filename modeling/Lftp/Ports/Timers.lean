import Lftp.Ports.XHeap
import Lftp.Verified.Runs
import Mathlib.Algebra.Order.Ring.Int
import Mathlib.Data.List.Basic
import Mathlib.Data.Rat.Defs
import Mathlib.Data.Set.Card

/-!
# `Timer`

The timers of a process. Those that run are in a heap under the time that is left
to them, and the timers whose setting is infinite are counted.

A time is its number of microseconds, which is what a normalized `time_tuple`
amounts to; the random part of an interval and the values of the resources come
from outside (`Env`).

The constructor that takes the seconds starts from the infinite setting without
counting it, and its `Set` then uncounts it (`Inv.newSeconds`).

* `Inv d` is the invariant, where `infty_count` is `d` less than it should be.
* `scheduled` is the result over runs.
-/

namespace Lftp.Ports.Timers

open Lftp.Verified
open Lftp.Ports.XHeap (Fault Indexed Holding)

/-- `operator time_t`. -/
def unixTime (t : Int) : Int := t / 1000000

/-- `TimeInterval`. -/
structure TimeInterval where
  diff : Int
  infty : Bool

/-- `TimeInterval(time_t,int)`. -/
def TimeInterval.ofMs (s ms : Int) : TimeInterval := ⟨s * 1000000 + ms * 1000, false⟩

/-- `operator<`. -/
def TimeInterval.lt (a b : TimeInterval) : Bool := (!a.infty && b.infty) || decide (a.diff < b.diff)

/-- `timeval`. -/
structure Timeval where
  sec : Int
  usec : Int
  deriving DecidableEq

/-- `Timer`. -/
structure Timer where
  start : Int
  stop : Int
  lastSetting : TimeInterval
  randomMax : ℚ
  resource : Option String
  closure : Option String

/-- `IsInfty`. -/
def Timer.isInfty (t : Timer) : Bool := t.lastSetting.infty

/-- `TimeLeft`. -/
def Timer.timeLeft (t : Timer) (now : Int) : TimeInterval :=
  if t.isInfty then ⟨0, true⟩
  else if now ≥ t.stop then ⟨0, false⟩
  else ⟨t.stop - now, false⟩

/-- `Stopped`. -/
def Timer.stopped (t : Timer) (now : Int) : Bool := if t.isInfty then false else now ≥ t.stop

/-- What comes from outside: the value of `TimeDiff::valueOf(random_max*random01())`
for each timer, and `ResMgr::Query`. -/
structure Env where
  draw : Nat → Int
  query : String → Option String → TimeInterval

/-- `add_random`, on the timer at `p`. -/
def Timer.addRandom (t : Timer) (env : Env) (p : Nat) : Timer :=
  if t.randomMax > 1 / 10000 then { t with stop := t.stop + env.draw p } else t

/-- `SMTask::now`, the timers by their addresses, and the static members of `Timer`. -/
structure World where
  now : Int
  timers : Nat → Option Timer
  allTimers : List Nat
  runningTimers : XHeap Nat
  inftyCount : Int

/-- The value of a condition in a sum. -/
def count (b : Bool) : Int := if b then 1 else 0

/-- `HOUR`. -/
def hour : Int := 60 * 60

namespace World

/-- `operator<`, for two timers. -/
def lt (w : World) (p q : Nat) : Bool :=
  match w.timers p, w.timers q with
  | some a, some b => (a.timeLeft w.now).lt (b.timeLeft w.now)
  | _, _ => false

/-- The timer at `p` becomes `t`. -/
def store (w : World) (p : Nat) (t : Timer) : World :=
  { w with timers := Function.update w.timers p (some t) }

/-- `re_sort`. -/
def reSort (w : World) (p : Nat) (t : Timer) : Except Fault World := do
  let h ← w.runningTimers.remove w.lt p
  let h ← if w.now < t.stop ∧ ¬ t.isInfty then h.add w.lt p else .ok h
  return { w with runningTimers := h }

variable (env : Env)

/-- `re_set`. -/
def reSet (w : World) (p : Nat) (t : Timer) : Except Fault World :=
  let t := { t with stop := t.start + t.lastSetting.diff }.addRandom env p
  (w.store p t).reSort p t

/-- `set_last_setting`. -/
def setLastSetting (w : World) (p : Nat) (t : Timer) (i : TimeInterval) : Except Fault World :=
  { w with inftyCount := w.inftyCount - count t.isInfty + count i.infty }.reSet env p
    { t with lastSetting := i }

/-- `AddRandom`. -/
def addRandom (w : World) (p : Nat) (t : Timer) (r : ℚ) : Except Fault World :=
  let t := { t with randomMax := r }.addRandom env p
  (w.store p t).reSort p t

/-- `Set`. -/
def set (w : World) (p : Nat) (t : Timer) (i : TimeInterval) : Except Fault World :=
  w.setLastSetting env p { t with resource := none, closure := none, start := w.now } i

/-- `Reset(const Time&)`. The `>` compares the seconds, there being none for `Time`. -/
def reset (w : World) (p : Nat) (t : Timer) (time : Int) : Except Fault World :=
  if t.start ≥ time ∧ unixTime t.stop > unixTime time then .ok w
  else w.reSet env p { t with start := time }

/-- `stop=s; re_sort();` as in `Stop` and `StopDelayed`. -/
def stopAt (w : World) (p : Nat) (t : Timer) (s : Int) : Except Fault World :=
  let t := { t with stop := s }
  (w.store p t).reSort p t

/-- `reconfig`. -/
def reconfig (w : World) (p : Nat) (t : Timer) (r : Option String) : Except Fault World :=
  match t.resource with
  | some resource =>
    if r = none ∨ r = some resource then
      w.setLastSetting env p t (env.query resource t.closure)
    else .ok w
  | none => .ok w

/-- `SetResource`. -/
def setResource (w : World) (p : Nat) (t : Timer) (r c : Option String) : Except Fault World :=
  if t.resource ≠ r ∨ t.closure ≠ c then
    let t := { t with resource := r, closure := c, start := w.now }
    (w.store p t).reconfig env p t r
  else w.reset env p t w.now

/-- `ReconfigAll`. -/
def reconfigAll (w : World) (r : Option String) : Except Fault World :=
  w.allTimers.foldlM (fun w p => match w.timers p with
    | some t => w.reconfig env p t r
    | none => .ok w) w

/-- The members of a new timer at `p` with the setting `i`, and `init`. -/
def construct (w : World) (p : Nat) (i : TimeInterval) : World :=
  { w with
    timers := Function.update w.timers p (some ⟨w.now, w.now, i, 0, none, none⟩)
    allTimers := p :: w.allTimers
    runningTimers := { w.runningTimers with
      index := Function.update w.runningTimers.index p 0 } }

/-- `Timer()`. -/
def new (w : World) (p : Nat) : World := w.construct p (.ofMs 1 0)

/-- `Timer(const TimeInterval&)`. -/
def newInterval (w : World) (p : Nat) (i : TimeInterval) : Except Fault World :=
  let w := w.construct p i
  { w with inftyCount := w.inftyCount + count i.infty }.reSet env p
    ⟨w.now, w.now, i, 0, none, none⟩

/-- `Timer(const char*,const char*)`. -/
def newResource (w : World) (p : Nat) (r c : Option String) : Except Fault World :=
  let w := w.construct p (.ofMs 0 0)
  let t : Timer := ⟨w.now, w.now, .ofMs 0 0, 0, r, c⟩
  (w.store p t).reconfig env p t r

/-- `Timer(int,int)`. The setting before `Set` is `TimeInterval()`, the infinite one. -/
def newSeconds (w : World) (p : Nat) (s ms : Int) : Except Fault World :=
  (w.construct p ⟨0, true⟩).set env p ⟨w.now, w.now, ⟨0, true⟩, 0, none, none⟩ (.ofMs s ms)

/-- `~Timer`. -/
def delete (w : World) (p : Nat) (t : Timer) : Except Fault World := do
  let h ← w.runningTimers.remove w.lt p
  return { w with
    timers := Function.update w.timers p none
    allTimers := w.allTimers.erase p
    runningTimers := h
    inftyCount := w.inftyCount - count t.isInfty }

/-- Whether the timer at `p` is `Stopped`. -/
def stopped (w : World) (p : Nat) : Bool :=
  match w.timers p with
  | some t => t.stopped w.now
  | none => false

/-- The loop of `GetTimeoutTV`, with at most `n` turns. -/
def popStopped : Nat → World → Except Fault World
  | 0, w => .ok w
  | n + 1, w =>
    match w.runningTimers.getMin with
    | some p =>
      if w.stopped p then do
        let h ← w.runningTimers.popMin w.lt
        popStopped n { w with runningTimers := h }
      else .ok w
    | none => .ok w

/-- The result of `GetTimeoutTV` after the loop. -/
def timeout (w : World) : Timeval :=
  match w.runningTimers.getMin.bind w.timers with
  | some t => ⟨(t.stop - w.now) / 1000000, (t.stop - w.now) % 1000000⟩
  | none => ⟨if w.inftyCount ≠ 0 then hour else -1, 0⟩

/-- `GetTimeoutTV`. -/
def getTimeoutTV (w : World) : Except Fault (World × Timeval) := do
  let w ← w.popStopped w.runningTimers.count
  return (w, w.timeout)

end World

/-- What happens to the timers. A timer is named by its address. -/
inductive Event
  | tick (d : Nat)
  | new (p : Nat)
  | newInterval (p : Nat) (i : TimeInterval)
  | newResource (p : Nat) (r c : Option String)
  | newSeconds (p : Nat) (s ms : Int)
  | delete (p : Nat)
  | set (p : Nat) (i : TimeInterval)
  | reset (p : Nat) (time : Int)
  | stop (p : Nat)
  | stopDelayed (p : Nat) (s : Int)
  | addRandom (p : Nat) (r : ℚ)
  | setResource (p : Nat) (r c : Option String)
  | reconfigAll (r : Option String)
  | getTimeout

/-- A call on the timer at `p`, if there is one. -/
def World.on (w : World) (p : Nat) (f : Timer → Except Fault World) : Except Fault World :=
  match w.timers p with
  | some t => f t
  | none => .ok w

def act (env : Env) (w : World) : Event → Except Fault World
  | .tick d => .ok { w with now := w.now + d }
  | .new p => .ok (w.new p)
  | .newInterval p i => w.newInterval env p i
  | .newResource p r c => w.newResource env p r c
  | .newSeconds p s ms => w.newSeconds env p s ms
  | .delete p => w.on p (w.delete p)
  | .set p i => w.on p fun t => w.set env p t i
  | .reset p time => w.on p fun t => w.reset env p t time
  | .stop p => w.on p fun t => w.stopAt p t w.now
  | .stopDelayed p s => w.on p fun t => w.stopAt p t (w.now + s * 1000000)
  | .addRandom p r => w.on p fun t => w.addRandom env p t r
  | .setResource p r c => w.on p fun t => w.setResource env p t r c
  | .reconfigAll r => w.reconfigAll env r
  | .getTimeout => do
    let (w, _) ← w.getTimeoutTV
    return w

/-! ## The heap of the running timers -/

/-- The key of a timer in the heap. -/
def World.left (w : World) (p : Nat) : Int :=
  match w.timers p with
  | some t => max 0 (t.stop - w.now)
  | none => 0

/-- The timer runs, is not infinite and not yet expired. -/
def Pending (now : Int) (t : Timer) : Prop := t.isInfty = false ∧ now < t.stop

/-- The invariant of the heap: it is in order, the timers in it are finite, and none
that is pending is missing. -/
structure Queued (w : World) : Prop where
  heap : Holding w.left (fun p => w.runningTimers.index p ≠ 0) w.runningTimers
  finite : ∀ p, w.runningTimers.index p ≠ 0 → ∃ t, w.timers p = some t ∧ t.isInfty = false
  pending : ∀ p t, w.timers p = some t → Pending w.now t → w.runningTimers.index p ≠ 0

section Heap

variable {w : World} {p q : Nat} {t : Timer}

theorem left_of (ht : w.timers p = some t) : w.left p = max 0 (t.stop - w.now) := by
  rw [World.left, ht]

/-- Finite timers compare by the time that is left to them. -/
theorem lt_iff {u : Timer} (ht : w.timers p = some t) (hFinite : t.isInfty = false)
    (hu : w.timers q = some u) (hFinite' : u.isInfty = false) :
    w.lt p q = true ↔ w.left p < w.left q := by
  have hLeft : ∀ v : Timer, v.isInfty = false →
      v.timeLeft w.now = ⟨max 0 (v.stop - w.now), false⟩ := by
    intro v hv
    unfold Timer.timeLeft
    rw [if_neg (by rw [hv]; exact Bool.false_ne_true)]
    split
    · rw [max_eq_left (by omega)]
    · rw [max_eq_right (by omega)]
  rw [left_of ht, left_of hu, World.lt, ht, hu]
  simp only [hLeft t hFinite, hLeft u hFinite', TimeInterval.lt, Bool.and_false, Bool.false_or,
    decide_eq_true_eq]

/-- `re_sort` mends the heap after a change of the timer at `p`. -/
theorem reSort_spec (ht : w.timers p = some t) {key : Nat → Int}
    (hHeap : Holding key (fun q => w.runningTimers.index q ≠ 0) w.runningTimers)
    (hKey : ∀ q, w.runningTimers.index q ≠ 0 → q ≠ p → w.left q = key q)
    (hFinite : ∀ q, w.runningTimers.index q ≠ 0 → q ≠ p →
      ∃ u, w.timers q = some u ∧ u.isInfty = false)
    (hPending : ∀ q u, q ≠ p → w.timers q = some u → Pending w.now u →
      w.runningTimers.index q ≠ 0) :
    Yields Never (fun w' => Queued w' ∧ ∃ h, w' = { w with runningTimers := h })
      (w.reSort p t) := by
  have hLt : ∀ q r, w.runningTimers.index q ≠ 0 → w.runningTimers.index r ≠ 0 → q ≠ p → r ≠ p →
      (w.lt q r = true ↔ w.left q < w.left r) := by
    intro q r hq hr hqp hrp
    obtain ⟨u, hu, hu'⟩ := hFinite q hq hqp
    obtain ⟨v, hv, hv'⟩ := hFinite r hr hrp
    exact lt_iff hu hu' hv hv'
  unfold World.reSort
  apply (XHeap.remove_spec hHeap hKey hLt).bind
  intro h hRemoved
  split
  · next hRuns =>
    rw [Bool.not_eq_true] at hRuns
    have hAdd : Yields Never
        (Holding w.left fun q => (w.runningTimers.index q ≠ 0 ∧ q ≠ p) ∨ q = p) (h.add w.lt p) := by
      apply XHeap.add_spec hRemoved (fun hp => hp.2 rfl)
      have hExists : ∀ q, (w.runningTimers.index q ≠ 0 ∧ q ≠ p) ∨ q = p →
          ∃ u, w.timers q = some u ∧ u.isInfty = false := by
        rintro q (hq | rfl)
        · exact hFinite q hq.1 hq.2
        · exact ⟨t, ht, hRuns.2⟩
      intro q r hq hr
      obtain ⟨u, hu, hu'⟩ := hExists q hq
      obtain ⟨v, hv, hv'⟩ := hExists r hr
      exact lt_iff hu hu' hv hv'
    apply hAdd.bind
    intro h' hAdded
    refine ⟨⟨⟨hAdded.indexed, hAdded.ordered, fun _ => Iff.rfl⟩, fun q hq => ?_,
      fun q u hu hRun => ?_⟩, h', rfl⟩
    · rcases (hAdded.mem q).mp hq with hOld | rfl
      · exact hFinite q hOld.1 hOld.2
      · exact ⟨t, ht, hRuns.2⟩
    · apply (hAdded.mem q).mpr
      by_cases hqp : q = p
      · exact .inr hqp
      · exact .inl ⟨hPending q u hqp hu hRun, hqp⟩
  · next hStill =>
    refine ⟨⟨⟨hRemoved.indexed, hRemoved.ordered, fun _ => Iff.rfl⟩, fun q hq => ?_,
      fun q u hu hRun => ?_⟩, h, rfl⟩
    · have hOld := (hRemoved.mem q).mp hq
      exact hFinite q hOld.1 hOld.2
    · apply (hRemoved.mem q).mpr
      have hqp : q ≠ p := by
        rintro rfl
        cases ht.symm.trans hu
        exact hStill ⟨hRun.2, by rw [hRun.1]; exact Bool.false_ne_true⟩
      exact ⟨hPending q u hqp hu hRun, hqp⟩

end Heap

/-! ## The count of the infinite timers -/

/-- The timer at `p` is infinite. -/
def World.infinite (w : World) (p : Nat) : Bool :=
  match w.timers p with
  | some t => t.isInfty
  | none => false

/-- The list of all timers has each of them once. -/
structure Listed (w : World) : Prop where
  nodup : w.allTimers.Nodup
  mem_iff : ∀ p, p ∈ w.allTimers ↔ ∃ t, w.timers p = some t

/-- The invariant of the timers: `infty_count` is `d` less than it should be. -/
structure Inv (d : Int) (w : World) : Prop where
  queued : Queued w
  listed : Listed w
  count : w.inftyCount + d = w.allTimers.countP w.infinite

section Count

variable {w : World} {p : Nat} {t t' : Timer} {d c : Int}

theorem infinite_of (ht : w.timers p = some t) : w.infinite p = t.isInfty := by
  rw [World.infinite, ht]

theorem infinite_store (w : World) (p : Nat) (t : Timer) :
    (w.store p t).infinite = Function.update w.infinite p t.isInfty := by
  funext q
  by_cases hq : q = p
  · subst hq
    simp [World.infinite, World.store]
  · simp [World.infinite, World.store, hq]

/-- A predicate that changes at one entry of a list changes the count by that much. -/
theorem countP_update {l : List Nat} (hl : l.Nodup) (hp : p ∈ l) (f : Nat → Bool) (b : Bool) :
    (l.countP (Function.update f p b) : Int) = l.countP f - count (f p) + count b := by
  have hPerm := List.perm_cons_erase hp
  have hOut : p ∉ l.erase p := fun h => (List.Nodup.not_mem_erase hl) h
  have hRest : (l.erase p).countP (Function.update f p b) = (l.erase p).countP f := by
    apply List.countP_congr
    intro q hq
    rw [Function.update_of_ne]
    rintro rfl
    exact hOut hq
  rw [hPerm.countP_eq, hPerm.countP_eq f, List.countP_cons, List.countP_cons, hRest,
    Function.update_self]
  unfold count
  cases b <;> cases f p <;> simp

theorem Listed.store (h : Listed w) (ht : w.timers p = some t) (t' : Timer) :
    Listed (w.store p t') := by
  refine ⟨h.nodup, fun q => ?_⟩
  show q ∈ w.allTimers ↔ ∃ u, Function.update w.timers p (some t') q = some u
  rw [h.mem_iff]
  by_cases hq : q = p
  · subst hq
    rw [Function.update_self]
    exact iff_of_true ⟨t, ht⟩ ⟨t', rfl⟩
  · rw [Function.update_of_ne hq]

/-- The count after a change of one timer, if the code keeps it. -/
theorem Inv.count_store (h : Inv d w) (ht : w.timers p = some t)
    (hc : c = w.inftyCount - Timers.count t.isInfty + Timers.count t'.isInfty) :
    c + d = (w.allTimers.countP (w.store p t').infinite : Nat) := by
  have hUpdate := countP_update h.listed.nodup ((h.listed.mem_iff p).mpr ⟨t, ht⟩) w.infinite
    t'.isInfty
  rw [← infinite_store, infinite_of ht] at hUpdate
  have hCount := h.count
  omega

/-- A timer changes, the count with it, and then it is sorted in. -/
theorem Inv.store_reSort (h : Inv d w) (ht : w.timers p = some t)
    (hc : c = w.inftyCount - Timers.count t.isInfty + Timers.count t'.isInfty) :
    Yields Never (Inv d) (({ w with inftyCount := c }.store p t').reSort p t') := by
  have hOther : ∀ q, q ≠ p →
      ({ w with inftyCount := c }.store p t').timers q = w.timers q :=
    fun q hq => Function.update_of_ne hq _ _
  have hSort : Yields Never
      (fun w' => Queued w' ∧
        ∃ h, w' = { { w with inftyCount := c }.store p t' with runningTimers := h })
      (({ w with inftyCount := c }.store p t').reSort p t') := by
    have hHeap : Holding w.left (fun q => w.runningTimers.index q ≠ 0) w.runningTimers :=
      h.queued.heap
    refine reSort_spec (w := { w with inftyCount := c }.store p t') (Function.update_self p _ _)
      hHeap ?_ ?_ ?_
    · intro q _ hq
      rw [World.left, World.left, hOther q hq]
      rfl
    · intro q hIn hq
      rw [hOther q hq]
      exact h.queued.finite q hIn
    · intro q u hq hu hRun
      rw [hOther q hq] at hu
      exact h.queued.pending q u hu hRun
  apply hSort.imp
  rintro w' ⟨hQueued, heap, rfl⟩
  have hListed := h.listed.store ht t'
  exact ⟨hQueued, ⟨hListed.nodup, hListed.mem_iff⟩, h.count_store ht hc⟩

/-! ## The operations -/

variable {env : Env} {w' : World} {r : Option String} {i : TimeInterval}

@[simp] theorem isInfty_addRandom (t : Timer) (env : Env) (p : Nat) :
    (t.addRandom env p).isInfty = t.isInfty := by
  unfold Timer.addRandom
  split <;> rfl

theorem Inv.reSet (h : Inv d w) (ht : w.timers p = some t)
    (hc : c = w.inftyCount - Timers.count t.isInfty + Timers.count t'.isInfty) :
    Yields Never (Inv d) ({ w with inftyCount := c }.reSet env p t') := by
  apply h.store_reSort ht
  rw [isInfty_addRandom]
  exact hc

theorem Inv.setLastSetting (h : Inv d w) (ht : w.timers p = some t)
    (hSame : t'.isInfty = t.isInfty) : Yields Never (Inv d) (w.setLastSetting env p t' i) :=
  h.reSet ht (by rw [hSame]; rfl)

theorem Inv.set (h : Inv d w) (ht : w.timers p = some t) :
    Yields Never (Inv d) (w.set env p t i) :=
  h.setLastSetting ht rfl

/-- A change that leaves the count alone. -/
theorem Inv.store_same (h : Inv d w) (ht : w.timers p = some t) (hSame : t'.isInfty = t.isInfty) :
    Yields Never (Inv d) ((w.store p t').reSort p t') :=
  h.store_reSort ht (by rw [hSame]; omega)

theorem Inv.addRandom (h : Inv d w) (ht : w.timers p = some t) (r : ℚ) :
    Yields Never (Inv d) (w.addRandom env p t r) := by
  apply h.store_same ht
  rw [isInfty_addRandom]
  rfl

theorem Inv.reset (h : Inv d w) (ht : w.timers p = some t) (time : Int) :
    Yields Never (Inv d) (w.reset env p t time) := by
  unfold World.reset
  split
  · exact h
  · exact h.reSet (c := w.inftyCount) ht (by show _ = _ - _ + Timers.count t.isInfty; omega)

theorem Inv.stopAt (h : Inv d w) (ht : w.timers p = some t) (time : Int) :
    Yields Never (Inv d) (w.stopAt p t time) :=
  h.store_same ht rfl

theorem Inv.reconfig (h : Inv d w) (ht : w.timers p = some t) :
    Yields Never (Inv d) (w.reconfig env p t r) := by
  unfold World.reconfig
  split
  · split
    · exact h.setLastSetting ht rfl
    · exact h
  · exact h

/-- A change of what neither the heap nor the count looks at. -/
theorem Inv.store (h : Inv d w) (ht : w.timers p = some t) (hStop : t'.stop = t.stop)
    (hSame : t'.isInfty = t.isInfty) : Inv d (w.store p t') := by
  have hEq : ∀ q u, (w.store p t').timers q = some u →
      ∃ v, w.timers q = some v ∧ u.stop = v.stop ∧ u.isInfty = v.isInfty := by
    intro q u hu
    by_cases hq : q = p
    · subst hq
      cases (Function.update_self q _ w.timers).symm.trans hu
      exact ⟨t, ht, hStop, hSame⟩
    · exact ⟨u, (Function.update_of_ne hq _ _).symm.trans hu, rfl, rfl⟩
  have hLeft : (w.store p t').left = w.left := by
    funext q
    by_cases hq : q = p
    · subst hq
      rw [left_of (Function.update_self q _ _), left_of ht, hStop]
      rfl
    · rw [World.left, World.left, show (w.store p t').timers q = w.timers q from
        Function.update_of_ne hq _ _]
      rfl
  refine ⟨⟨?_, fun q hq => ?_, fun q u hu hRun => ?_⟩, h.listed.store ht t', ?_⟩
  · rw [hLeft]
    exact h.queued.heap
  · obtain ⟨u, hu, hFinite⟩ := h.queued.finite q hq
    by_cases hqp : q = p
    · subst hqp
      cases ht.symm.trans hu
      exact ⟨t', Function.update_self q _ _, hSame.trans hFinite⟩
    · exact ⟨u, (Function.update_of_ne hqp _ _).trans hu, hFinite⟩
  · obtain ⟨v, hv, hStop', hSame'⟩ := hEq q u hu
    exact h.queued.pending q v hv ⟨hSame' ▸ hRun.1, hStop' ▸ hRun.2⟩
  · apply h.count_store ht
    rw [hSame]
    show w.inftyCount = _
    omega

theorem Inv.setResource (h : Inv d w) (ht : w.timers p = some t) (c : Option String) :
    Yields Never (Inv d) (w.setResource env p t r c) := by
  unfold World.setResource
  split
  · apply Inv.reconfig _ (Function.update_self p _ _)
    exact h.store ht rfl rfl
  · exact h.reset ht w.now

theorem Inv.reconfigAll (h : Inv d w) : Yields Never (Inv d) (w.reconfigAll env r) := by
  apply Yields.foldlM (I := fun _ => Inv d) _ h
  intro p l w h
  split
  · next ht => exact h.reconfig ht
  · exact h

/-- A new timer is not in the heap, and it is not pending. -/
theorem Inv.construct (h : Inv d w) (hNew : w.timers p = none) (i : TimeInterval) :
    Inv (d + Timers.count i.infty) (w.construct p i) ∧
      (w.construct p i).timers p = some ⟨w.now, w.now, i, 0, none, none⟩ := by
  have hOut : w.runningTimers.index p = 0 := by
    by_contra hIn
    obtain ⟨t, ht, -⟩ := h.queued.finite p hIn
    exact absurd (hNew.symm.trans ht) nofun
  have hHeap : (w.construct p i).runningTimers = w.runningTimers := by
    show ({ w.runningTimers with index := _ } : XHeap Nat) = _
    rw [← hOut, Function.update_eq_self]
  have hSelf : (w.construct p i).timers p = some ⟨w.now, w.now, i, 0, none, none⟩ :=
    Function.update_self p _ _
  have hOther : ∀ q, q ≠ p → (w.construct p i).timers q = w.timers q :=
    fun q hq => Function.update_of_ne hq _ _
  have hNotMem : p ∉ w.allTimers := by
    rw [h.listed.mem_iff]
    rintro ⟨t, ht⟩
    exact absurd (hNew.symm.trans ht) nofun
  have hMember : ∀ q, w.runningTimers.index q ≠ 0 → q ≠ p := by
    rintro q hq rfl
    exact hq hOut
  refine ⟨⟨⟨?_, ?_, ?_⟩, ⟨List.nodup_cons.mpr ⟨hNotMem, h.listed.nodup⟩, fun q => ?_⟩, ?_⟩, hSelf⟩
  · rw [hHeap]
    have hOld := h.queued.heap
    refine ⟨hOld.indexed, ?_, hOld.mem⟩
    apply hOld.ordered.congr
    intro k hk1 hk
    have hNe := hMember _ (hOld.indexed.index_ne_zero hk1 hk)
    show World.left _ _ = World.left _ _
    rw [World.left, World.left, hOther _ hNe]
    rfl
  · intro q hq
    rw [hHeap] at hq
    rw [hOther q (hMember q hq)]
    exact h.queued.finite q hq
  · intro q t ht hRun
    rw [hHeap]
    by_cases hq : q = p
    · subst hq
      cases hSelf.symm.trans ht
      exact absurd hRun.2 (lt_irrefl w.now)
    · rw [hOther q hq] at ht
      exact h.queued.pending q t ht hRun
  · show q ∈ p :: w.allTimers ↔ _
    rw [List.mem_cons, h.listed.mem_iff]
    by_cases hq : q = p
    · subst hq
      exact iff_of_true (.inl rfl) ⟨_, hSelf⟩
    · rw [hOther q hq]
      exact or_iff_right hq
  · show w.inftyCount + (d + Timers.count i.infty) =
      ((p :: w.allTimers).countP (w.construct p i).infinite : Nat)
    have hRest : w.allTimers.countP (w.construct p i).infinite = w.allTimers.countP w.infinite := by
      apply List.countP_congr
      intro q hq
      have hNe : q ≠ p := by
        rintro rfl
        exact hNotMem hq
      rw [World.infinite, World.infinite, hOther q hNe]
    have hCount := h.count
    rw [List.countP_cons, hRest, infinite_of hSelf]
    show _ = ((_ + if i.infty = true then 1 else 0 : Nat) : Int)
    unfold Timers.count
    split <;> omega

theorem Inv.new (h : Inv d w) (hNew : w.timers p = none) : Inv d (w.new p) := by
  have hInv := (h.construct hNew (.ofMs 1 0)).1
  rw [show Timers.count (TimeInterval.ofMs 1 0).infty = 0 from rfl, add_zero] at hInv
  exact hInv

theorem Inv.newInterval (h : Inv d w) (hNew : w.timers p = none) :
    Yields Never (Inv d) (w.newInterval env p i) := by
  obtain ⟨hInv, hSelf⟩ := h.construct hNew i
  have hInv' : Inv d { w.construct p i with
      inftyCount := (w.construct p i).inftyCount + Timers.count i.infty } := by
    refine ⟨⟨hInv.queued.heap, hInv.queued.finite, hInv.queued.pending⟩,
      ⟨hInv.listed.nodup, hInv.listed.mem_iff⟩, ?_⟩
    have hCount := hInv.count
    show _ + _ + d = ((w.construct p i).allTimers.countP (w.construct p i).infinite : Nat)
    omega
  apply hInv'.reSet hSelf
  show _ + _ = _ + _ - Timers.count i.infty + Timers.count i.infty
  omega

theorem Inv.newResource (h : Inv d w) (hNew : w.timers p = none) (c : Option String) :
    Yields Never (Inv d) (w.newResource env p r c) := by
  obtain ⟨hInv, hSelf⟩ := h.construct hNew (.ofMs 0 0)
  rw [show Timers.count (TimeInterval.ofMs 0 0).infty = 0 from rfl, add_zero] at hInv
  apply Inv.reconfig _ (Function.update_self p _ _)
  exact hInv.store hSelf rfl rfl

/-- The constructor with the seconds uncounts a timer that was not counted. -/
theorem Inv.newSeconds (h : Inv d w) (hNew : w.timers p = none) (s ms : Int) :
    Yields Never (Inv (d + 1)) (w.newSeconds env p s ms) := by
  obtain ⟨hInv, hSelf⟩ := h.construct hNew ⟨0, true⟩
  exact hInv.set hSelf

theorem Inv.delete (h : Inv d w) (ht : w.timers p = some t) :
    Yields Never (Inv d) (w.delete p t) := by
  have hQueued := h.queued
  have hOther : ∀ q, q ≠ p → Function.update w.timers p none q = w.timers q :=
    fun q hq => Function.update_of_ne hq _ _
  have hLt : ∀ q r, w.runningTimers.index q ≠ 0 → w.runningTimers.index r ≠ 0 →
      q ≠ p → r ≠ p → (w.lt q r = true ↔ w.left q < w.left r) := by
    intro q r hq hr _ _
    obtain ⟨u, hu, hu'⟩ := hQueued.finite q hq
    obtain ⟨v, hv, hv'⟩ := hQueued.finite r hr
    exact lt_iff hu hu' hv hv'
  unfold World.delete
  apply (XHeap.remove_spec hQueued.heap (fun _ _ _ => rfl) hLt).bind
  intro heap hRemoved
  refine ⟨⟨⟨hRemoved.indexed, ?_, fun _ => Iff.rfl⟩, fun q hq => ?_, fun q u hu hRun => ?_⟩,
    ⟨h.listed.nodup.erase p, fun q => ?_⟩, ?_⟩
  · apply hRemoved.ordered.congr
    intro k hk1 hk
    have hNe := ((hRemoved.mem _).mp (hRemoved.indexed.index_ne_zero hk1 hk)).2
    show World.left _ (heap.ptr k) = World.left _ (heap.ptr k)
    rw [World.left, World.left]
    simp only [hOther _ hNe]
  · obtain ⟨hIn, hNe⟩ := (hRemoved.mem q).mp hq
    obtain ⟨u, hu, hFinite⟩ := hQueued.finite q hIn
    exact ⟨u, (hOther q hNe).trans hu, hFinite⟩
  · have hNe : q ≠ p := by
      rintro rfl
      exact absurd ((Function.update_self q none w.timers).symm.trans hu) nofun
    exact (hRemoved.mem q).mpr ⟨hQueued.pending q u ((hOther q hNe).symm.trans hu) hRun, hNe⟩
  · show q ∈ w.allTimers.erase p ↔ ∃ u, Function.update w.timers p none q = some u
    rw [h.listed.nodup.mem_erase_iff, h.listed.mem_iff]
    by_cases hq : q = p
    · subst hq
      rw [Function.update_self]
      exact iff_of_false (fun hp => hp.1 rfl) (by rintro ⟨_, ⟨⟩⟩)
    · rw [hOther q hq]
      exact and_iff_right hq
  · have hMem := (h.listed.mem_iff p).mpr ⟨t, ht⟩
    have hPerm := (List.perm_cons_erase hMem).countP_eq w.infinite
    rw [List.countP_cons, infinite_of ht] at hPerm
    have hRest : (w.allTimers.erase p).countP (fun q => World.infinite
        { w with timers := Function.update w.timers p none } q) =
        (w.allTimers.erase p).countP w.infinite := by
      apply List.countP_congr
      intro q hq
      have hNe := (h.listed.nodup.mem_erase_iff.mp hq).1
      rw [World.infinite, World.infinite]
      simp only [hOther q hNe]
    have hCount := h.count
    show w.inftyCount - Timers.count t.isInfty + d = ((w.allTimers.erase p).countP (fun q =>
      World.infinite { w with timers := Function.update w.timers p none } q) : Nat)
    rw [hRest]
    unfold Timers.count
    split at hPerm
    · next hInfty =>
      rw [if_pos hInfty]
      omega
    · next hFinite =>
      rw [if_neg hFinite]
      omega

/-- Time passes: the order stays, and what was not pending is not. -/
theorem Inv.tick (h : Inv d w) (n : Nat) : Inv d { w with now := w.now + n } := by
  have hHeap := h.queued.heap
  refine ⟨⟨⟨hHeap.indexed, fun j h2 hj => ?_, hHeap.mem⟩, h.queued.finite, fun q t ht hRun => ?_⟩,
    ⟨h.listed.nodup, h.listed.mem_iff⟩, h.count⟩
  · have hLe : j ≤ w.runningTimers.count := hj
    have hUp := hHeap.ordered j h2 hLe
    obtain ⟨t, ht, -⟩ := h.queued.finite _ (hHeap.indexed.index_ne_zero (by omega) hLe)
    obtain ⟨u, hu, -⟩ := h.queued.finite _
      (hHeap.indexed.index_ne_zero (by omega : 1 ≤ j / 2) (by omega))
    simp only [XHeap.keys, left_of ht, left_of hu] at hUp
    show World.left { w with now := w.now + n } (w.runningTimers.ptr (j / 2)) ≤
      World.left { w with now := w.now + n } (w.runningTimers.ptr j)
    rw [left_of (w := { w with now := w.now + n }) ht,
      left_of (w := { w with now := w.now + n }) hu]
    dsimp only
    omega
  · apply h.queued.pending q t ht
    have hLater := hRun.2
    dsimp only at hLater
    exact ⟨hRun.1, by omega⟩

/-! ## `GetTimeoutTV` -/

/-- The loop takes timers that have stopped, and those only, and stops at one that
has not. -/
theorem popStopped_spec {n : Nat} (h : Inv d w) (hn : w.runningTimers.count ≤ n) :
    Yields Never (fun w' => Inv d w' ∧ (∃ heap, w' = { w with runningTimers := heap }) ∧
      ∀ q, w'.runningTimers.getMin = some q → w'.stopped q = false) (w.popStopped n) := by
  induction n generalizing w with
  | zero =>
      refine ⟨h, ⟨_, rfl⟩, fun q hq => ?_⟩
      unfold XHeap.getMin at hq
      rw [if_neg (by omega)] at hq
      cases hq
  | succ n ih =>
      unfold World.popStopped
      cases hMin : w.runningTimers.getMin with
      | none => exact ⟨h, ⟨_, rfl⟩, fun q hq => absurd (hMin.symm.trans hq) nofun⟩
      | some q =>
          dsimp only
          by_cases hStopped : w.stopped q = true
          · rw [if_pos hStopped]
            have hLt : ∀ y z, w.runningTimers.index y ≠ 0 → w.runningTimers.index z ≠ 0 →
                (w.lt y z = true ↔ w.left y < w.left z) := by
              intro y z hy hz
              obtain ⟨u, hu, hu'⟩ := h.queued.finite y hy
              obtain ⟨v, hv, hv'⟩ := h.queued.finite z hz
              exact lt_iff hu hu' hv hv'
            have hRoot : w.runningTimers.index q ≠ 0 :=
              (XHeap.getMin_spec h.queued.heap hMin).1
            have hCount : 0 < w.runningTimers.count := by
              have hLe := (h.queued.heap.indexed.ptr_index q hRoot).1
              omega
            apply (XHeap.popMin_spec h.queued.heap hMin hLt).bind
            rintro heap ⟨hPopped, hFewer⟩
            have hInv : Inv d { w with runningTimers := heap } := by
              refine ⟨⟨⟨hPopped.indexed, hPopped.ordered, fun _ => Iff.rfl⟩, fun r hr => ?_,
                fun r u hu hRun => ?_⟩, ⟨h.listed.nodup, h.listed.mem_iff⟩, h.count⟩
              · exact h.queued.finite r ((hPopped.mem r).mp hr).1
              · apply (hPopped.mem r).mpr
                refine ⟨h.queued.pending r u hu hRun, ?_⟩
                rintro rfl
                rw [World.stopped, show w.timers r = some u from hu] at hStopped
                simp only [Timer.stopped, hRun.1, Bool.false_eq_true, if_false, ge_iff_le,
                  decide_eq_true_eq] at hStopped
                exact absurd hRun.2 (not_lt.mpr hStopped)
            apply (ih hInv (by show heap.count ≤ n; omega)).imp
            rintro w' ⟨hInv', ⟨heap', rfl⟩, hRest⟩
            exact ⟨hInv', ⟨heap', rfl⟩, hRest⟩
          · rw [if_neg hStopped]
            refine ⟨h, ⟨_, rfl⟩, fun r hr => ?_⟩
            cases hMin.symm.trans hr
            exact Bool.eq_false_of_not_eq_true hStopped

theorem Inv.getTimeoutTV (h : Inv d w) :
    Yields Never (fun r => Inv d r.1 ∧ (∃ heap, r.1 = { w with runningTimers := heap }) ∧
      r.2 = r.1.timeout ∧ ∀ q, r.1.runningTimers.getMin = some q → r.1.stopped q = false)
      w.getTimeoutTV := by
  unfold World.getTimeoutTV
  apply (popStopped_spec h (le_refl _)).bind
  rintro w' ⟨hInv, hFrame, hRoot⟩
  exact ⟨hInv, hFrame, rfl, hRoot⟩

end Count

/-! ## Runs -/

/-- A new timer is at an address where there is none. -/
def Event.Fresh (w : World) : Event → Prop
  | .new p | .newInterval p _ | .newResource p _ _ | .newSeconds p _ _ => w.timers p = none
  | _ => True

/-- How far an event takes `infty_count` from the number of infinite timers. -/
def Event.miscount : Event → Int
  | .newSeconds _ _ _ => 1
  | _ => 0

/-- The steps whose events meet `ok`. -/
def Step (ok : World → Event → Prop) (w : World) (e : Env × Event) (w' : World) : Prop :=
  ok w e.2 ∧ act e.1 w e.2 = .ok w'

/-- There are no timers yet. -/
structure Start (w : World) : Prop where
  timers : ∀ p, w.timers p = none
  all_timers : w.allTimers = []
  count : w.runningTimers.count = 0
  index : ∀ p, w.runningTimers.index p = 0
  infty_count : w.inftyCount = 0

theorem Start.inv {w : World} (h : Start w) : Inv 0 w := by
  refine ⟨⟨⟨⟨fun k hk1 hk => ?_, fun p hp => absurd (h.index p) hp⟩, fun j h2 hj => ?_,
    fun p => Iff.rfl⟩, fun p hp => absurd (h.index p) hp, fun p t ht => ?_⟩, ⟨?_, fun p => ?_⟩, ?_⟩
  · have hCount := h.count
    omega
  · have hCount := h.count
    omega
  · exact absurd ((h.timers p).symm.trans ht) nofun
  · rw [h.all_timers]
    exact List.nodup_nil
  · rw [h.all_timers, h.timers]
    exact iff_of_false List.not_mem_nil (by rintro ⟨_, ⟨⟩⟩)
  · rw [h.all_timers, h.infty_count]
    rfl

/-- One event keeps the invariant, and no assertion fails. -/
theorem Inv.act {d : Int} {w : World} (h : Inv d w) (env : Env) {e : Event} (hFresh : e.Fresh w) :
    Yields Never (Inv (d + e.miscount)) (act env w e) := by
  have hOn : ∀ (p : Nat) (f : Timer → Except Fault World),
      (∀ t, w.timers p = some t → Yields Never (Inv d) (f t)) → Yields Never (Inv d) (w.on p f) := by
    intro p f hf
    unfold World.on
    split
    · next ht => exact hf _ ht
    · exact h
  cases e <;> simp only [Event.miscount, add_zero]
  case tick n => exact h.tick n
  case new p => exact h.new hFresh
  case newInterval p i => exact h.newInterval hFresh
  case newResource p r c => exact h.newResource hFresh c
  case newSeconds p s ms => exact h.newSeconds hFresh s ms
  case delete p => exact hOn p _ fun t ht => h.delete ht
  case set p i => exact hOn p _ fun t ht => h.set ht
  case reset p time => exact hOn p _ fun t ht => h.reset ht time
  case stop p => exact hOn p _ fun t ht => h.stopAt ht w.now
  case stopDelayed p s => exact hOn p _ fun t ht => h.stopAt ht _
  case addRandom p r => exact hOn p _ fun t ht => h.addRandom ht r
  case setResource p r c => exact hOn p _ fun t ht => h.setResource ht c
  case reconfigAll r => exact h.reconfigAll
  case getTimeout =>
    apply h.getTimeoutTV.bind
    rintro ⟨w', tv⟩ ⟨hInv, -⟩
    exact hInv

/-- The number of microseconds. -/
def Timeval.micros (tv : Timeval) : Int := tv.sec * 1000000 + tv.usec

/-- What `GetTimeoutTV` is to return: the least time that is left to a pending timer,
and without any of them an hour if there is an infinite timer, and -1 if not. -/
structure IsTimeout (w : World) (tv : Timeval) : Prop where
  least : ∀ p t, w.timers p = some t → Pending w.now t → tv.micros ≤ t.stop - w.now
  attained : (∃ p t, w.timers p = some t ∧ Pending w.now t) →
    ∃ p t, w.timers p = some t ∧ Pending w.now t ∧ tv.micros = t.stop - w.now
  hour : (∀ p t, w.timers p = some t → ¬ Pending w.now t) →
    (∃ p t, w.timers p = some t ∧ t.isInfty = true) → tv = ⟨Timers.hour, 0⟩
  never : (∀ p t, w.timers p = some t → ¬ Pending w.now t) →
    (¬ ∃ p t, w.timers p = some t ∧ t.isInfty = true) → tv = ⟨-1, 0⟩

/-- No timer is lost. -/
structure Scheduled (w : World) : Prop where
  queued : ∀ p t, w.timers p = some t → Pending w.now t →
    ∃! k, (1 ≤ k ∧ k ≤ w.runningTimers.count ∧ w.runningTimers.ptr k = p) ∧
      w.runningTimers.index p = k
  once : ∀ j k, 1 ≤ j → j ≤ w.runningTimers.count → 1 ≤ k → k ≤ w.runningTimers.count →
    w.runningTimers.ptr j = w.runningTimers.ptr k → j = k
  ordered : ∀ k, 2 ≤ k → k ≤ w.runningTimers.count →
    ¬ w.lt (w.runningTimers.ptr k) (w.runningTimers.ptr (k / 2))
  counted : w.inftyCount = (Set.ncard {p | ∃ t, w.timers p = some t ∧ t.isInfty = true} : Int)
  timeout : ∃ w' tv, w.getTimeoutTV = .ok (w', tv) ∧ IsTimeout w tv

theorem Inv.ncard {w : World} {d : Int} (h : Inv d w) :
    w.inftyCount + d = (Set.ncard {p | ∃ t, w.timers p = some t ∧ t.isInfty = true} : Int) := by
  have hSet : {p | ∃ t, w.timers p = some t ∧ t.isInfty = true} =
      ((w.allTimers.filter w.infinite).toFinset : Set Nat) := by
    ext p
    simp only [Set.mem_ofPred_eq, List.coe_toFinset, List.mem_filter, h.listed.mem_iff]
    constructor
    · rintro ⟨t, ht, hInfty⟩
      exact ⟨⟨t, ht⟩, (infinite_of ht).trans hInfty⟩
    · rintro ⟨⟨t, ht⟩, hInfty⟩
      exact ⟨t, ht, (infinite_of ht).symm.trans hInfty⟩
  rw [hSet, Set.ncard_coe_finset, List.toFinset_card_of_nodup (h.listed.nodup.filter _),
    ← List.countP_eq_length_filter]
  exact h.count

theorem Inv.infty_iff {w : World} (h : Inv 0 w) :
    (∃ p t, w.timers p = some t ∧ t.isInfty = true) ↔ w.inftyCount ≠ 0 := by
  have hCount := h.count
  have hPos : w.inftyCount ≠ 0 ↔ 0 < w.allTimers.countP w.infinite := by omega
  rw [hPos, List.countP_pos_iff]
  constructor
  · rintro ⟨p, t, ht, hInfty⟩
    exact ⟨p, (h.listed.mem_iff p).mpr ⟨t, ht⟩, (infinite_of ht).trans hInfty⟩
  · rintro ⟨p, hp, hInfty⟩
    obtain ⟨t, ht⟩ := (h.listed.mem_iff p).mp hp
    exact ⟨p, t, ht, (infinite_of ht).symm.trans hInfty⟩

/-- With a root that has not stopped, the result is the time left to it. -/
theorem Inv.isTimeout {w w' : World} (h : Inv 0 w) (h' : Inv 0 w')
    (hFrame : ∃ heap, w' = { w with runningTimers := heap })
    (hRoot : ∀ q, w'.runningTimers.getMin = some q → w'.stopped q = false) :
    IsTimeout w w'.timeout := by
  obtain ⟨heap, rfl⟩ := hFrame
  have hQueued := h'.queued
  cases hMin : heap.getMin with
  | none =>
      have hNone : ∀ p t, w.timers p = some t → ¬ Pending w.now t := fun p t ht hRun =>
        XHeap.getMin_none hQueued.heap hMin p (hQueued.pending p t ht hRun)
      have hTimeout : World.timeout { w with runningTimers := heap } =
          ⟨if w.inftyCount ≠ 0 then Timers.hour else -1, 0⟩ := by
        unfold World.timeout
        rw [hMin]
        rfl
      rw [hTimeout]
      refine ⟨fun p t ht hRun => absurd hRun (hNone p t ht), ?_, fun _ hInfty => ?_,
        fun _ hFinite => ?_⟩
      · rintro ⟨p, t, ht, hRun⟩
        exact absurd hRun (hNone p t ht)
      · rw [if_pos (h.infty_iff.mp hInfty)]
      · rw [if_neg (mt h.infty_iff.mpr hFinite)]
  | some q =>
      obtain ⟨hIn, hLeast⟩ := XHeap.getMin_spec hQueued.heap hMin
      obtain ⟨t, ht, hFinite⟩ := hQueued.finite q hIn
      have hRuns : w.now < t.stop := by
        have hNot := hRoot q hMin
        rw [World.stopped, show _ = some t from ht] at hNot
        simp only [Timer.stopped, hFinite, Bool.false_eq_true, if_false, ge_iff_le,
          decide_eq_false_iff_not, not_le] at hNot
        exact hNot
      have hPending : Pending w.now t := ⟨hFinite, hRuns⟩
      have hMicros : (World.timeout { w with runningTimers := heap }).micros = t.stop - w.now := by
        unfold World.timeout
        rw [hMin, Option.bind_some, show _ = some t from ht]
        unfold Timeval.micros
        dsimp only
        omega
      refine ⟨fun p u hu hRun => ?_, fun _ => ⟨q, t, ht, hPending, hMicros⟩, fun hNone => ?_,
        fun hNone => ?_⟩
      · have hLe := hLeast p (hQueued.pending p u hu hRun)
        rw [left_of ht, left_of (w := { w with runningTimers := heap }) hu] at hLe
        have hLater := hRun.2
        rw [hMicros]
        dsimp only at hLe
        omega
      · exact absurd hPending (hNone q t ht)
      · exact absurd hPending (hNone q t ht)

/-- In every run without the constructor that takes the seconds, no timer is lost. -/
theorem scheduled (w : World)
    (h : Reach Start (Step fun w e => e.Fresh w ∧ e.miscount = 0) w) : Scheduled w := by
  have hInv : Inv 0 w := by
    apply h.invariant (I := Inv 0)
    · exact fun w hStart => hStart.inv
    · rintro w ⟨env, e⟩ w' hInv ⟨⟨hFresh, hCounted⟩, hAct⟩
      have hYields := hInv.act env hFresh
      rw [hAct, show e.miscount = 0 from hCounted] at hYields
      exact hYields
  have hHeap := hInv.queued.heap
  refine ⟨fun p t ht hRun => ?_, fun j k hj1 hj hk1 hk => hHeap.indexed.ptr_inj hj1 hj hk1 hk,
    fun k h2 hk => ?_, (add_zero _).symm.trans hInv.ncard, ?_⟩
  · have hIn := hInv.queued.pending p t ht hRun
    obtain ⟨hLe, hPtr⟩ := hHeap.indexed.ptr_index p hIn
    exact ⟨_, ⟨⟨Nat.pos_of_ne_zero hIn, hLe, hPtr⟩, rfl⟩, fun k hk => hk.2.symm⟩
  · obtain ⟨t, ht, hFinite⟩ := hInv.queued.finite _ (hHeap.indexed.index_ne_zero (by omega) hk)
    obtain ⟨u, hu, hFinite'⟩ := hInv.queued.finite _
      (hHeap.indexed.index_ne_zero (by omega : 1 ≤ k / 2) (by omega))
    rw [lt_iff ht hFinite hu hFinite', not_lt]
    exact hHeap.ordered k h2 hk
  · obtain ⟨⟨w', tv⟩, hCall, hInv', hFrame, hTimeout, hRoot⟩ := hInv.getTimeoutTV.exists
    refine ⟨w', tv, hCall, ?_⟩
    rw [show tv = w'.timeout from hTimeout]
    exact hInv.isTimeout hInv' hFrame hRoot

/-- No timers. -/
def noTimers : World where
  now := 0
  timers _ := none
  allTimers := []
  runningTimers := ⟨0, fun _ => 0, fun _ => 0⟩
  inftyCount := 0

theorem start_noTimers : Start noTimers := ⟨fun _ => rfl, rfl, rfl, fun _ => rfl, rfl⟩

/-- Nothing random, and every resource is ten seconds. -/
def tenSeconds : Env := ⟨fun _ => 0, fun _ _ => .ofMs 10 0⟩

/-- A timer at address 7 is to stop after ten seconds, of which four have passed. -/
theorem scheduled_oneTimer :
    ∃ w w' : World, w.getTimeoutTV = .ok (w', ⟨6, 0⟩) ∧ Scheduled w := by
  have hNew : Reach Start (Step fun w e => e.Fresh w ∧ e.miscount = 0) (noTimers.new 7) :=
    .next (tenSeconds, .new 7) (.start start_noTimers) ⟨⟨rfl, rfl⟩, rfl⟩
  have hRuns : Reach Start (Step fun w e => e.Fresh w ∧ e.miscount = 0) _ :=
    .next (tenSeconds, .stopDelayed 7 10) hNew ⟨⟨trivial, rfl⟩, rfl⟩
  exact ⟨_, _, rfl, scheduled _ (.next (tenSeconds, .tick 4000000) hRuns ⟨⟨trivial, rfl⟩, rfl⟩)⟩

/-- A single timer made with the seconds takes `infty_count` below the number of
infinite timers, which is zero. -/
theorem not_scheduled :
    ¬ ∀ w, Reach Start (Step fun w e => e.Fresh w) w → Scheduled w := by
  intro hAll
  have hFresh : (Event.newSeconds 7 5 0).Fresh noTimers := rfl
  obtain ⟨w, hAct, hInv⟩ := (start_noTimers.inv.act tenSeconds hFresh).exists
  have hScheduled := hAll w (.next (tenSeconds, .newSeconds 7 5 0) (.start start_noTimers)
    ⟨hFresh, hAct⟩)
  have hCounted := hScheduled.counted
  have hOff : w.inftyCount + (0 + 1) = _ := hInv.ncard
  omega

end Lftp.Ports.Timers
