import Lftp.Ports.Timers
import Lftp.Verified.Decimal

/-!
# The tokens of DHT nodes

A node that asks for peers is given a token, and must show it when it announces itself. The
code keeps two tokens of each node, and makes a new one when it is asked for one after the
timer has stopped. So a token may be accepted long after it was issued: when nobody asks for
a token in between, the old one becomes the previous one however old it is.

`Prompt` is that this does not happen: a new token is made at most one interval after the last
one was given out. `tokens_expire` is what then holds over all runs.
-/

namespace Lftp.Ports.DHTTokens

open Lftp.Verified
open Lftp.Ports.Timers

/-- The setting of `token_timer`. -/
def interval : Int := 5 * 60 * 1000000

/-- The members of `DHT::Node` about tokens. A token is none while the string is null. -/
structure Node where
  myToken : Option Bytes
  myLastToken : Option Bytes
  tokenTimer : Timer

/-- What `Reset` makes of a timer without random delay. -/
def resetTimer (t : Timer) (time : Int) : Timer :=
  if t.start ≥ time ∧ unixTime t.stop > unixTime time then t
  else { t with start := time, stop := time + t.lastSetting.diff }

namespace Node

/-- The constructor. -/
def new (now : Int) : Node :=
  ⟨none, none, ⟨now, now + interval, .ofMs (5 * 60) 0, 0, none, none⟩⟩

/-- `GetToken`; `fresh` are the random bytes. -/
def getToken (n : Node) (now : Int) (fresh : Bytes) : Bytes × Node :=
  match n.myToken with
  | none => (fresh, ⟨some fresh, none, resetTimer n.tokenTimer now⟩)
  | some token =>
      if n.tokenTimer.stopped now then
        (fresh, ⟨some fresh, some token, resetTimer n.tokenTimer now⟩)
      else (token, n)

/-- `TokenIsValid` -/
def tokenIsValid (n : Node) (now : Int) (token : Option Bytes) : Bool :=
  match token, n.myToken with
  | some token, some myToken =>
      !n.tokenTimer.stopped now && (token = myToken || n.myLastToken = some token)
  | _, _ => false

end Node

/-! ## Runs -/

/-- A token that was given out. -/
structure Issue where
  node : Nat
  token : Bytes
  time : Int

/-- The nodes by their addresses; `log` has what was given out, the last first. -/
structure State where
  nodes : Nat → Option Node
  log : List Issue
  now : Int

inductive Event
  /-- A new node. -/
  | found (p : Nat) (now : Int)
  | getToken (p : Nat) (now : Int) (fresh : Bytes)
  | check (p : Nat) (now : Int) (token : Option Bytes)

def Event.time : Event → Int
  | found _ now => now
  | getToken _ now _ => now
  | check _ now _ => now

def act (s : State) : Event → State
  | .found p now => { s with nodes := Function.update s.nodes p (some (Node.new now)), now := now }
  | .getToken p now fresh =>
      match s.nodes p with
      | none => { s with now := now }
      | some n =>
          { nodes := Function.update s.nodes p (some (n.getToken now fresh).2)
            log := ⟨p, (n.getToken now fresh).1, now⟩ :: s.log
            now := now }
  | .check _ now _ => { s with now := now }

def Started (s : State) : Prop := (∀ p, s.nodes p = none) ∧ s.log = []

/-- The last token given out to a node. -/
def State.lastIssue (s : State) (p : Nat) : Option Issue := s.log.find? fun i => i.node = p

/-- A new token is made at most one interval after the last one was given out. -/
def Prompt (s : State) : Event → Prop
  | .getToken p now _ => ∀ n ∈ s.nodes p, n.myToken ≠ none → n.tokenTimer.stopped now = true →
      ∀ i ∈ s.lastIssue p, now ≤ i.time + interval
  | _ => True

instance (s : State) (o : Event) : Decidable (Prompt s o) :=
  match o with
  | .found .. => .isTrue trivial
  | .getToken p now _ => inferInstanceAs (Decidable (∀ n ∈ s.nodes p, n.myToken ≠ none →
      n.tokenTimer.stopped now = true → ∀ i ∈ s.lastIssue p, now ≤ i.time + interval))
  | .check .. => .isTrue trivial

/-- Time does not go back. -/
def InOrder (s : State) (o : Event) : Prop := s.now ≤ o.time

instance (s : State) (o : Event) : Decidable (InOrder s o) :=
  inferInstanceAs (Decidable (s.now ≤ o.time))

/-! ## What a node may accept -/

/-- The timer of the tokens runs for one interval. -/
structure TimerOk (t : Timer) (now : Int) : Prop where
  finite : t.isInfty = false
  setting : t.lastSetting.diff = interval
  stop : t.stop = t.start + interval
  started : t.start ≤ now

theorem TimerOk.mono {t : Timer} {now now' : Int} (h : TimerOk t now) (hLe : now ≤ now') :
    TimerOk t now' := ⟨h.finite, h.setting, h.stop, h.started.trans hLe⟩

/-- After `Reset` the timer runs from now on. -/
theorem TimerOk.reset {t : Timer} {now : Int} (h : TimerOk t now) :
    TimerOk (resetTimer t now) now ∧ (resetTimer t now).start = now := by
  unfold resetTimer
  split
  · rename_i hRunning
    exact ⟨h, le_antisymm h.started hRunning.1⟩
  · exact ⟨⟨h.finite, h.setting, by rw [h.setting], le_rfl⟩, rfl⟩

theorem TimerOk.running {t : Timer} {now now' : Int} (h : TimerOk t now)
    (hRuns : t.stopped now' = false) : now' < t.start + interval := by
  unfold Timer.stopped at hRuns
  rw [h.finite, if_neg Bool.false_ne_true, decide_eq_false_iff_not, h.stop] at hRuns
  exact not_le.mp hRuns

/-- The token of a node is the last one given out to it, and the previous one was given out not
much before the timer was set. -/
structure NodeOk (s : State) (p : Nat) (n : Node) : Prop where
  timer : TimerOk n.tokenTimer s.now
  current : ∀ k, n.myToken = some k →
    ∃ i, s.lastIssue p = some i ∧ i.token = k ∧ n.tokenTimer.start ≤ i.time
  last : ∀ k, n.myLastToken = some k →
    ∃ i ∈ s.log, i.node = p ∧ i.token = k ∧ n.tokenTimer.start ≤ i.time + interval

/-- Every node of the state, and the clock. -/
structure Inv (s : State) : Prop where
  nodes : ∀ p n, s.nodes p = some n → NodeOk s p n
  log : ∀ i ∈ s.log, i.time ≤ s.now

variable {s s' : State} {p : Nat} {n : Node} {i : Issue}

theorem mem_of_lastIssue (h : s.lastIssue p = some i) : i ∈ s.log ∧ i.node = p := by
  have hNode := List.find?_some h
  exact ⟨List.mem_of_find?_eq_some h, of_decide_eq_true hNode⟩

/-- What is given out to another node changes nothing. -/
theorem NodeOk.issue {q : Nat} {k : Bytes} {now : Int} {nodes : Nat → Option Node}
    (h : NodeOk s q n) (hne : p ≠ q) (hNow : s.now ≤ now) :
    NodeOk ⟨nodes, ⟨p, k, now⟩ :: s.log, now⟩ q n where
  timer := h.timer.mono hNow
  current := by
    intro k' hk
    rcases h.current k' hk with ⟨i, hi, hToken⟩
    have hSkip : State.lastIssue ⟨nodes, ⟨p, k, now⟩ :: s.log, now⟩ q = s.lastIssue q :=
      List.find?_cons_of_neg (by rw [decide_eq_true_eq]; exact hne)
    exact ⟨i, hSkip.trans hi, hToken⟩
  last := by
    intro k' hk
    rcases h.last k' hk with ⟨i, hi, hRest⟩
    exact ⟨i, List.mem_cons_of_mem _ hi, hRest⟩

theorem NodeOk.wait {now : Int} {nodes : Nat → Option Node} (h : NodeOk s p n)
    (hNow : s.now ≤ now) : NodeOk ⟨nodes, s.log, now⟩ p n :=
  ⟨h.timer.mono hNow, h.current, h.last⟩

theorem nodeOk_new (now : Int) (hNow : s.now = now) : NodeOk s p (Node.new now) where
  timer := ⟨rfl, rfl, rfl, by rw [hNow]; exact le_rfl⟩
  current := fun k hk => absurd hk (Option.some_ne_none k).symm
  last := fun k hk => absurd hk (Option.some_ne_none k).symm

/-- A token is given out. -/
theorem NodeOk.getToken {now : Int} {fresh : Bytes} {nodes : Nat → Option Node} (h : NodeOk s p n)
    (hp : s.nodes p = some n) (hNow : s.now ≤ now) (hPrompt : Prompt s (.getToken p now fresh)) :
    NodeOk ⟨nodes, ⟨p, (n.getToken now fresh).1, now⟩ :: s.log, now⟩ p
      (n.getToken now fresh).2 := by
  have hTimer := h.timer.mono hNow
  have hFirst : ∀ k, State.lastIssue ⟨nodes, ⟨p, k, now⟩ :: s.log, now⟩ p = some ⟨p, k, now⟩ :=
    fun k => List.find?_cons_of_pos (by rw [decide_eq_true_eq])
  unfold Node.getToken
  split
  · constructor
    · exact hTimer.reset.1
    · intro k hk
      rw [← Option.some.inj hk]
      exact ⟨_, hFirst fresh, rfl, le_of_eq hTimer.reset.2⟩
    · exact fun k hk => absurd hk (Option.some_ne_none k).symm
  · rename_i token hToken
    rcases h.current token hToken with ⟨i, hi, hSame, hStart⟩
    split
    · rename_i hStopped
      have hSoon := hPrompt n hp (by rw [hToken]; exact Option.some_ne_none token) hStopped i hi
      have hMem := mem_of_lastIssue hi
      constructor
      · exact hTimer.reset.1
      · intro k hk
        rw [← Option.some.inj hk]
        exact ⟨_, hFirst fresh, rfl, le_of_eq hTimer.reset.2⟩
      · intro k hk
        rw [← Option.some.inj hk]
        exact ⟨i, List.mem_cons_of_mem _ hMem.1, hMem.2, hSame, by rw [hTimer.reset.2]; exact hSoon⟩
    · constructor
      · exact hTimer
      · intro k hk
        rw [hToken] at hk
        rw [← Option.some.inj hk]
        exact ⟨_, hFirst token, rfl, hTimer.started⟩
      · intro k hk
        rcases h.last k hk with ⟨j, hj, hRest⟩
        exact ⟨j, List.mem_cons_of_mem _ hj, hRest⟩

/-- One step keeps all nodes so. -/
theorem Inv.act (h : Inv s) {o : Event} (hOrder : InOrder s o) (hPrompt : Prompt s o) :
    Inv (act s o) := by
  have hLog : ∀ i ∈ s.log, i.time ≤ o.time := fun i hi => (h.log i hi).trans hOrder
  cases o with
  | found p now =>
      constructor
      · intro q m hm
        change Function.update s.nodes p (some (Node.new now)) q = some m at hm
        by_cases hq : q = p
        · subst hq
          rw [Function.update_self] at hm
          rw [← Option.some.inj hm]
          exact nodeOk_new now rfl
        · rw [Function.update_of_ne hq] at hm
          exact (h.nodes q m hm).wait hOrder
      · exact hLog
  | getToken p now fresh =>
      dsimp only [DHTTokens.act]
      cases hp : s.nodes p with
      | none => exact ⟨fun q m hm => (h.nodes q m hm).wait hOrder, hLog⟩
      | some n =>
          constructor
          · intro q m hm
            change Function.update s.nodes p (some (n.getToken now fresh).2) q = some m at hm
            by_cases hq : q = p
            · subst hq
              rw [Function.update_self] at hm
              rw [← Option.some.inj hm]
              exact (h.nodes q n hp).getToken hp hOrder hPrompt
            · rw [Function.update_of_ne hq] at hm
              exact (h.nodes q m hm).issue (Ne.symm hq) hOrder
          · intro i hi
            rcases List.mem_cons.mp hi with hi | hi
            · rw [hi]
            · exact hLog i hi
  | check p now token => exact ⟨fun q m hm => (h.nodes q m hm).wait hOrder, hLog⟩

theorem reach_inv
    (h : Reach Started (Guarded DHTTokens.act fun s o => InOrder s o ∧ Prompt s o) s) : Inv s := by
  apply h.invariant
  · intro s hStart
    constructor
    · intro p n hn
      rw [hStart.1 p] at hn
      exact absurd hn (Option.some_ne_none n).symm
    · intro i hi
      rw [hStart.2] at hi
      exact absurd hi List.not_mem_nil
  · intro s o s' hInv hStep
    rw [hStep.2]
    exact hInv.act hStep.1.1 hStep.1.2

/-- In runs whose new tokens are made promptly, what a node shows was given out to it no more
than two intervals ago. -/
theorem tokens_expire
    (h : Reach Started (Guarded DHTTokens.act fun s o => InOrder s o ∧ Prompt s o) s)
    (hp : s.nodes p = some n) {now : Int} (hNow : s.now ≤ now) {token : Bytes}
    (hValid : n.tokenIsValid now (some token) = true) :
    ∃ i ∈ s.log, i.node = p ∧ i.token = token ∧ i.time ≤ now ∧ now ≤ i.time + 2 * interval := by
  have hInv := reach_inv h
  have hNode := hInv.nodes p n hp
  unfold Node.tokenIsValid at hValid
  cases hToken : n.myToken with
  | none =>
      rw [hToken] at hValid
      exact absurd hValid Bool.false_ne_true
  | some myToken =>
      rw [hToken] at hValid
      dsimp only at hValid
      rw [Bool.and_eq_true, Bool.not_eq_true', Bool.or_eq_true, decide_eq_true_eq,
        decide_eq_true_eq] at hValid
      have hRuns := hNode.timer.running hValid.1
      have hInterval : 0 ≤ interval := by decide
      rcases hValid.2 with hCurrent | hLast
      · rcases hNode.current myToken hToken with ⟨i, hi, hSame, hStart⟩
        have hMem := mem_of_lastIssue hi
        exact ⟨i, hMem.1, hMem.2, hSame.trans hCurrent.symm, (hInv.log i hMem.1).trans hNow,
          by omega⟩
      · rcases hNode.last token hLast with ⟨i, hi, hAt, hSame, hStart⟩
        exact ⟨i, hi, hAt, hSame, (hInv.log i hi).trans hNow, by omega⟩

/-! ## A late request -/

/-- A node asks for a token, and again after 10000 seconds. -/
def lateEvents : List Event :=
  [.found 0 0, .getToken 0 0 (bytes "first"), .getToken 0 10000000000 (bytes "second")]

def noNodes : State := ⟨fun _ => none, [], 0⟩

def late : State := lateEvents.foldl act noNodes

theorem reach_late : Reach Started (Guarded act InOrder) late :=
  Reach.foldl (.start ⟨fun _ => rfl, rfl⟩) lateEvents
    ⟨by decide, by decide, by decide, trivial⟩

/-- The first token is accepted a second later. -/
theorem late_accepts_first :
    Reach Started (Guarded act InOrder) late ∧
      ∃ n, late.nodes 0 = some n ∧ n.tokenIsValid 10001000000 (some (bytes "first")) = true ∧
        ¬ ∃ i ∈ late.log, i.node = 0 ∧ i.token = bytes "first" ∧ i.time ≤ 10001000000 ∧
          10001000000 ≤ i.time + 2 * interval := by
  constructor
  · exact reach_late
  · exact ⟨_, rfl, by decide +kernel, by decide +kernel⟩

/-- A node asks for a token after 200, 450 and 600 seconds. -/
def promptEvents : List Event :=
  [.found 0 0, .getToken 0 200000000 (bytes "first"), .getToken 0 450000000 (bytes "none"),
    .getToken 0 600000000 (bytes "second")]

def prompt : State := promptEvents.foldl act noNodes

/-- It shows the first token after 700 seconds. -/
theorem tokens_expire_prompt :
    ∃ i ∈ prompt.log, i.node = 0 ∧ i.token = bytes "first" ∧ i.time ≤ 700000000 ∧
      700000000 ≤ i.time + 2 * interval := by
  have hReach : Reach Started (Guarded act fun s o => InOrder s o ∧ Prompt s o) prompt :=
    Reach.foldl (.start ⟨fun _ => rfl, rfl⟩) promptEvents
      ⟨by decide +kernel, by decide +kernel, by decide +kernel, by decide +kernel, trivial⟩
  exact tokens_expire (n := (prompt.nodes 0).get (by decide +kernel)) hReach (by simp) (by decide)
    (by decide +kernel)

end Lftp.Ports.DHTTokens
