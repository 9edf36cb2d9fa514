import Lftp.Ports.DHTSweep
import Mathlib.Data.List.Find
import Mathlib.Data.List.Flatten

/-!
# Looking for nodes near an id

`FindNodes` takes the nodes of one bucket after another: the first that matches the id, then the
first that matches it with one bit less of the prefixes compared, and so on.

A bucket that comes after one which matches as well is not looked at, so that some are never.
`reached` is the nodes of those that are, and `findNodes_complete_iff` when they are all.
-/

namespace Lftp.Ports.DHT

open Lftp.Verified

variable {s s' : DHT} {r : RouteBucket} {p : Nat} {n : Node} {id target : Bytes}

/-- `PrefixMatch` -/
def RouteBucket.skewMatch (r : RouteBucket) (id : Bytes) (skew : Nat) : Bool :=
  if r.prefixBits ≤ skew then true
  else { r with prefixBits := r.prefixBits - skew }.prefixMatch id

/-- `FindRoute`, from the first bucket on. -/
def skewRoute (s : DHT) (id : Bytes) (skew : Nat) : Option Nat :=
  s.routes.findIdx? (·.skewMatch id skew)

/-- The test that `FindNodes` makes of a node. -/
def wanted (onlyGood : Bool) (exclude : Option (XMap Bool)) (n : Node) : Bool :=
  !n.isBad && (!onlyGood || n.good) && n.pingLostCount < 2 && !exclude.any (·.isThere n.id)

/-- The nodes of one bucket are added to those found; whether `FindNodes` returns there. -/
def collect (s : DHT) (test : Node → Bool) (maxCount : Int) :
    List Nat → List Nat → Except Crash (List Nat × Bool)
  | a, [] => .ok (a, false)
  | a, p :: ps => do
      let n ← s.deref p
      if test n && !a.contains p then
        if maxCount ≤ (a ++ [p]).length then .ok (a ++ [p], true)
        else collect s test maxCount (a ++ [p]) ps
      else collect s test maxCount a ps

/-- The loop of `FindNodes`, with so many turns left. -/
def findFrom (s : DHT) (target : Bytes) (test : Node → Bool) (maxCount : Int) :
    Nat → Nat → List Nat → Except Crash (List Nat)
  | 0, _, a => .ok a
  | turns + 1, skew, a =>
      match s.skewRoute target skew with
      | none => findFrom s target test maxCount turns (skew + 1) a
      | some i => do
          let (a, full) ← s.collect test maxCount a (s.nodesAt i)
          if full then .ok a else findFrom s target test maxCount turns (skew + 1) a

/-- `FindNodes` -/
def findNodes (s : DHT) (target : Bytes) (maxCount : Int) (onlyGood : Bool)
    (exclude : Option (XMap Bool)) : Except Crash (List Nat) :=
  s.findFrom target (wanted onlyGood exclude) maxCount 160 0 []

/-! ## What is found -/

variable {test : Node → Bool} {maxCount : Int} {a : List Nat} {P : Nat → Prop}

/-- The node is there and meets the test. -/
def eligible (s : DHT) (test : Node → Bool) (p : Nat) : Bool := (s.heap p).any test

/-- All eligible nodes of those looked at are found, and there is room. -/
structure Gathered (s : DHT) (test : Node → Bool) (maxCount : Int) (P : Nat → Prop)
    (a : List Nat) : Prop where
  nodup : a.Nodup
  mem : ∀ p, p ∈ a ↔ P p ∧ s.eligible test p = true
  room : a = [] ∨ (a.length : Int) < maxCount

/-- There is no more room. -/
structure Filled (s : DHT) (test : Node → Bool) (maxCount : Int) (P : Nat → Prop)
    (a : List Nat) : Prop where
  nodup : a.Nodup
  mem : ∀ p ∈ a, P p ∧ s.eligible test p = true
  full : (a.length : Int) = max 1 maxCount

/-- What one bucket may leave: `true` when there is no more room. -/
def Collected (s : DHT) (test : Node → Bool) (maxCount : Int) (P : Nat → Prop)
    (x : List Nat × Bool) : Prop :=
  if x.2 then Filled s test maxCount P x.1 else Gathered s test maxCount P x.1

/-- A node that was looked at already, or does not meet the test, is nothing new. -/
theorem Gathered.skip (h : Gathered s test maxCount P a)
    (hp : s.eligible test p = true → p ∈ a) :
    Gathered s test maxCount (fun q => P q ∨ q = p) a := by
  refine ⟨h.nodup, fun q => ?_, h.room⟩
  rw [h.mem q]
  constructor
  · exact fun hq => ⟨.inl hq.1, hq.2⟩
  · intro ⟨hq, hTest⟩
    rcases hq with hOld | hNew
    · exact ⟨hOld, hTest⟩
    · rw [hNew] at hTest ⊢
      exact (h.mem p).mp (hp hTest)

/-- A new one is added. -/
theorem Gathered.add (h : Gathered s test maxCount P a) (hp : s.eligible test p = true)
    (hNew : p ∉ a) :
    if maxCount ≤ (a ++ [p]).length then
      Filled s test maxCount (fun q => P q ∨ q = p) (a ++ [p])
    else Gathered s test maxCount (fun q => P q ∨ q = p) (a ++ [p]) := by
  have hNodup : (a ++ [p]).Nodup := by
    rw [List.nodup_append_comm]
    exact List.nodup_cons.mpr ⟨hNew, h.nodup⟩
  have hMem : ∀ q, q ∈ a ++ [p] ↔ (P q ∨ q = p) ∧ s.eligible test q = true := by
    intro q
    rw [List.mem_append, List.mem_singleton, h.mem q]
    constructor
    · intro hq
      rcases hq with hOld | hSame
      · exact ⟨.inl hOld.1, hOld.2⟩
      · exact ⟨.inr hSame, hSame ▸ hp⟩
    · intro ⟨hq, hTest⟩
      exact hq.imp (fun hOld => ⟨hOld, hTest⟩) id
  have hLength : (a ++ [p]).length = a.length + 1 := List.length_append ..
  split
  · rename_i hFull
    refine ⟨hNodup, fun q hq => (hMem q).mp hq, ?_⟩
    rw [hLength] at hFull ⊢
    rcases h.room with hNil | hRoom
    · rw [hNil] at hFull ⊢
      simp only [List.length_nil] at hFull ⊢
      omega
    · omega
  · rename_i hRoom
    exact ⟨hNodup, hMem, .inr (by omega)⟩

theorem Gathered.congr {Q : Nat → Prop} (h : Gathered s test maxCount P a)
    (hPQ : ∀ q, P q ↔ Q q) : Gathered s test maxCount Q a :=
  ⟨h.nodup, fun p => by rw [h.mem p, hPQ p], h.room⟩

theorem Filled.mono {Q : Nat → Prop} (h : Filled s test maxCount P a) (hPQ : ∀ q, P q → Q q) :
    Filled s test maxCount Q a :=
  ⟨h.nodup, fun p hp => (h.mem p hp).imp (hPQ p) id, h.full⟩

theorem Collected.congr {Q : Nat → Prop} {x : List Nat × Bool}
    (h : Collected s test maxCount P x) (hPQ : ∀ q, P q ↔ Q q) :
    Collected s test maxCount Q x := by
  unfold Collected at h ⊢
  split at h
  · rename_i hFull
    rw [if_pos hFull]
    exact h.mono fun q => (hPQ q).mp
  · rename_i hRoom
    rw [if_neg hRoom]
    exact h.congr hPQ

/-- What comes of one bucket. -/
theorem collect_spec {ps : List Nat} (h : Gathered s test maxCount P a)
    (hLive : ∀ p ∈ ps, s.Live p) :
    Yields Never (Collected s test maxCount fun q => P q ∨ q ∈ ps)
      (s.collect test maxCount a ps) := by
  induction ps generalizing P a with
  | nil => exact h.congr fun q => by simp
  | cons p ps ih =>
      rcases (hLive p List.mem_cons_self).exists with ⟨n, hn⟩
      have hTest : s.eligible test p = test n := by
        unfold eligible
        rw [hn]
        rfl
      have hRest := fun q hq => hLive q (List.mem_cons_of_mem p hq)
      have hCons : ∀ q, (P q ∨ q = p) ∨ q ∈ ps ↔ P q ∨ q ∈ p :: ps := fun q => by
        rw [List.mem_cons, or_assoc]
      have hLater : ∀ b, Gathered s test maxCount (fun q => P q ∨ q = p) b →
          Yields Never (Collected s test maxCount fun q => P q ∨ q ∈ p :: ps)
            (s.collect test maxCount b ps) :=
        fun b hb => (ih hb hRest).imp fun x hx => hx.congr hCons
      rw [collect, deref_eq hn, ok_bind]
      split
      · rename_i hNew
        rw [Bool.and_eq_true, ← hTest] at hNew
        have hAdd := h.add hNew.1 (by simpa using hNew.2)
        split at hAdd
        · rename_i hFull
          rw [if_pos hFull]
          exact hAdd.mono fun q hq => (hCons q).mp (.inl hq)
        · rename_i hFull
          rw [if_neg hFull]
          exact hLater _ hAdd
      · rename_i hOld
        apply hLater
        apply h.skip
        intro hp
        rw [hTest] at hp
        by_contra hOut
        exact hOld (by simp [hp, hOut])

/-- A bucket that the loop looks at in the first `k` turns has the node. -/
def LookedAt (s : DHT) (target : Bytes) (k : Nat) (p : Nat) : Prop :=
  ∃ skew < k, ∃ i, s.skewRoute target skew = some i ∧ p ∈ s.nodesAt i

theorem lookedAt_succ_iff {skew : Nat} : s.LookedAt target (skew + 1) p ↔
    s.LookedAt target skew p ∨ ∃ i, s.skewRoute target skew = some i ∧ p ∈ s.nodesAt i := by
  constructor
  · intro ⟨k, hk, hThere⟩
    rcases Nat.lt_succ_iff_lt_or_eq.mp hk with hLt | hEq
    · exact .inl ⟨k, hLt, hThere⟩
    · exact .inr (hEq ▸ hThere)
  · intro h
    rcases h with ⟨k, hk, hThere⟩ | hThere
    · exact ⟨k, Nat.lt_succ_of_lt hk, hThere⟩
    · exact ⟨skew, Nat.lt_succ_self skew, hThere⟩

theorem findFrom_spec (h : RoutesOk s) {turns skew : Nat}
    (hFound : Gathered s test maxCount (s.LookedAt target skew) a) :
    Yields Never (fun a => Gathered s test maxCount (s.LookedAt target (skew + turns)) a ∨
      Filled s test maxCount (s.LookedAt target (skew + turns)) a)
      (s.findFrom target test maxCount turns skew a) := by
  induction turns generalizing skew a with
  | zero => exact .inl hFound
  | succ turns ih =>
      rw [findFrom]
      rw [show skew + (turns + 1) = skew + 1 + turns by omega]
      cases hRoute : s.skewRoute target skew with
      | none =>
          apply ih
          apply hFound.congr
          intro q
          rw [lookedAt_succ_iff]
          simp [hRoute]
      | some i =>
          have hNext : ∀ q, s.LookedAt target skew q ∨ q ∈ s.nodesAt i ↔
              s.LookedAt target (skew + 1) q := by
            intro q
            rw [lookedAt_succ_iff]
            simp [hRoute]
          have hLive : ∀ q ∈ s.nodesAt i, s.Live q := fun q hq => by
            rcases h.exists_record hq with ⟨n, hn⟩
            exact live_of_heap hn
          apply (collect_spec hFound hLive).bind
          intro x hx
          rcases x with ⟨b, full⟩
          unfold Collected at hx
          dsimp only at hx ⊢
          split at hx
          · rename_i hFull
            rw [if_pos hFull]
            right
            apply hx.mono
            intro q hq
            rcases (hNext q).mp hq with ⟨k, hk, hThere⟩
            exact ⟨k, by omega, hThere⟩
          · rename_i hFull
            rw [if_neg hFull]
            exact ih (hx.congr hNext)

/-! ## The buckets that are looked at -/

theorem skewMatch_iff {skew : Nat} (hr : r.WellFormed) (hid : id.length = 20) :
    r.skewMatch id skew = true ↔ r.cell.Near skew (bitAt id) := by
  have hLe := hr.le
  have hLength := hr.length
  unfold RouteBucket.skewMatch Cell.Near
  show _ ↔ Agree (r.prefixBits - skew) (bitAt r.path) (bitAt id)
  split
  · rename_i hAll
    rw [Nat.sub_eq_zero_of_le hAll]
    exact iff_of_true rfl fun k hk => absurd hk (Nat.not_lt_zero k)
  · have hPath : (r.prefixBits - skew) / 8 ≤ r.path.length := by omega
    have hId : (r.prefixBits - skew) / 8 ≤ id.length := by omega
    exact prefixMatch_iff_agree (r := { r with prefixBits := r.prefixBits - skew }) hPath hId

/-- The number of bits of the first bucket. -/
def depth (s : DHT) : Nat := (s.routes.head?.map RouteBucket.prefixBits).getD 0

/-- The nodes of the buckets that `FindNodes` looks at. -/
def reached (s : DHT) (target : Bytes) : List Nat :=
  (s.routes.filter fun r =>
    r.cell.Reached (bitAt s.nodeId) (bitAt target) s.depth 160).flatMap RouteBucket.nodes

theorem skewRoute_iff (h : RoutesOk s) (ht : target.length = 20) {skew : Nat} :
    (∃ i, s.skewRoute target skew = some i ∧ p ∈ s.nodesAt i) ↔
      ∃ r, s.routes.find? (fun r => decide (r.cell.Near skew (bitAt target))) = some r ∧
        p ∈ r.nodes := by
  have hSame : s.routes.find? (fun r => decide (r.cell.Near skew (bitAt target))) =
      s.routes.find? fun r => r.skewMatch target skew := by
    apply List.find?_congr
    intro r hr
    rw [Bool.eq_iff_iff, decide_eq_true_eq, skewMatch_iff (h.wellFormed r hr) ht]
  rw [hSame, List.find?_eq_bind_findIdx?_getElem?]
  unfold skewRoute
  constructor
  · intro ⟨i, hi, hp⟩
    rw [hi]
    rcases exists_bucket (List.length_pos_of_mem hp) with ⟨r, hr, hNodes⟩
    exact ⟨r, hr, hNodes ▸ hp⟩
  · intro ⟨r, hr, hp⟩
    rcases Option.bind_eq_some_iff.mp hr with ⟨i, hi, hGet⟩
    exact ⟨i, hi, by rwa [nodesAt_eq hGet]⟩

/-- `FindNodes` looks at the nodes of the buckets reached. -/
theorem lookedAt_iff (h : RoutesOk s) (ht : target.length = 20) :
    s.LookedAt target 160 p ↔ p ∈ s.reached target := by
  have hLooked : s.LookedAt target 160 p ↔ ∃ r, (∃ skew < 160, s.routes.find?
      (fun r => decide (r.cell.Near skew (bitAt target))) = some r) ∧ p ∈ r.nodes := by
    constructor
    · intro ⟨skew, hLt, hThere⟩
      rcases (skewRoute_iff h ht).mp hThere with ⟨r, hr, hp⟩
      exact ⟨r, ⟨skew, hLt, hr⟩, hp⟩
    · intro ⟨r, ⟨skew, hLt, hr⟩, hp⟩
      exact ⟨skew, hLt, (skewRoute_iff h ht).mpr ⟨r, hr, hp⟩⟩
  rw [hLooked]
  unfold reached depth
  cases hRoutes : s.routes with
  | nil => simp
  | cons x l =>
      have hLadder := h.ladder.resolve_left (by rw [hRoutes]; exact List.cons_ne_nil _ _)
      have hLe := (h.wellFormed x (hRoutes ▸ List.mem_cons_self)).le
      rw [hRoutes] at hLadder
      rw [List.mem_flatMap]
      apply exists_congr
      intro r
      rw [List.mem_filter, hLadder.reached_iff hLe (by decide), decide_eq_true_eq]
      rfl

/-! ## When all are found -/

/-- No node twice and not too many; and where there are fewer, then all eligible ones. -/
structure Complete (s : DHT) (test : Node → Bool) (maxCount : Int) (a : List Nat) : Prop where
  nodup : a.Nodup
  bounded : (a.length : Int) ≤ maxCount
  all : (a.length : Int) < maxCount → ∀ p ∈ s.table, s.eligible test p = true → p ∈ a

/-- The eligible nodes that are reached. -/
def near (s : DHT) (target : Bytes) (test : Node → Bool) : List Nat :=
  (s.reached target).filter (s.eligible test)

/-- There are enough of them, or all eligible nodes are; with nothing to find where nothing may
be. -/
def Suffices (s : DHT) (target : Bytes) (test : Node → Bool) (maxCount : Int) : Prop :=
  1 ≤ maxCount ∧ (maxCount ≤ (s.near target test).length ∨
    ∀ p ∈ s.table, s.eligible test p = true → p ∈ s.reached target) ∨
  maxCount = 0 ∧ s.near target test = []

theorem nodup_near (h : RoutesOk s) (target : Bytes) (test : Node → Bool) :
    (s.near target test).Nodup :=
  (h.nodup.sublist (List.filter_sublist.flatMap _)).filter _

theorem mem_near_iff : p ∈ s.near target test ↔
    p ∈ s.reached target ∧ s.eligible test p = true := List.mem_filter

/-- All that are near were found. -/
theorem Gathered.complete_iff (h : RoutesOk s)
    (ha : Gathered s test maxCount (fun p => p ∈ s.reached target) a) :
    Complete s test maxCount a ↔ s.Suffices target test maxCount := by
  have hMem : ∀ p, p ∈ a ↔ p ∈ s.near target test := fun p => by rw [ha.mem p, mem_near_iff]
  have hLength : a.length = (s.near target test).length :=
    ((List.perm_ext_iff_of_nodup ha.nodup (nodup_near h target test)).mpr hMem).length_eq
  have hRoom : (s.near target test).length = 0 ∨
      ((s.near target test).length : Int) < maxCount := by
    rw [← hLength]
    exact ha.room.imp (fun hNil => by rw [hNil]; rfl) id
  unfold Suffices
  rw [← List.length_eq_zero_iff]
  constructor
  · intro hComplete
    have hBounded := hComplete.bounded
    rw [hLength] at hBounded
    rcases Int.lt_or_le maxCount 1 with hNone | hSome
    · right
      omega
    · refine .inl ⟨hSome, .inr fun p hp hTest => ?_⟩
      have hFound := hComplete.all (by rw [hLength]; omega) p hp hTest
      exact ((ha.mem p).mp hFound).1
  · intro hCond
    rcases hCond with ⟨hSome, hEnough⟩ | ⟨hZero, hNone⟩
    · refine ⟨ha.nodup, by rw [hLength]; omega, fun _ p hp hTest => ?_⟩
      have hAll := hEnough.resolve_left (by omega)
      exact (ha.mem p).mpr ⟨hAll p hp hTest, hTest⟩
    · refine ⟨ha.nodup, by rw [hLength]; omega, fun hLess => ?_⟩
      rw [hLength] at hLess
      omega

/-- The loop stopped before it had seen them all. -/
theorem Filled.complete_iff
    (ha : Filled s test maxCount (fun p => p ∈ s.reached target) a) :
    Complete s test maxCount a ↔ s.Suffices target test maxCount := by
  have hFull := ha.full
  have hSub : a ⊆ s.near target test := fun p hp => mem_near_iff.mpr (ha.mem p hp)
  have hLength : a.length ≤ (s.near target test).length := (ha.nodup.subperm hSub).length_le
  unfold Suffices
  rw [← List.length_eq_zero_iff]
  constructor
  · intro hComplete
    have hBounded := hComplete.bounded
    left
    omega
  · intro hCond
    rcases hCond with ⟨hSome, -⟩ | ⟨hZero, hNone⟩
    · exact ⟨ha.nodup, by omega, fun hLess => by omega⟩
    · omega

/-- `FindNodes` finds all there is exactly when the buckets it looks at suffice. -/
theorem findNodes_complete_iff (h : RoutesOk s) (ht : target.length = 20) (maxCount : Int)
    (onlyGood : Bool) (exclude : Option (XMap Bool)) :
    ∃ a, s.findNodes target maxCount onlyGood exclude = .ok a ∧
      (Complete s (wanted onlyGood exclude) maxCount a ↔
        s.Suffices target (wanted onlyGood exclude) maxCount) := by
  have hStart : Gathered s (wanted onlyGood exclude) maxCount (s.LookedAt target 0) [] := by
    refine ⟨List.nodup_nil, fun p => iff_of_false List.not_mem_nil ?_, .inl rfl⟩
    intro ⟨⟨skew, hLt, _⟩, _⟩
    exact Nat.not_lt_zero skew hLt
  have hSpec := @findFrom_spec s target _ maxCount [] h 160 0 hStart
  rcases hSpec.exists with ⟨a, hRun, hFound⟩
  have hLooked : ∀ p, s.LookedAt target (0 + 160) p ↔ p ∈ s.reached target :=
    fun p => lookedAt_iff h ht
  refine ⟨a, hRun, ?_⟩
  rcases hFound with hGathered | hFilled
  · exact (hGathered.congr hLooked).complete_iff h
  · exact (hFilled.mono fun p => (hLooked p).mp).complete_iff

/-- With one bucket all nodes are found. -/
theorem findNodes_complete_oneNode :
    ∃ a, oneNode.findNodes ownId 8 false none = .ok a ∧
      Complete oneNode (wanted false none) 8 a := by
  have hOwn : ownId.length = 20 := rfl
  rcases findNodes_complete_iff (reach_inv reach_oneNode).routes hOwn 8 false none with
    ⟨a, hRun, hIff⟩
  exact ⟨a, hRun, hIff.mpr (.inl ⟨by decide, .inr (by decide)⟩)⟩

/-! ## A bucket that is not looked at -/

/-- The ids of the other half. -/
def farId (k : UInt8) : Bytes := 128 :: (idOf k).tail

/-- Four nodes that replied are in the half of the own id, and five are in the other. -/
def halves : List Event :=
  [1, 2, 3, 4].map (fun k => .foundNode (idOf k) (addrOf k) true) ++
    [5, 6, 7, 8, 9].map fun k => .foundNode (farId k) (addrOf k) true

/-- Fewer nodes than asked for are found, and not all. -/
def missesSome (s : DHT) (maxCount : Int) (test : Node → Bool) (a : List Nat) : Bool :=
  (a.length : Int) < maxCount && s.table.any fun p => s.eligible test p && !a.contains p

theorem not_complete_of_missesSome (h : s.missesSome maxCount test a = true) :
    ¬ Complete s test maxCount a := by
  intro hComplete
  unfold missesSome at h
  rw [Bool.and_eq_true, decide_eq_true_eq, List.any_eq_true] at h
  rcases h with ⟨hLess, p, hp, hMissed⟩
  rw [Bool.and_eq_true] at hMissed
  have hFound := hComplete.all hLess p hp hMissed.1
  simp [hFound] at hMissed

/-- Asked for eight good nodes near the own id, `FindNodes` gives the four of the first bucket. -/
theorem not_findNodes_complete :
    ∃ s, (new .inet (idOf 0)).follow halves = some s ∧ Reach Init Step s ∧
      ∃ a, s.findNodes (idOf 0) 8 true none = .ok a ∧ ¬ Complete s (wanted true none) 8 a := by
  have hMisses : ((new .inet (idOf 0)).follow halves).any (fun s =>
      match s.findNodes (idOf 0) 8 true none with
      | .ok a => s.missesSome 8 (wanted true none) a
      | .error _ => false) = true := by decide +kernel
  cases hFollow : (new .inet (idOf 0)).follow halves with
  | none =>
      rw [hFollow] at hMisses
      exact absurd hMisses Bool.false_ne_true
  | some s =>
      rw [hFollow, Option.any_some] at hMisses
      have hReach := reach_follow (.start ⟨.inet, idOf 0, rfl, rfl⟩) hFollow
      split at hMisses
      · rename_i a hRun
        exact ⟨s, rfl, hReach, a, hRun, not_complete_of_missesSome hMisses⟩
      · exact absurd hMisses Bool.false_ne_true

end Lftp.Ports.DHT
