import Mathlib.Algebra.GroupWithZero.Nat
import Lftp.Verified.Decimal
import Lftp.Verified.Loop
import Lftp.Verified.Sorting
import Mathlib.Algebra.Order.BigOperators.Group.List
import Mathlib.Algebra.Order.Group.Nat
import Mathlib.Data.List.Pairwise

/-!
# The order of SRV records

`LookupSRV_RR` sorts the records by priority, and then goes through the groups of one priority. A
weighted random draw numbers the records of a group one after another, and the records are sorted
again by priority, number and weight.

The draw is left out where the group begins at index 0, and the records that are not drawn, those of
weight 0, keep the number 0.

* `numbered_ok`: the loop comes to its end, and what the numbers are then.
* `ordered_iff`: the records are in the order that was drawn exactly when the first group has not
  two records to draw from, and no other group has records of weight 0 and others.
-/

namespace Lftp.Ports.SrvRecords

open Lftp.Verified
open Lftp.Verified.Sorting (QSorts)

structure Record where
  domain : Bytes
  port : Nat
  priority : Nat
  weight : Nat
deriving DecidableEq

/-- `SRV` -/
structure SRV extends Record where
  order : Nat
deriving DecidableEq

/-- `SRV_compare` -/
def srvCompare (a b : SRV) : Ordering :=
  if a.priority < b.priority then .lt
  else if a.priority > b.priority then .gt
  else if a.order < b.order then .lt
  else if a.order > b.order then .gt
  else if a.weight > b.weight then .lt
  else if a.weight < b.weight then .gt
  else .eq

/-! ## The draw -/

/-- The `for` loop over `s` with the sum `w`: the record that `r` falls on gets the number `o`. -/
def pick (r o : Nat) : Nat → List SRV → Option (List SRV × Record)
  | _, [] => none
  | w, x :: xs =>
    if x.order ≠ 0 then (pick r o w xs).map fun p => (x :: p.1, p.2)
    else if r < w + x.weight then some ({ x with order := o } :: xs, x.toRecord)
    else (pick r o (w + x.weight) xs).map fun p => (x :: p.1, p.2)

/-- The state of the `while` loop. -/
structure Draw where
  /-- From `SRVs[base]` up to `SRVs[SRVscan]`. -/
  group : List SRV
  o : Nat
  weightSum : Nat
  /-- How often `rand` has been called. -/
  calls : Nat
  /-- The records in the order in which they were drawn. -/
  picks : List Record

/-- A turn of the `while` loop. The number that is drawn at a call of `rand` is
`scale calls weight_sum`. -/
def drawTurn (scale : Nat → Nat → Nat) (d : Draw) : Draw ⊕ Draw :=
  if d.weightSum = 0 then .inr d
  else
    let r := min (scale d.calls d.weightSum) (d.weightSum - 1)
    match pick r d.o 0 d.group with
    | none => .inl { d with calls := d.calls + 1 }
    | some (group, x) => .inl
      { group := group, o := d.o + 1, weightSum := d.weightSum - x.weight
        calls := d.calls + 1, picks := d.picks ++ [x] }

/-- The state of the loop over the groups. -/
structure State where
  srvs : List SRV
  scan : Nat
  base : Nat
  currPriority : Int
  weightSum : Nat
  calls : Nat
  picks : List Record

/-- What is done where a group ends. -/
def endGroup (scale : Nat → Nat → Nat) (s : State) : Option State :=
  if s.base = 0 then some s
  else
    (loop (drawTurn scale) (s.weightSum + 1)
      ⟨(s.srvs.take s.scan).drop s.base, 1, s.weightSum, s.calls, s.picks⟩).map fun d =>
        { s with srvs := s.srvs.take s.base ++ d.group ++ s.srvs.drop s.scan
                 weightSum := d.weightSum, calls := d.calls, picks := d.picks }

/-- A turn of the loop over the groups. -/
def turn (scale : Nat → Nat → Nat) (s : State) : State ⊕ Option State :=
  match s.srvs[s.scan]? with
  | none => .inr (endGroup scale s)
  | some x =>
    if x.priority ≠ s.currPriority then
      match endGroup scale s with
      | none => .inr none
      | some s => .inl { s with base := s.scan, currPriority := x.priority, weightSum := x.weight
                                scan := s.scan + 1 }
    else .inl { s with weightSum := s.weightSum + x.weight, scan := s.scan + 1 }

/-- The records with their numbers, and the order in which they were drawn. -/
def numbered (scale : Nat → Nat → Nat) (srvs : List SRV) : Option (List SRV × List Record) :=
  ((loop (turn scale) (srvs.length + 1) ⟨srvs, 0, 0, -1, 0, 0, []⟩).bind id).map fun s =>
    (s.srvs, s.picks)

/-- `LookupSRV_RR`, `sort and randomize the list`. -/
def randomize (sort : (SRV → SRV → Ordering) → List SRV → List SRV) (scale : Nat → Nat → Nat)
    (records : List Record) : Option (List SRV × List Record) :=
  (numbered scale (sort srvCompare (records.map (SRV.mk · 0)))).map fun p =>
    (sort srvCompare p.1, p.2)

/-! ## What the order should be -/

/-- The records of a priority that have a weight. -/
def weighted (p : Nat) (srvs : List SRV) : List Record :=
  (srvs.filter fun x => x.priority = p && 0 < x.weight).map SRV.toRecord

structure Ordered (records : List Record) (out : List SRV) (picks : List Record) : Prop where
  perm : (out.map SRV.toRecord).Perm records
  ascending : out.Pairwise fun a b => a.priority ≤ b.priority
  /-- Where there are several they come as they were drawn. -/
  drawn : ∀ p, 1 < (weighted p out).length →
    weighted p out = picks.filter fun x => x.priority = p
  zeros : out.Pairwise fun a b => a.priority = b.priority → a.weight = 0 → b.weight = 0

/-- The first group has at most one record of positive weight, and the others have no or only such
records. -/
def Plain (records : List Record) : Prop :=
  ∀ p, ((∀ x ∈ records, p ≤ x.priority) →
      (records.filter fun x => x.priority = p && 0 < x.weight).length ≤ 1)
    ∧ ((∃ x ∈ records, x.priority < p) →
      (∀ x ∈ records, x.priority = p → x.weight = 0) ∨ ∀ x ∈ records, x.priority = p → 0 < x.weight)

/-! ## One group -/

/-- The weight of the records that have no number. -/
def undrawn (g : List SRV) : Nat := ((g.filter (·.order = 0)).map fun x => x.weight).sum

@[simp] theorem undrawn_nil : undrawn [] = 0 := rfl

theorem undrawn_cons_of_zero {x : SRV} (h : x.order = 0) (g : List SRV) :
    undrawn (x :: g) = x.weight + undrawn g := by
  simp [undrawn, h]

theorem undrawn_cons_of_ne {x : SRV} (h : x.order ≠ 0) (g : List SRV) :
    undrawn (x :: g) = undrawn g := by
  simp [undrawn, h]

/-- A number below the weight that is left falls on a record that has no number yet. -/
theorem pick_spec {r o w : Nat} {g : List SRV} (hw : w ≤ r) (hr : r < w + undrawn g) :
    ∃ pre y post, g = pre ++ y :: post ∧ y.order = 0 ∧ 0 < y.weight
      ∧ pick r o w g = some (pre ++ { y with order := o } :: post, y.toRecord) := by
  induction g generalizing w with
  | nil => simp at hr; omega
  | cons x xs ih =>
      by_cases hOrder : x.order = 0
      · rw [undrawn_cons_of_zero hOrder] at hr
        by_cases hHere : r < w + x.weight
        · refine ⟨[], x, xs, rfl, hOrder, by omega, ?_⟩
          rw [pick, if_neg (not_not.mpr hOrder), if_pos hHere]
          rfl
        · obtain ⟨pre, y, post, rfl, hy, hPos, hPick⟩ := ih (w := w + x.weight) (by omega) (by omega)
          refine ⟨x :: pre, y, post, rfl, hy, hPos, ?_⟩
          rw [pick, if_neg (not_not.mpr hOrder), if_neg hHere, hPick]
          rfl
      · rw [undrawn_cons_of_ne hOrder] at hr
        obtain ⟨pre, y, post, rfl, hy, hPos, hPick⟩ := ih hw hr
        refine ⟨x :: pre, y, post, rfl, hy, hPos, ?_⟩
        rw [pick, if_pos hOrder, hPick]
        rfl

/-- Records with the numbers 1, 2, … -/
def stamped (picks : List Record) : List SRV := picks.mapIdx fun i x => ⟨x, i + 1⟩

theorem stamped_concat (picks : List Record) (x : Record) :
    stamped (picks ++ [x]) = stamped picks ++ [⟨x, picks.length + 1⟩] := List.mapIdx_concat

/-- The draw in the group `g`, after it has picked `new`. -/
structure Drawing (g : List SRV) (picks : List Record) (d : Draw) (new : List Record) : Prop where
  same : d.group.map SRV.toRecord = g.map SRV.toRecord
  next : d.o = new.length + 1
  left : d.weightSum = undrawn d.group
  picks : d.picks = picks ++ new
  drawn : (d.group.filter (·.order ≠ 0)).Perm (stamped new)
  weight : ∀ x ∈ d.group, x.order ≠ 0 → 0 < x.weight

theorem undrawn_append (g h : List SRV) : undrawn (g ++ h) = undrawn g + undrawn h := by
  simp [undrawn]

/-- A turn picks one more record. -/
theorem Drawing.turn {scale : Nat → Nat → Nat} {g : List SRV} {picks new : List Record} {d : Draw}
    (h : Drawing g picks d new) (hLeft : d.weightSum ≠ 0) :
    ∃ d' x, drawTurn scale d = .inl d' ∧ Drawing g picks d' (new ++ [x])
      ∧ d'.weightSum < d.weightSum := by
  let r := min (scale d.calls d.weightSum) (d.weightSum - 1)
  have hr : r < 0 + undrawn d.group := by
    have hLe : r ≤ d.weightSum - 1 := min_le_right _ _
    have hSum := h.left
    omega
  obtain ⟨pre, y, post, hGroup, hOrder, hPos, hPick⟩ := pick_spec (o := d.o) (Nat.zero_le r) hr
  have hSum : d.weightSum = undrawn pre + (y.weight + undrawn post) := by
    rw [h.left, hGroup, undrawn_append, undrawn_cons_of_zero hOrder]
  have hOne : d.o ≠ 0 := by
    rw [h.next]
    exact Nat.succ_ne_zero _
  refine ⟨⟨pre ++ { y with order := d.o } :: post, d.o + 1, d.weightSum - y.weight, d.calls + 1,
    d.picks ++ [y.toRecord]⟩, y.toRecord, ?_, ?_, ?_⟩
  · rw [drawTurn, if_neg hLeft]
    dsimp only
    rw [hPick]
  · exact {
      same := by
        rw [← h.same, hGroup]
        simp
      next := by rw [List.length_append, h.next, List.length_singleton]
      left := by
        have hRest : undrawn ({ y with order := d.o } :: post) = undrawn post :=
          undrawn_cons_of_ne hOne post
        rw [undrawn_append, hRest]
        dsimp only
        omega
      picks := by rw [h.picks, List.append_assoc]
      drawn := by
        have hDrawn := h.drawn
        rw [hGroup, List.filter_append, List.filter_cons_of_neg (by simpa using hOrder)] at hDrawn
        rw [stamped_concat, List.filter_append, List.filter_cons_of_pos (by simpa using hOne),
          ← h.next]
        exact List.perm_middle.trans ((List.Perm.cons _ hDrawn).trans
          (List.perm_append_singleton _ _).symm)
      weight := by
        intro x hx hNe
        rcases List.mem_append.mp hx with hx | hx
        · exact h.weight x (hGroup ▸ List.mem_append_left _ hx) hNe
        · rcases List.mem_cons.mp hx with rfl | hx
          · exact hPos
          · exact h.weight x (hGroup ▸ List.mem_append_right _ (List.mem_cons_of_mem _ hx)) hNe }
  · dsimp only
    omega

/-- The draw in a group without numbers comes to its end, with a number for each record that has a
weight. -/
theorem draw_total (scale : Nat → Nat → Nat) {g : List SRV} (hg : ∀ x ∈ g, x.order = 0)
    (calls : Nat) (picks : List Record) :
    ∃ d new, loop (drawTurn scale) (undrawn g + 1) ⟨g, 1, undrawn g, calls, picks⟩ = some d
      ∧ Drawing g picks d new ∧ ∀ x ∈ d.group, x.order ≠ 0 ↔ 0 < x.weight := by
  have hStart : Drawing g picks ⟨g, 1, undrawn g, calls, picks⟩ [] := {
    same := rfl
    next := rfl
    left := rfl
    picks := (List.append_nil picks).symm
    drawn := by
      rw [List.filter_eq_nil_iff.mpr fun x hx => by simp [hg x hx]]
      exact List.Perm.refl _
    weight := fun x hx hNe => absurd (hg x hx) hNe }
  obtain ⟨d, hLoop, new, hEnd, hZero⟩ := loop_total (f := drawTurn scale)
    (I := fun d => ∃ new, Drawing g picks d new)
    (Q := fun d => ∃ new, Drawing g picks d new ∧ d.weightSum = 0) Draw.weightSum
    (fun d ⟨new, h⟩ => by
      by_cases hLeft : d.weightSum = 0
      · exact .inl ⟨d, if_pos hLeft, new, h, hLeft⟩
      · obtain ⟨d', x, hTurn, hNext, hLess⟩ := h.turn hLeft
        exact .inr ⟨d', hTurn, ⟨_, hNext⟩, hLess⟩)
    ⟨[], hStart⟩ (Nat.lt_succ_self (undrawn g))
  refine ⟨d, new, hLoop, hEnd, fun x hx => ⟨hEnd.weight x hx, fun hPos hOrder => ?_⟩⟩
  have hLe : x.weight ≤ undrawn d.group :=
    List.le_sum_of_mem (List.mem_map_of_mem (List.mem_filter.mpr ⟨hx, by simpa using hOrder⟩))
  rw [← hEnd.left, hZero] at hLe
  omega

/-! ## All groups -/

/-- What the numbers of the records of priority `p` are in the end: none in the first group, and the
order in which they were drawn elsewhere. -/
structure SettledAt (first : Nat) (srvs : List SRV) (picks : List Record) (p : Nat) : Prop where
  skipped : p = first → (∀ x ∈ srvs, x.priority = p → x.order = 0)
    ∧ picks.filter (fun x => x.priority = p) = []
  drawn : p ≠ first →
    (srvs.filter fun x => x.priority = p && x.order ≠ 0).Perm
      (stamped (picks.filter fun x => x.priority = p))
  weight : p ≠ first → ∀ x ∈ srvs, x.priority = p → (x.order ≠ 0 ↔ 0 < x.weight)

/-- The loop has settled the records `done`, and has found `group` of those after them. -/
structure Grouping (records : List Record) (first : Nat) (s : State)
    (done group rest : List SRV) : Prop where
  srvs : s.srvs = done ++ group ++ rest
  base : s.base = done.length
  scan : s.scan = done.length + group.length
  same : s.srvs.map SRV.toRecord = records
  fresh : ∀ x ∈ group ++ rest, x.order = 0
  priority : ∀ x ∈ group, (x.priority : Int) = s.currPriority
  before : (∀ x ∈ done, (x.priority : Int) < s.currPriority)
    ∧ ∀ x ∈ s.picks, (x.priority : Int) < s.currPriority
  after : ∀ x ∈ rest, s.currPriority ≤ x.priority
  sum : s.weightSum = undrawn group
  settled : ∀ p, SettledAt first done s.picks p
  start : if done = [] then ∀ x ∈ (group ++ rest).head?, x.priority = first
    else (first : Int) < s.currPriority

/-- A group is settled, and nothing else has changed. -/
structure Closed (first : Nat) (s s' : State) (done rest : List SRV) : Prop where
  srvs : s'.srvs = done ++ rest
  scan : s'.scan = s.scan
  length : done.length = s.scan
  same : s'.srvs.map SRV.toRecord = s.srvs.map SRV.toRecord
  before : (∀ x ∈ done, (x.priority : Int) ≤ s.currPriority)
    ∧ ∀ x ∈ s'.picks, (x.priority : Int) ≤ s.currPriority
  settled : ∀ p, SettledAt first done s'.picks p

section
variable {records : List Record} {first : Nat} {s : State}
  {done group rest : List SRV}

theorem filter_priority_eq_nil {l : List SRV} {p : Nat} (h : ∀ x ∈ l, x.priority ≠ p)
    (q : SRV → Bool) : (l.filter fun x => x.priority = p && q x) = [] :=
  List.filter_eq_nil_iff.mpr fun x hx => by simp [h x hx]

theorem filter_record_eq_nil {l : List Record} {p : Nat} (h : ∀ x ∈ l, x.priority ≠ p) :
    l.filter (fun x => x.priority = p) = [] :=
  List.filter_eq_nil_iff.mpr fun x hx => by simp [h x hx]

theorem mem_priority_of_same {l l' : List SRV} (h : l.map SRV.toRecord = l'.map SRV.toRecord)
    {x : SRV} (hx : x ∈ l) : ∃ y ∈ l', y.toRecord = x.toRecord := by
  have hMem : x.toRecord ∈ l'.map SRV.toRecord := h ▸ List.mem_map_of_mem hx
  exact List.mem_map.mp hMem

/-- The first group is left as it is. -/
theorem Grouping.endFirst (scale : Nat → Nat → Nat)
    (h : Grouping records first s [] group rest) :
    ∃ s', endGroup scale s = some s' ∧ Closed first s s' group rest := by
  have hFirst : ∀ x ∈ group, x.priority = first := by
    intro x hx
    cases group with
    | nil => cases hx
    | cons y group =>
        have hHead := h.start y rfl
        have hCurr := h.priority y List.mem_cons_self
        have hx' := h.priority x hx
        omega
  refine ⟨s, if_pos h.base, {
    srvs := h.srvs
    scan := rfl
    length := by rw [h.scan]; exact (Nat.zero_add _).symm
    same := rfl
    before := ⟨fun x hx => (h.priority x hx).le, fun x hx => (h.before.2 x hx).le⟩
    settled := fun p => {
      skipped := fun hp => ⟨fun x hx _ => h.fresh x (List.mem_append_left _ hx),
        ((h.settled p).skipped hp).2⟩
      drawn := fun hp => by
        rw [filter_priority_eq_nil fun x hx hEq => hp (hEq.symm.trans (hFirst x hx))]
        exact (h.settled p).drawn hp
      weight := fun hp x hx hEq => absurd (hEq.symm.trans (hFirst x hx)) hp } }⟩

/-- What the draw adds concerns the priority of the group only. -/
theorem Grouping.settledAt_draw (h : Grouping records first s done group rest)
    (hFirst : (first : Int) < s.currPriority) {drawn : List SRV} {new : List Record}
    (hGroup : ∀ x ∈ drawn, (x.priority : Int) = s.currPriority)
    (hNew : ∀ x ∈ new, (x.priority : Int) = s.currPriority)
    (hDrawn : (drawn.filter (·.order ≠ 0)).Perm (stamped new))
    (hWeight : ∀ x ∈ drawn, x.order ≠ 0 ↔ 0 < x.weight) (p : Nat) :
    SettledAt first (done ++ drawn) (s.picks ++ new) p := by
  have hOld := h.settled p
  constructor
  · intro hp
    obtain ⟨hZero, hNone⟩ := hOld.skipped hp
    constructor
    · intro x hx hEq
      rcases List.mem_append.mp hx with hx | hx
      · exact hZero x hx hEq
      · have hCurr := hGroup x hx
        omega
    · rw [List.filter_append, hNone, filter_record_eq_nil fun x hx => by
        have hCurr := hNew x hx
        omega]
      rfl
  · intro hp
    rw [List.filter_append, List.filter_append]
    by_cases hCurr : (p : Int) = s.currPriority
    · have hDone := filter_priority_eq_nil (l := done) (p := p) (fun x hx hEq => by
        have hLt := h.before.1 x hx
        omega) (·.order ≠ 0)
      have hPicks := filter_record_eq_nil (l := s.picks) (p := p) fun x hx hEq => by
        have hLt := h.before.2 x hx
        omega
      have hAll : drawn.filter (fun x => x.priority = p && x.order ≠ 0)
          = drawn.filter (·.order ≠ 0) := by
        refine List.filter_congr fun x hx => ?_
        have hEq : x.priority = p := by
          have hEq := hGroup x hx
          omega
        simp [hEq]
      have hSelf : new.filter (fun x => x.priority = p) = new := by
        refine List.filter_eq_self.mpr fun x hx => decide_eq_true ?_
        have hEq := hNew x hx
        omega
      rw [hDone, hPicks, hAll, hSelf]
      exact hDrawn
    · have hNone := filter_priority_eq_nil (l := drawn) (p := p) (fun x hx hEq => by
        have hSame := hGroup x hx
        omega) (·.order ≠ 0)
      have hPicks := filter_record_eq_nil (l := new) (p := p) fun x hx hEq => by
        have hSame := hNew x hx
        omega
      rw [hNone, hPicks, List.append_nil, List.append_nil]
      exact hOld.drawn hp
  · intro hp x hx hEq
    rcases List.mem_append.mp hx with hx | hx
    · exact hOld.weight hp x hx hEq
    · exact hWeight x hx

/-- The other groups are drawn. -/
theorem Grouping.endDrawn (scale : Nat → Nat → Nat)
    (h : Grouping records first s done group rest) (hDone : done ≠ []) :
    ∃ s' group', endGroup scale s = some s' ∧ Closed first s s' (done ++ group') rest := by
  have hSlice : (s.srvs.take s.scan).drop s.base = group := by
    rw [h.srvs, h.scan, h.base, ← List.length_append, List.take_left, List.drop_left]
  obtain ⟨d, new, hLoop, hDraw, hWeight⟩ := draw_total scale
    (fun x hx => h.fresh x (List.mem_append_left rest hx)) s.calls s.picks
  have hFirst : (first : Int) < s.currPriority := by
    have hIf := h.start
    rwa [if_neg hDone] at hIf
  have hGroup : ∀ x ∈ d.group, (x.priority : Int) = s.currPriority := by
    intro x hx
    obtain ⟨y, hy, hEq⟩ := mem_priority_of_same hDraw.same hx
    rw [← h.priority y hy, hEq]
  have hNew : ∀ x ∈ new, (x.priority : Int) = s.currPriority := by
    intro x hx
    obtain ⟨i, hi, rfl⟩ := List.getElem_of_mem hx
    have hMem : (⟨new[i], i + 1⟩ : SRV) ∈ stamped new :=
      List.mem_mapIdx.mpr ⟨i, hi, rfl⟩
    exact hGroup _ (List.mem_of_mem_filter (hDraw.drawn.mem_iff.mpr hMem))
  have hBase : s.base ≠ 0 := by
    rw [h.base]
    exact mt List.length_eq_zero_iff.mp hDone
  have hLength : d.group.length = group.length := by
    have hMap := congrArg List.length hDraw.same
    rwa [List.length_map, List.length_map] at hMap
  have hParts : s.srvs.take s.base ++ d.group ++ s.srvs.drop s.scan = done ++ d.group ++ rest := by
    rw [h.srvs, h.scan, h.base, ← List.length_append, List.drop_left, List.append_assoc done,
      List.take_left]
  refine ⟨{ s with
    srvs := s.srvs.take s.base ++ d.group ++ s.srvs.drop s.scan
    weightSum := d.weightSum, calls := d.calls, picks := d.picks }, d.group, ?_, {
      srvs := hParts
      scan := rfl
      length := by rw [List.length_append, hLength, h.scan]
      same := by
        dsimp only
        rw [hParts, h.srvs, List.map_append, List.map_append, hDraw.same, List.map_append,
          List.map_append]
      before := ⟨fun x hx => ?_, fun x hx => ?_⟩
      settled := fun p => by
        dsimp only
        rw [hDraw.picks]
        exact h.settledAt_draw hFirst hGroup hNew hDraw.drawn hWeight p }⟩
  · rw [endGroup, if_neg hBase, hSlice, h.sum, hLoop]
    rfl
  · rcases List.mem_append.mp hx with hx | hx
    · exact (h.before.1 x hx).le
    · exact (hGroup x hx).le
  · dsimp only at hx
    rw [hDraw.picks] at hx
    rcases List.mem_append.mp hx with hx | hx
    · exact (h.before.2 x hx).le
    · exact (hNew x hx).le

theorem Grouping.endGroup (scale : Nat → Nat → Nat)
    (h : Grouping records first s done group rest) :
    ∃ s' done', endGroup scale s = some s' ∧ Closed first s s' done' rest := by
  by_cases hDone : done = []
  · subst hDone
    obtain ⟨s', hEnd, hClosed⟩ := h.endFirst scale
    exact ⟨s', group, hEnd, hClosed⟩
  · obtain ⟨s', group', hEnd, hClosed⟩ := h.endDrawn scale hDone
    exact ⟨s', done ++ group', hEnd, hClosed⟩

/-- Records in the order of their priorities. -/
def Ascending (records : List Record) : Prop := records.Pairwise fun a b => a.priority ≤ b.priority

theorem Grouping.pairwise (h : Grouping records first s done group rest)
    (hSorted : Ascending records) : rest.Pairwise fun a b => a.priority ≤ b.priority := by
  have hAll : s.srvs.Pairwise fun a b => a.priority ≤ b.priority := by
    rw [Ascending, ← h.same, List.pairwise_map] at hSorted
    exact hSorted
  rw [h.srvs] at hAll
  exact (List.pairwise_append.mp hAll).2.1

theorem Grouping.getElem? (h : Grouping records first s done group rest) :
    s.srvs[s.scan]? = rest.head? := by
  rw [h.srvs, h.scan, ← List.length_append, List.getElem?_append_right le_rfl, Nat.sub_self,
    List.head?_eq_getElem?]

/-- The priority of a later record of another group is greater than those before. -/
theorem Grouping.next_start {x : SRV} (h : Grouping records first s done group (x :: rest))
    (hNew : (x.priority : Int) ≠ s.currPriority) {s' : State} {done' : List SRV}
    (hClosed : Closed first s s' done' (x :: rest)) :
    if done' = [] then ∀ y ∈ ([x] ++ rest).head?, y.priority = first
      else (first : Int) < x.priority := by
  have hLe := h.after x List.mem_cons_self
  have hLength : done'.length = done.length + group.length := hClosed.length.trans h.scan
  have hStart := h.start
  cases done with
  | nil =>
      cases group with
      | nil =>
          rw [if_pos (List.length_eq_zero_iff.mp hLength)]
          exact hStart
      | cons y group =>
          have hNe : done' ≠ [] := fun hNil => by simp [hNil] at hLength
          have hFirst : y.priority = first := hStart y rfl
          have hCurr := h.priority y List.mem_cons_self
          rw [if_neg hNe]
          omega
  | cons y done =>
      have hNe : done' ≠ [] := fun hNil => by
        rw [hNil, List.length_cons, List.length_nil] at hLength
        omega
      rw [if_neg (List.cons_ne_nil y done)] at hStart
      rw [if_neg hNe]
      omega

/-- A turn of the loop over the groups. -/
theorem Grouping.turn (scale : Nat → Nat → Nat)
    (h : Grouping records first s done group rest) (hSorted : Ascending records) :
    (∃ r, turn scale s = .inr (some r) ∧ r.srvs.map SRV.toRecord = records
        ∧ ∀ p, SettledAt first r.srvs r.picks p)
      ∨ ∃ s', turn scale s = .inl s' ∧ (∃ done group rest, Grouping records first s' done group rest)
        ∧ s'.srvs.length - s'.scan < s.srvs.length - s.scan := by
  have hGet := h.getElem?
  obtain ⟨s', done', hEnd, hClosed⟩ := h.endGroup scale
  cases rest with
  | nil =>
      refine .inl ⟨s', ?_, hClosed.same.trans h.same, fun p => ?_⟩
      · rw [SrvRecords.turn, hGet]
        exact congrArg Sum.inr hEnd
      · rw [hClosed.srvs, List.append_nil]
        exact hClosed.settled p
  | cons x rest =>
      have hLt : s.scan < s.srvs.length := by
        rw [h.scan, h.srvs, List.length_append, List.length_append, List.length_cons]
        omega
      have hOrder : x.order = 0 := h.fresh x (List.mem_append_right _ List.mem_cons_self)
      have hSum : undrawn [x] = x.weight := undrawn_cons_of_zero hOrder []
      have hLe := h.after x List.mem_cons_self
      have hRest := List.pairwise_cons.mp (h.pairwise hSorted)
      right
      by_cases hNew : (x.priority : Int) ≠ s.currPriority
      · refine ⟨{ s' with base := s'.scan, currPriority := x.priority, weightSum := x.weight
                          scan := s'.scan + 1 }, ?_, ⟨done', [x], rest, ?_⟩, ?_⟩
        · rw [SrvRecords.turn, hGet]
          dsimp only [List.head?_cons]
          rw [if_pos hNew, hEnd]
        · exact {
            srvs := by rw [List.append_assoc]; exact hClosed.srvs
            base := hClosed.scan.trans hClosed.length.symm
            scan := by rw [hClosed.scan, ← hClosed.length]; rfl
            same := hClosed.same.trans h.same
            fresh := fun y hy => h.fresh y (List.mem_append_right _ hy)
            priority := fun y hy => by rw [List.mem_singleton.mp hy]
            before := ⟨fun y hy => by
              have hBefore := hClosed.before.1 y hy
              dsimp only
              omega, fun y hy => by
              have hBefore := hClosed.before.2 y hy
              dsimp only
              omega⟩
            after := fun y hy => Int.ofNat_le.mpr (hRest.1 y hy)
            sum := hSum.symm
            settled := hClosed.settled
            start := h.next_start hNew hClosed }
        · have hLength : s'.srvs.length = s.srvs.length := by
            have hMap := congrArg List.length hClosed.same
            rwa [List.length_map, List.length_map] at hMap
          have hScan := hClosed.scan
          dsimp only
          omega
      · refine ⟨{ s with weightSum := s.weightSum + x.weight, scan := s.scan + 1 }, ?_,
          ⟨done, group ++ [x], rest, ?_⟩, ?_⟩
        · rw [SrvRecords.turn, hGet]
          dsimp only [List.head?_cons]
          rw [if_neg hNew]
        · have hAll : group ++ [x] ++ rest = group ++ x :: rest := List.append_assoc ..
          exact {
            srvs := h.srvs.trans (by simp)
            base := h.base
            scan := by rw [List.length_append, List.length_singleton, h.scan, Nat.add_assoc]
            same := h.same
            fresh := by rw [hAll]; exact h.fresh
            priority := fun y hy => by
              rcases List.mem_append.mp hy with hy | hy
              · exact h.priority y hy
              · rw [List.mem_singleton.mp hy]
                exact not_not.mp hNew
            before := h.before
            after := fun y hy => h.after y (List.mem_cons_of_mem x hy)
            sum := by rw [undrawn_append, hSum, h.sum]
            settled := h.settled
            start := by rw [hAll]; exact h.start }
        · dsimp only
          omega

/-- The loop over the groups comes to its end. -/
theorem numbered_ok (scale : Nat → Nat → Nat) {srvs : List SRV} (hFresh : ∀ x ∈ srvs, x.order = 0)
    (hSorted : Ascending (srvs.map SRV.toRecord)) (hFirst : ∀ x ∈ srvs.head?, x.priority = first) :
    ∃ out picks, numbered scale srvs = some (out, picks)
      ∧ out.map SRV.toRecord = srvs.map SRV.toRecord ∧ ∀ p, SettledAt first out picks p := by
  have hStart : Grouping (srvs.map SRV.toRecord) first ⟨srvs, 0, 0, -1, 0, 0, []⟩ [] [] srvs := {
    srvs := rfl
    base := rfl
    scan := rfl
    same := rfl
    fresh := hFresh
    priority := nofun
    before := ⟨nofun, nofun⟩
    after := fun x _ => by
      dsimp only
      omega
    sum := rfl
    settled := fun p => ⟨fun _ => ⟨nofun, rfl⟩, fun _ => List.Perm.refl _, fun _ => nofun⟩
    start := hFirst }
  obtain ⟨r, hLoop, s, rfl, hSame, hSettled⟩ := loop_total (f := turn scale)
    (I := fun s => ∃ done group rest, Grouping (srvs.map SRV.toRecord) first s done group rest)
    (Q := fun r => ∃ s, r = some s ∧ s.srvs.map SRV.toRecord = srvs.map SRV.toRecord
      ∧ ∀ p, SettledAt first s.srvs s.picks p)
    (fun s => s.srvs.length - s.scan)
    (fun s ⟨_, _, _, h⟩ => by
      rcases h.turn scale hSorted with ⟨r, hTurn, hSame, hSettled⟩ | hNext
      · exact .inl ⟨_, hTurn, r, rfl, hSame, hSettled⟩
      · exact .inr hNext)
    ⟨[], [], srvs, hStart⟩ (Nat.lt_succ_self srvs.length)
  refine ⟨s.srvs, s.picks, ?_, hSame, hSettled⟩
  rw [numbered, hLoop]
  rfl

end

/-! ## The comparison -/

theorem srvCompare_ne_gt {a b : SRV} : srvCompare a b ≠ .gt ↔ a.priority < b.priority ∨
    a.priority = b.priority ∧ (a.order < b.order ∨ a.order = b.order ∧ b.weight ≤ a.weight) := by
  unfold srvCompare
  split_ifs <;> simp <;> omega

theorem srvCompare_swap (a b : SRV) : srvCompare a b = (srvCompare b a).swap := by
  unfold srvCompare
  split_ifs <;> first | rfl | omega

theorem consistent_srvCompare (l : List SRV) : Sorting.Consistent srvCompare l where
  swap := fun a _ b _ => srvCompare_swap a b
  trans := fun a _ b _ c _ => by
    simp only [srvCompare_ne_gt]
    omega

section
variable {sort : (SRV → SRV → Ordering) → List SRV → List SRV} {scale : Nat → Nat → Nat}
  {records : List Record} {first p : Nat} {srvs out : List SRV} {picks : List Record}

/-- The final order, of records with settled numbers. -/
structure Final (records : List Record) (first : Nat) (out : List SRV) (picks : List Record) :
    Prop where
  perm : (out.map SRV.toRecord).Perm records
  sorted : out.Pairwise (srvCompare · · ≠ .gt)
  settled : ∀ p, SettledAt first out picks p

theorem SettledAt.perm (h : SettledAt first srvs picks p) (hPerm : out.Perm srvs) :
    SettledAt first out picks p where
  skipped := fun hp => ⟨fun x hx => (h.skipped hp).1 x (hPerm.mem_iff.mp hx), (h.skipped hp).2⟩
  drawn := fun hp => (hPerm.filter _).trans (h.drawn hp)
  weight := fun hp x hx => h.weight hp x (hPerm.mem_iff.mp hx)

theorem Final.ascending (h : Final records first out picks) :
    out.Pairwise fun a b => a.priority ≤ b.priority :=
  h.sorted.imp fun hLe => by
    rw [srvCompare_ne_gt] at hLe
    omega

theorem stamped_sorted (picks : List Record) : (stamped picks).Pairwise (·.order < ·.order) := by
  rw [List.pairwise_iff_getElem]
  intro i j hi hj hLt
  simp only [stamped, List.getElem_mapIdx]
  omega

theorem map_stamped (picks : List Record) : (stamped picks).map SRV.toRecord = picks := by
  apply List.ext_getElem
  · simp [stamped]
  · simp [stamped]

/-- In the groups that are drawn the records come as they were drawn. -/
theorem Final.weighted_eq (h : Final records first out picks) (hp : p ≠ first) :
    weighted p out = picks.filter fun x => x.priority = p := by
  have hSettled := h.settled p
  have hFilter : (out.filter fun x => x.priority = p && 0 < x.weight)
      = out.filter fun x => x.priority = p && x.order ≠ 0 := by
    refine List.filter_congr fun x hx => ?_
    by_cases hEq : x.priority = p
    · rw [decide_eq_decide.mpr (hSettled.weight hp x hx hEq)]
    · simp [hEq]
  have hDrawn := hSettled.drawn hp
  have hNodup : ((stamped (picks.filter fun x => x.priority = p)).map SRV.order).Nodup := by
    rw [List.Nodup, List.pairwise_map]
    exact (stamped_sorted _).imp fun hLt => Nat.ne_of_lt hLt
  have hSorted : (out.filter fun x => x.priority = p && x.order ≠ 0).Pairwise
      fun a b => compare a.order b.order ≠ .gt := by
    refine (h.sorted.filter _).imp_of_mem fun {a b} ha hb hLe => ?_
    have haPri : a.priority = p :=
      of_decide_eq_true (Bool.and_eq_true_iff.mp (List.mem_filter.mp ha).2).1
    have hbPri : b.priority = p :=
      of_decide_eq_true (Bool.and_eq_true_iff.mp (List.mem_filter.mp hb).2).1
    rw [srvCompare_ne_gt] at hLe
    rw [Nat.compare_ne_gt]
    omega
  have hEq := Sorting.sorted_unique SRV.order hSorted
    ((stamped_sorted _).imp fun hLt => by rw [Nat.compare_ne_gt]; exact hLt.le) hDrawn
    ((hDrawn.map SRV.order).nodup_iff.mpr hNodup)
  rw [weighted, hFilter, hEq, map_stamped]

/-- In the first group the records of positive weight come first. -/
theorem Final.zeros_first (h : Final records first out picks) {a b : SRV}
    (hLe : srvCompare a b ≠ .gt) (ha : a ∈ out) (hb : b ∈ out) (hFirst : a.priority = first)
    (hEq : a.priority = b.priority) (hZero : a.weight = 0) : b.weight = 0 := by
  obtain ⟨hNone, -⟩ := (h.settled first).skipped rfl
  have hOrder := hNone a ha hFirst
  have hOrder' := hNone b hb (hEq.symm.trans hFirst)
  rw [srvCompare_ne_gt] at hLe
  omega

/-- The records of a priority are the same before and after. -/
theorem Final.length_weighted (h : Final records first out picks) :
    (weighted p out).length
      = (records.filter fun x => x.priority = p && 0 < x.weight).length := by
  rw [← (h.perm.filter _).length_eq, weighted, List.length_map, List.filter_map, List.length_map]
  rfl

theorem Final.exists_mem (h : Final records first out picks) {x : Record} (hx : x ∈ records) :
    ∃ y ∈ out, y.toRecord = x := List.mem_map.mp (h.perm.mem_iff.mpr hx)

theorem Final.mem_records (h : Final records first out picks) {x : SRV} (hx : x ∈ out) :
    x.toRecord ∈ records := h.perm.mem_iff.mp (List.mem_map_of_mem hx)

/-- The priority of the first group. -/
structure IsFirst (records : List Record) (first : Nat) : Prop where
  le : ∀ x ∈ records, first ≤ x.priority
  mem : records ≠ [] → ∃ x ∈ records, x.priority = first

/-- A group that is drawn and has records of weight 0 and others begins with the former. -/
theorem Final.zero_or_pos (h : Final records first out picks)
    (hZeros : out.Pairwise fun a b => a.priority = b.priority → a.weight = 0 → b.weight = 0)
    (hp : p ≠ first) :
    (∀ x ∈ records, x.priority = p → x.weight = 0) ∨ ∀ x ∈ records, x.priority = p → 0 < x.weight := by
  by_contra hNot
  push Not at hNot
  obtain ⟨⟨x, hx, hxPri, hxWeight⟩, y, hy, hyPri, hyWeight⟩ := hNot
  obtain ⟨a, ha, rfl⟩ := h.exists_mem hx
  obtain ⟨b, hb, rfl⟩ := h.exists_mem hy
  have haOrder := (h.settled p).weight hp a ha hxPri
  have hbOrder := (h.settled p).weight hp b hb hyPri
  -- of the two, in whichever order they are
  let Either (a b : SRV) : Prop :=
    (srvCompare a b ≠ .gt ∧ (a.priority = b.priority → a.weight = 0 → b.weight = 0))
      ∨ (srvCompare b a ≠ .gt ∧ (b.priority = a.priority → b.weight = 0 → a.weight = 0))
  have hEither : Std.Symm Either := ⟨fun _ _ => Or.symm⟩
  have hBoth : out.Pairwise Either := (h.sorted.and hZeros).imp .inl
  have hNe : a ≠ b := fun hEq => by
    rw [hEq] at hxWeight
    omega
  have hOne : Either a b := hBoth.forall ha hb hNe
  simp only [Either, srvCompare_ne_gt] at hOne
  omega

theorem Final.ordered_iff_plain (h : Final records first out picks) (hFirst : IsFirst records first) :
    Ordered records out picks ↔ Plain records := by
  constructor
  · intro hOrdered p
    constructor
    · intro hLeast
      rw [← h.length_weighted]
      by_contra hMany
      by_cases hp : p = first
      · have hDrawn := hOrdered.drawn p (not_le.mp hMany)
        rw [((h.settled p).skipped hp).2] at hDrawn
        rw [hDrawn] at hMany
        exact hMany (Nat.zero_le 1)
      · have hPos : 0 < (weighted p out).length := by omega
        obtain ⟨x, hx⟩ := List.exists_mem_of_length_pos hPos
        obtain ⟨a, ha, rfl⟩ := List.mem_map.mp hx
        obtain ⟨haOut, haFilter⟩ := List.mem_filter.mp ha
        have haPri : a.priority = p := of_decide_eq_true (Bool.and_eq_true_iff.mp haFilter).1
        have haLe := hFirst.le _ (h.mem_records haOut)
        obtain ⟨y, hy, hyFirst⟩ := hFirst.mem (List.ne_nil_of_mem (h.mem_records haOut))
        have hyLe := hLeast y hy
        omega
    · rintro ⟨x, hx, hLt⟩
      have hLe := hFirst.le x hx
      exact h.zero_or_pos hOrdered.zeros (by omega)
  · intro hPlain
    refine ⟨h.perm, h.ascending, fun p hMany => ?_, h.sorted.imp_of_mem fun {a b} ha hb hLe hEq hZero => ?_⟩
    · by_cases hp : p = first
      · rw [h.length_weighted] at hMany
        exact absurd ((hPlain p).1 fun x hx => hp ▸ hFirst.le x hx) (not_le.mpr hMany)
      · exact h.weighted_eq hp
    · by_cases hp : a.priority = first
      · exact h.zeros_first hLe ha hb hp hEq hZero
      · obtain ⟨x, hx, hxFirst⟩ := hFirst.mem (List.ne_nil_of_mem (h.mem_records ha))
        have hLt : x.priority < a.priority := by
          have hLe := hFirst.le _ (h.mem_records ha)
          rw [hxFirst]
          exact lt_of_le_of_ne hLe (Ne.symm hp)
        rcases (hPlain a.priority).2 ⟨x, hx, hLt⟩ with hAll | hAll
        · exact hAll _ (h.mem_records hb) hEq.symm
        · exact absurd hZero (hAll _ (h.mem_records ha) rfl).ne'

theorem exists_first (hPerm : (srvs.map SRV.toRecord).Perm records)
    (hSorted : srvs.Pairwise fun a b => a.priority ≤ b.priority) :
    ∃ first, (∀ x ∈ srvs.head?, x.priority = first) ∧ IsFirst records first := by
  cases srvs with
  | nil =>
      obtain rfl : records = [] := hPerm.symm.eq_nil
      exact ⟨0, nofun, nofun, fun hNe => absurd rfl hNe⟩
  | cons y srvs =>
      have hMem : y.toRecord ∈ records := hPerm.mem_iff.mp List.mem_cons_self
      refine ⟨y.priority, fun x hx => by rw [← Option.some.inj hx], fun x hx => ?_,
        fun _ => ⟨_, hMem, rfl⟩⟩
      obtain ⟨z, hz, rfl⟩ := List.mem_map.mp (hPerm.mem_iff.mpr hx)
      rcases List.mem_cons.mp hz with rfl | hz
      · exact le_rfl
      · exact (List.pairwise_cons.mp hSorted).1 z hz

/-- The loops come to their end, and the result is as `Final` says. -/
theorem randomize_final (scale : Nat → Nat → Nat) (hSort : QSorts sort) (records : List Record) :
    ∃ out picks first, randomize sort scale records = some (out, picks)
      ∧ Final records first out picks ∧ IsFirst records first := by
  let srvs := sort srvCompare (records.map (SRV.mk · 0))
  have hPerm : (srvs.map SRV.toRecord).Perm records := by
    have hMap := (hSort.perm srvCompare (records.map (SRV.mk · 0))).map SRV.toRecord
    rwa [List.map_map, show SRV.toRecord ∘ (SRV.mk · 0) = id from rfl, List.map_id] at hMap
  have hFresh : ∀ x ∈ srvs, x.order = 0 := by
    intro x hx
    obtain ⟨y, -, rfl⟩ := List.mem_map.mp ((hSort.perm srvCompare _).mem_iff.mp hx)
    rfl
  have hSorted : srvs.Pairwise fun a b => a.priority ≤ b.priority :=
    (hSort.sorted srvCompare _ (consistent_srvCompare _)).imp fun hLe => by
      rw [srvCompare_ne_gt] at hLe
      omega
  obtain ⟨first, hHead, hFirst⟩ := exists_first hPerm hSorted
  obtain ⟨out, picks, hNumbered, hSame, hSettled⟩ := numbered_ok scale hFresh
    (List.pairwise_map.mpr hSorted) hHead
  have hOut := hSort.perm srvCompare out
  refine ⟨sort srvCompare out, picks, first, ?_, ?_, hFirst⟩
  · rw [randomize, hNumbered]
    rfl
  · exact {
      perm := (hOut.map SRV.toRecord).trans (hSame ▸ hPerm)
      sorted := hSort.sorted srvCompare out (consistent_srvCompare out)
      settled := fun p => (hSettled p).perm hOut }

/-- Whatever is drawn, the loops come to their end, and the records are in the order that was drawn
exactly when the groups are plain. -/
theorem ordered_iff (hSort : QSorts sort) (scale : Nat → Nat → Nat) (records : List Record) :
    (∃ out picks, randomize sort scale records = some (out, picks) ∧ Ordered records out picks)
      ↔ Plain records := by
  obtain ⟨out, picks, first, hEq, hFinal, hFirst⟩ := randomize_final scale hSort records
  rw [← hFinal.ordered_iff_plain hFirst]
  constructor
  · rintro ⟨out', picks', hEq', hOrdered⟩
    obtain ⟨rfl, rfl⟩ := Prod.mk.inj (Option.some.inj (hEq.symm.trans hEq'))
    exact hOrdered
  · exact fun hOrdered => ⟨out, picks, hEq, hOrdered⟩

/-- Two servers of one priority. -/
def twoServers : List Record := [⟨[97], 21, 10, 1⟩, ⟨[98], 21, 10, 3⟩]

theorem ordered_twoServers :
    (∃ out picks, randomize Sorting.insertionSorted (fun _ n => n / 2) twoServers
        = some (out, picks) ∧ Ordered twoServers out picks) ↔ Plain twoServers :=
  ordered_iff Sorting.qsorts_insertionSorted (fun _ n => n / 2) twoServers

/-- Nothing is drawn for them. -/
theorem not_ordered :
    ¬ ∀ (sort : (SRV → SRV → Ordering) → List SRV → List SRV) (scale : Nat → Nat → Nat)
      (records : List Record), QSorts sort →
        ∃ out picks, randomize sort scale records = some (out, picks)
          ∧ Ordered records out picks := by
  intro h
  obtain ⟨out, picks, hEq, hOrdered⟩ := h _ (fun _ n => n / 2) twoServers
    Sorting.qsorts_insertionSorted
  have hRun : randomize Sorting.insertionSorted (fun _ n => n / 2) twoServers
      = some ([⟨⟨[98], 21, 10, 3⟩, 0⟩, ⟨⟨[97], 21, 10, 1⟩, 0⟩], []) := by decide
  obtain ⟨rfl, rfl⟩ := Prod.mk.inj (Option.some.inj (hRun.symm.trans hEq))
  exact absurd (hOrdered.drawn 10 (by decide)) (by decide)

end

end Lftp.Ports.SrvRecords
