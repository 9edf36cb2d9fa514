import Lftp.Verified.Decimal
import Lftp.Verified.Loop
import Mathlib.Data.List.Nodup

/-!
# Pattern sets

A `PatternSet` is a singly linked list of rules. `chain` is the rule that was added last, and
`first` should be the one at the other end. The links are numbered in the order in which they
were made.

`Op.rules` is the order in which the rules are to be consulted, and `verdict` what they say of a
string. `run_keeps_iff` says when a sequence of calls leads to a set that does this: `AddFirst`
does not move `first`, so the second one drops what the one before has added.
-/

namespace Lftp.Ports.Patterns

open Lftp.Verified

inductive PatternType
  | exclude
  | include
  deriving DecidableEq

def PatternType.opposite : PatternType → PatternType
  | .exclude => .include
  | .include => .exclude

/-- `α` is what a pattern may be. -/
structure PatternLink (α : Type) where
  type : PatternType
  pattern : α
  next : Option Nat

/-- `links` has all links that were ever made. -/
structure PatternSet (α : Type) where
  links : List (PatternLink α)
  chain : Option Nat
  first : Option Nat

variable {α β : Type}

namespace PatternSet

def empty : PatternSet α := ⟨[], none, none⟩

def add (s : PatternSet α) (t : PatternType) (p : α) : PatternSet α :=
  let chain := some s.links.length
  { links := s.links ++ [⟨t, p, s.chain⟩]
    chain := chain
    first := if s.first = none then chain else s.first }

def addFirst (s : PatternSet α) (t : PatternType) (p : α) : PatternSet α :=
  let newLink := some s.links.length
  let links := s.links ++ [⟨t, p, none⟩]
  match s.first with
  | none => ⟨links, newLink, newLink⟩
  | some first => { s with links := links.modify first fun l => { l with next := newLink } }

/-- One turn of the loop in `Match`, at the link `scan`. -/
def matchTurn (s : PatternSet α) (m : α → β → Bool) (type : PatternType) (str : β) :
    Option Nat → Option Nat ⊕ Bool
  | none => .inr false
  | some scan =>
    match s.links[scan]? with
    | none => .inr false
    | some l =>
      if m l.pattern str then .inr (l.type = type)
      else if l.next = none then .inr (l.type ≠ type)
      else .inl l.next

/-- `Match`, where `m` says whether a pattern matches a string. -/
def match_ (s : PatternSet α) (m : α → β → Bool) (type : PatternType) (str : β) : Option Bool :=
  loop (s.matchTurn m type str) (s.links.length + 1) s.chain

end PatternSet

/-! ## What the set is for -/

inductive Op (α : Type)
  | add (type : PatternType) (pattern : α)
  | addFirst (type : PatternType) (pattern : α)

abbrev Rule (α : Type) := PatternType × α

/-- The rules in the order in which they are consulted, after one more call. -/
def Op.rules (rules : List (Rule α)) : Op α → List (Rule α)
  | .add t p => (t, p) :: rules
  | .addFirst t p => rules ++ [(t, p)]

/-- The type of the first rule that matches, or the opposite of the last one's. -/
def verdict (m : α → β → Bool) (str : β) : List (Rule α) → Option PatternType
  | [] => none
  | [r] => some (if m r.2 str then r.1 else r.1.opposite)
  | r :: rules => if m r.2 str then some r.1 else verdict m str rules

def Op.act (s : PatternSet α) : Op α → PatternSet α
  | .add t p => s.add t p
  | .addFirst t p => s.addFirst t p

def run (ops : List (Op α)) : PatternSet α := ops.foldl Op.act .empty

def rules (ops : List (Op α)) : List (Rule α) := ops.foldl Op.rules []

/-- From `start` the links have these rules. -/
def Chained (links : List (PatternLink α)) : Option Nat → List (Rule α) → Prop
  | start, [] => start = none
  | start, r :: rules =>
    ∃ i l, start = some i ∧ links[i]? = some l ∧ (l.type, l.pattern) = r
      ∧ Chained links l.next rules

/-- The set has the rules that it should have, and matches by them. -/
structure Keeps (rules : List (Rule α)) (s : PatternSet α) : Prop where
  chained : Chained s.links s.chain rules
  matches_ : ∀ (β : Type) (m : α → β → Bool) (type : PatternType) (str : β),
    ∃ answer, s.match_ m type str = some answer
      ∧ ∀ v, verdict m str rules = some v → (answer = true ↔ v = type)

def Op.isFirst : Op α → Bool
  | .add _ _ => false
  | .addFirst _ _ => true

/-- How many calls of `AddFirst` find the set non-empty. -/
def laterFirsts (ops : List (Op α)) : Nat := ops.tail.countP Op.isFirst

/-! ## Links -/

def PatternLink.rule (l : PatternLink α) : Rule α := (l.type, l.pattern)

/-- From `start` the links have these rules, up to `stop` and without the link `f`. -/
def Segment (links : List (PatternLink α)) (f : Nat) :
    Option Nat → List (Rule α) → Option Nat → Prop
  | start, [], stop => start = stop
  | start, r :: rules, stop =>
    ∃ i l, start = some i ∧ i ≠ f ∧ links[i]? = some l ∧ l.rule = r
      ∧ Segment links f l.next rules stop

variable {links links' : List (PatternLink α)} {f : Nat} {start stop : Option Nat}
  {upper rest : List (Rule α)}

/-- A segment is read from the links other than `f`. -/
theorem Segment.congr (h : Segment links f start upper stop)
    (hLinks : ∀ i l, i ≠ f → links[i]? = some l → links'[i]? = some l) :
    Segment links' f start upper stop := by
  induction upper generalizing start with
  | nil => exact h
  | cons r upper ih =>
      obtain ⟨i, l, hStart, hNe, hGet, hRule, hNext⟩ := h
      exact ⟨i, l, hStart, hNe, hLinks i l hNe hGet, hRule, ih hNext⟩

/-- What follows a segment. -/
theorem Segment.chained (h : Segment links f start upper stop) (hRest : Chained links stop rest) :
    Chained links start (upper ++ rest) := by
  induction upper generalizing start with
  | nil =>
      have hEq : start = stop := h
      rw [hEq]
      exact hRest
  | cons r upper ih =>
      obtain ⟨i, l, hStart, -, hGet, hRule, hNext⟩ := h
      exact ⟨i, l, hStart, hGet, hRule, ih hNext⟩

/-- The rules from a link on are determined. -/
theorem Chained.unique {r r' : List (Rule α)} (h : Chained links start r)
    (h' : Chained links start r') : r = r' := by
  induction r generalizing start r' with
  | nil =>
      cases r' with
      | nil => rfl
      | cons x r' =>
          obtain ⟨i, l, hStart, -⟩ := h'
          have hNone : start = none := h
          rw [hNone] at hStart
          cases hStart
  | cons x r ih =>
      obtain ⟨i, l, hStart, hGet, hRule, hNext⟩ := h
      cases r' with
      | nil =>
          have hNone : start = none := h'
          rw [hNone] at hStart
          cases hStart
      | cons x' r' =>
          obtain ⟨i', l', hStart', hGet', hRule', hNext'⟩ := h'
          have hi : i = i' := Option.some.inj (hStart.symm.trans hStart')
          subst hi
          have hl : l = l' := Option.some.inj (hGet.symm.trans hGet')
          subst hl
          rw [← hRule, ← hRule', ih hNext hNext']

/-- The loop in `Match` ends and answers by the rules it finds. -/
theorem matchTurn_loop {s : PatternSet α} {r : List (Rule α)} (h : Chained s.links start r)
    (m : α → β → Bool) (type : PatternType) (str : β) {n : Nat} (hn : r.length < n) :
    ∃ answer, loop (s.matchTurn m type str) n start = some answer
      ∧ ∀ v, verdict m str r = some v → (answer = true ↔ v = type) := by
  induction r generalizing start n with
  | nil =>
      have hNone : start = none := h
      obtain ⟨n, rfl⟩ := Nat.exists_eq_add_one_of_ne_zero (Nat.ne_of_gt hn)
      rw [hNone]
      exact ⟨false, loop_inr rfl n, fun v hv => nomatch hv⟩
  | cons x r ih =>
      obtain ⟨i, l, hStart, hGet, hRule, hNext⟩ := h
      obtain ⟨n, rfl⟩ := Nat.exists_eq_add_one_of_ne_zero (Nat.ne_of_gt (Nat.zero_lt_of_lt hn))
      have hTurn : s.matchTurn m type str start = if m x.2 str then .inr (x.1 = type : Bool)
          else if l.next = none then .inr (x.1 ≠ type : Bool) else .inl l.next := by
        rw [hStart, ← hRule]
        simp only [PatternSet.matchTurn, hGet]
      cases hm : m x.2 str with
      | true =>
          rw [hm, if_pos rfl] at hTurn
          refine ⟨_, loop_inr hTurn n, fun v hv => ?_⟩
          have hv' : v = x.1 := by
            cases r with
            | nil => simpa [verdict, hm] using hv.symm
            | cons y r => simpa [verdict, hm] using hv.symm
          rw [hv', decide_eq_true_eq]
      | false =>
          rw [hm, if_neg Bool.false_ne_true] at hTurn
          cases r with
          | nil =>
              have hLast : l.next = none := hNext
              rw [if_pos hLast] at hTurn
              refine ⟨_, loop_inr hTurn n, fun v hv => ?_⟩
              have hv' : v = x.1.opposite := by simpa [verdict, hm] using hv.symm
              rw [hv', decide_eq_true_eq]
              cases x.1 <;> cases type <;> decide
          | cons y r =>
              obtain ⟨j, k, hj, -⟩ := id hNext
              rw [if_neg (by rw [hj]; exact nofun)] at hTurn
              obtain ⟨answer, hLoop, hAnswer⟩ := ih hNext (n := n) (by simpa using hn)
              refine ⟨answer, (loop_inl hTurn n).trans hLoop, fun v hv => hAnswer v ?_⟩
              simpa [verdict, hm] using hv

/-! ## Runs -/

/-- The rules are `upper`, then that of the link `first`, then `later`; of these the set has the
last one. -/
structure Shape (s : PatternSet α) (upper : List (Rule α)) (b : Rule α)
    (later : List (Rule α)) : Prop where
  count : s.links.length = upper.length + 1 + later.length
  chain : ∃ f l, s.first = some f ∧ Segment s.links f s.chain upper (some f)
    ∧ s.links[f]? = some l ∧ l.rule = b ∧ Chained s.links l.next later.getLast?.toList

theorem getElem?_append_new (links : List (PatternLink α)) (x : PatternLink α) {i : Nat}
    {l : PatternLink α} (h : links[i]? = some l) : (links ++ [x])[i]? = some l := by
  rw [List.getElem?_append_left (List.getElem?_eq_some_iff.mp h).1]
  exact h

theorem Chained.append (h : Chained links start rest) (x : PatternLink α) :
    Chained (links ++ [x]) start rest := by
  induction rest generalizing start with
  | nil => exact h
  | cons r rest ih =>
      obtain ⟨i, l, hStart, hGet, hRule, hNext⟩ := h
      exact ⟨i, l, hStart, getElem?_append_new links x hGet, hRule, ih hNext⟩

variable {s : PatternSet α} {b : Rule α} {later : List (Rule α)} {t : PatternType} {p : α}

/-- A rule that is added comes before all others. -/
theorem Shape.add (h : Shape s upper b later) : Shape (s.add t p) ((t, p) :: upper) b later := by
  obtain ⟨f, l, hFirst, hSegment, hGet, hRule, hLater⟩ := h.chain
  have hf : f < s.links.length := (List.getElem?_eq_some_iff.mp hGet).1
  have hNew : (s.add t p).first = some f := by
    show (if s.first = none then some s.links.length else s.first) = some f
    rw [hFirst, if_neg nofun]
  refine ⟨?_, f, l, hNew, ?_, getElem?_append_new _ _ hGet, hRule, hLater.append _⟩
  · show (s.links ++ [_]).length = _
    rw [List.length_append, h.count]
    simp only [List.length_cons, List.length_nil]
    omega
  · refine ⟨s.links.length, _, rfl, Nat.ne_of_gt hf, List.getElem?_concat_length, rfl, ?_⟩
    exact hSegment.congr fun i k _ hk => getElem?_append_new _ _ hk

/-- `AddFirst` puts its rule in the place of the one that the call before has added. -/
theorem Shape.addFirst (h : Shape s upper b later) :
    Shape (s.addFirst t p) upper b (later ++ [(t, p)]) := by
  obtain ⟨f, l, hFirst, hSegment, hGet, hRule, hLater⟩ := h.chain
  have hf : f < s.links.length := (List.getElem?_eq_some_iff.mp hGet).1
  have hSet : s.addFirst t p = { s with
      links := (s.links ++ [PatternLink.mk t p none]).modify f
        fun l => { l with next := some s.links.length } } := by
    simp only [PatternSet.addFirst, hFirst]
  have hOther : ∀ i k, i ≠ f → (s.links ++ [PatternLink.mk t p none])[i]? = some k →
      (s.addFirst t p).links[i]? = some k := by
    intro i k hi hk
    rw [hSet]
    show (List.modify _ f _)[i]? = _
    rw [List.getElem?_modify_ne _ _ (Ne.symm hi)]
    exact hk
  refine ⟨?_, f, { l with next := some s.links.length }, ?_, ?_, ?_, hRule, ?_⟩
  · rw [hSet]
    show (List.modify _ f _).length = _
    rw [List.length_modify, List.length_append, h.count, List.length_append]
    simp only [List.length_cons, List.length_nil]
    omega
  · rw [hSet]
    exact hFirst
  · have hChain : (s.addFirst t p).chain = s.chain := by rw [hSet]
    rw [hChain]
    exact hSegment.congr fun i k hi hk => hOther i k hi (getElem?_append_new _ _ hk)
  · rw [hSet]
    show (List.modify _ f _)[f]? = _
    rw [List.getElem?_modify_eq, getElem?_append_new _ _ hGet]
    rfl
  · rw [List.getLast?_concat]
    exact ⟨_, _, rfl, hOther _ _ (Nat.ne_of_gt hf) List.getElem?_concat_length, rfl, rfl⟩

/-- What the calls make of a set with a first rule. -/
theorem foldl_shape (ops : List (Op α)) (h : Shape s upper b later) :
    ∃ upper' later', ops.foldl Op.rules (upper ++ b :: later) = upper' ++ b :: later'
      ∧ later'.length = later.length + ops.countP Op.isFirst
      ∧ Shape (ops.foldl Op.act s) upper' b later' := by
  induction ops generalizing s upper later with
  | nil => exact ⟨upper, later, rfl, rfl, h⟩
  | cons op ops ih =>
      cases op with
      | add t p =>
          obtain ⟨upper', later', hRules, hLength, hShape⟩ := ih (h.add (t := t) (p := p))
          exact ⟨upper', later', hRules, hLength, hShape⟩
      | addFirst t p =>
          obtain ⟨upper', later', hRules, hLength, hShape⟩ := ih (h.addFirst (t := t) (p := p))
          refine ⟨upper', later', ?_, ?_, hShape⟩
          · rw [← hRules]
            simp [Op.rules]
          · rw [hLength, List.length_append, List.countP_cons_of_pos rfl]
            simp only [List.length_cons, List.length_nil]
            omega

/-- The first rule that is added and those that `AddFirst` adds later. -/
theorem run_shape (op : Op α) (ops : List (Op α)) :
    ∃ upper b later, rules (op :: ops) = upper ++ b :: later
      ∧ later.length = laterFirsts (op :: ops) ∧ Shape (run (op :: ops)) upper b later := by
  have hOne : ∃ b, op.rules [] = [b] ∧ Shape (op.act PatternSet.empty) [] b [] := by
    cases op with
    | add t p => exact ⟨(t, p), rfl, rfl, 0, ⟨t, p, none⟩, rfl, rfl, rfl, rfl, rfl⟩
    | addFirst t p => exact ⟨(t, p), rfl, rfl, 0, ⟨t, p, none⟩, rfl, rfl, rfl, rfl, rfl⟩
  obtain ⟨b, hRules, hShape⟩ := hOne
  obtain ⟨upper, later, hAll, hLength, hEnd⟩ := foldl_shape ops hShape
  refine ⟨upper, b, later, ?_, ?_, hEnd⟩
  · rw [← hAll, rules, List.foldl_cons, hRules]
    rfl
  · rw [hLength, List.length_nil, Nat.zero_add]
    rfl

/-- What the set has of the rules. -/
theorem Shape.chained (h : Shape s upper b later) :
    Chained s.links s.chain (upper ++ b :: later.getLast?.toList) := by
  obtain ⟨f, l, -, hSegment, hGet, hRule, hLater⟩ := h.chain
  exact hSegment.chained ⟨f, l, rfl, hGet, hRule, hLater⟩

theorem Shape.keeps (h : Shape s upper b later)
    (hLater : later.getLast?.toList = later) : Keeps (upper ++ b :: later) s := by
  have hChained := h.chained
  rw [hLater] at hChained
  refine ⟨hChained, fun β m type str => ?_⟩
  apply matchTurn_loop hChained
  rw [h.count, List.length_append, List.length_cons]
  omega

/-- A set keeps its rules, and matches by them, exactly when `AddFirst` is called at most once on
a set that is not empty. -/
theorem run_keeps_iff (ops : List (Op α)) :
    Keeps (rules ops) (run ops) ↔ laterFirsts ops ≤ 1 := by
  cases ops with
  | nil =>
      refine iff_of_true ⟨rfl, fun β m type str => ?_⟩ (Nat.zero_le _)
      exact ⟨false, rfl, fun v hv => nomatch hv⟩
  | cons op ops =>
      obtain ⟨upper, b, later, hRules, hLength, hShape⟩ := run_shape op ops
      rw [hRules, ← hLength]
      constructor
      · intro h
        have hSame := hShape.chained.unique h.chained
        have hLater : later.getLast?.toList = later := by simpa using hSame
        rw [← hLater]
        cases later.getLast? <;> simp
      · intro h
        apply hShape.keeps
        rcases later with _ | ⟨r, _ | ⟨r', later⟩⟩
        · rfl
        · rfl
        · simp at h

/-- A set with one rule and two more in front of it. -/
def twoFirsts : List (Op Bytes) :=
  [.add .exclude (bytes "*.o"), .addFirst .include (bytes "*/"), .addFirst .include (bytes "a*")]

/-- The second rule is lost. -/
theorem not_run_keeps : ¬ Keeps (rules twoFirsts) (run twoFirsts) := by
  intro h
  have hChained : Chained (run twoFirsts).links (run twoFirsts).chain
      [(.exclude, bytes "*.o"), (.include, bytes "a*")] :=
    ⟨0, _, rfl, rfl, rfl, 2, _, rfl, rfl, rfl, rfl⟩
  have hSame := hChained.unique h.chained
  exact absurd hSame (by decide)

end Lftp.Ports.Patterns
