import Lftp.Ports.JobForest

/-!
# Signals in the forest of jobs

`AcceptSig` passes a signal on to the awaited jobs. A job that answers `wantDie` is
deleted by the one that waits for it; `Job::AcceptSig` first takes over what it waits
for itself. Two classes have a loop of their own, the others answer without a look at
the forest. What a job of these answers is left to the environment.

`Within j s t` says what a signal sent to `j` may change: something below `j` only.
-/

namespace Lftp.Ports.Job

open Lftp.Verified Relation
open Function (update update_self update_of_ne update_eq_self)

inductive Answer
  | stall
  | moved
  | wantDie
  deriving DecidableEq, Repr

inductive Sig
  | int
  | term
  | other
  deriving DecidableEq, Repr

/-- `sig==SIGINT || sig==SIGTERM` -/
def Sig.ends : Sig → Bool
  | .int => true
  | .term => true
  | .other => false

/-- What a job answers for itself, by the number of signals it was sent before. -/
structure Env where
  answer : Nat → Nat → Sig → Answer

namespace Forest

/-! ## Operations -/

/-- `waiting[i]` -/
def awaitedAt (s : Forest) (j i : Nat) : Except Fault Nat :=
  match (s.waiting j)[i]? with
  | none => .error .index
  | some w => .ok w

/-- What `w` waits for is awaited by `j` from now on. The loop of the source takes the
first one as long as there is one; `w` is not `j`. -/
def inherit (s : Forest) (j w : Nat) : Except Fault Forest :=
  (s.waiting w).foldlM (fun s x => (s.removeWaiting w x).addWaiting j x) s

/-- `RemoveWaiting(w); Delete(w);` -/
def drop (s : Forest) (j w : Nat) : Except Fault Forest :=
  (s.removeWaiting j w).deleteLater w

variable (ask : Forest → Nat → Except Fault (Answer × Forest))

/-- One turn of the loop of `Job::AcceptSig`. -/
def jobTurn (j : Nat) : Nat × Forest → Except Fault ((Nat × Forest) ⊕ (Answer × Forest))
  | (i, s) =>
    match (s.waiting j)[i]? with
    | none => .ok (.inr (.wantDie, s))
    | some w =>
      if w = j then .ok (.inl (i + 1, s))
      else do
        let (res, s) ← ask s w
        if res = .wantDie then
          let w ← s.awaitedAt j i
          let s ← s.inherit j w
          let s ← s.drop j w
          return .inl (i, s)
        else return .inl (i + 1, s)

/-- One turn of the loop of `CmdExec::AcceptSig`. -/
def cmdExecTurn (j : Nat) :
    Nat × Nat × Forest → Except Fault ((Nat × Nat × Forest) ⊕ Forest)
  | (i, limit, s) =>
    if i < limit then do
      let r ← s.awaitedAt j i
      let (res, s) ← ask s r
      if res = .wantDie then
        let s ← s.drop j r
        return .inl (i, limit - 1, s)
      else return .inl (i + 1, limit, s)
    else .ok (.inr s)

/-- One turn of the loop of `CopyJobEnv::AcceptSig`, which goes on with `i + 1` also
when `waiting[i]` is gone. -/
def copyJobEnvTurn (j : Nat) :
    Nat × Answer × Forest → Except Fault ((Nat × Answer × Forest) ⊕ (Answer × Forest))
  | (i, total, s) =>
    match (s.waiting j)[i]? with
    | none => .ok (.inr (total, s))
    | some w => do
      let (res, s) ← ask s w
      match res with
      | .wantDie =>
          let s ← s.drop j w
          let s := if s.cp j = some w then { s with cp := update s.cp j none } else s
          return .inl (i + 1, total, s)
      | .moved => return .inl (i + 1, .moved, s)
      | .stall => return .inl (i + 1, if total = .wantDie then .moved else total, s)

/-- `AcceptSig` of the four kinds of classes, with `ask` for that of an awaited job. -/
def acceptSigBy (env : Env) (s : Forest) (j : Nat) (sig : Sig) :
    Except Fault (Answer × Forest) :=
  match s.kind j with
  | .job => loopOr .outOfFuel (jobTurn ask j) (s.allJobs.length + 1) (0, s)
  | .cmdExec =>
    if !sig.ends then .ok (.stall, s)
    else if s.builtin j then .ok (.moved, { s with builtin := update s.builtin j false })
    else if s.waiting j ≠ [] then do
      let s ← loopOr .outOfFuel (cmdExecTurn ask j) (s.allJobs.length + 1)
        (0, (s.waiting j).length, s)
      if s.waiting j = [] ∧ s.parent j ≠ none then return (.wantDie, s)
      else return (.moved, s)
    else if s.parent j ≠ none then .ok (.wantDie, s)
    else .ok (.stall, s)
  | .copyJobEnv =>
    if s.cp j = none then .ok (if sig.ends then .wantDie else .stall, s)
    else do
      let (total, s) ← loopOr .outOfFuel (copyJobEnvTurn ask j) (s.allJobs.length + 1)
        (0, if sig.ends then .wantDie else .stall, s)
      if s.cp j = none then return (total, { s with cp := update s.cp j (s.waiting j).head? })
      else return (total, s)
  | .other =>
    .ok (env.answer j (s.asked j) sig, { s with asked := update s.asked j (s.asked j + 1) })

/-- `AcceptSig` with a bound on how deep it may go. -/
def acceptSigN (env : Env) (sig : Sig) : Nat → Forest → Nat → Except Fault (Answer × Forest)
  | 0, _, _ => .error .outOfFuel
  | n + 1, s, j => acceptSigBy (acceptSigN env sig n) env s j sig

/-- No way down the forest is longer than the list of all jobs. -/
def acceptSig (env : Env) (s : Forest) (j : Nat) (sig : Sig) : Except Fault (Answer × Forest) :=
  acceptSigN env sig (s.allJobs.length + 1) s j

end Forest

/-! ## What a signal may change -/

variable {X : Set Nat} {s t u : Forest} {a b d j k g x p w : Nat}

/-- What changes from `s` to `t` lies below `j`. -/
structure Within (j : Nat) (s t : Forest) : Prop where
  jobs : t.allJobs.Sublist s.allJobs
  lost : ∀ x ∈ s.allJobs, x ∉ t.allJobs → Under s.Up x j
  shortens : Shortens s.Up t.Up
  parent : ∀ x ∈ t.allJobs, ¬ Under s.Up x j → t.parent x = s.parent x
  waiting : ∀ a ∈ t.allJobs, ¬ Below s.Up a j → t.waiting a = s.waiting a
  builtin : ∀ a ∈ t.allJobs, ¬ Below s.Up a j → t.builtin a = s.builtin a
  cp : ∀ a ∈ t.allJobs, ¬ Below s.Up a j → t.cp a = s.cp a
  asked : ∀ a ∈ t.allJobs, ¬ Below s.Up a j → t.asked a = s.asked a
  kind : t.kind = s.kind
  fresh : t.fresh = s.fresh

namespace Within

theorem refl (j : Nat) (s : Forest) : Within j s s where
  jobs := List.Sublist.refl _
  lost _ hx hLost := absurd hx hLost
  shortens := .refl _
  parent _ _ _ := rfl
  waiting _ _ _ := rfl
  builtin _ _ _ := rfl
  cp _ _ _ := rfl
  asked _ _ _ := rfl
  kind := rfl
  fresh := rfl

theorem trans (h : Within j s t) (h' : Within j t u) : Within j s u := by
  have hUnder : ∀ x, ¬ Under s.Up x j → ¬ Under t.Up x j :=
    fun x hNot hx => hNot (h.shortens.under hx)
  have hBelow : ∀ x, ¬ Below s.Up x j → ¬ Below t.Up x j :=
    fun x hNot hx => hNot (h.shortens.below hx)
  constructor
  · exact h'.jobs.trans h.jobs
  · intro x hx hLost
    by_cases hxt : x ∈ t.allJobs
    · exact h.shortens.under (h'.lost x hxt hLost)
    · exact h.lost x hx hxt
  · exact h.shortens.trans h'.shortens
  · intro x hx hNot
    exact (h'.parent x hx (hUnder x hNot)).trans (h.parent x (h'.jobs.subset hx) hNot)
  · intro a ha hNot
    exact (h'.waiting a ha (hBelow a hNot)).trans (h.waiting a (h'.jobs.subset ha) hNot)
  · intro a ha hNot
    exact (h'.builtin a ha (hBelow a hNot)).trans (h.builtin a (h'.jobs.subset ha) hNot)
  · intro a ha hNot
    exact (h'.cp a ha (hBelow a hNot)).trans (h.cp a (h'.jobs.subset ha) hNot)
  · intro a ha hNot
    exact (h'.asked a ha (hBelow a hNot)).trans (h.asked a (h'.jobs.subset ha) hNot)
  · exact h'.kind.trans h.kind
  · exact h'.fresh.trans h.fresh

/-- What lies below a job under `j` lies below `j`. -/
theorem lift (h : Within w s t) (hw : Under s.Up w j) : Within j s t := by
  have hUnder : ∀ x, ¬ Under s.Up x j → ¬ Under s.Up x w :=
    fun x hNot hx => hNot (hx.trans hw)
  have hBelow : ∀ x, ¬ Below s.Up x j → ¬ Below s.Up x w :=
    fun x hNot hx => hNot (hx.trans hw.to_reflTransGen)
  constructor
  · exact h.jobs
  · exact fun x hx hLost => (h.lost x hx hLost).trans hw
  · exact h.shortens
  · exact fun x hx hNot => h.parent x hx (hUnder x hNot)
  · exact fun a ha hNot => h.waiting a ha (hBelow a hNot)
  · exact fun a ha hNot => h.builtin a ha (hBelow a hNot)
  · exact fun a ha hNot => h.cp a ha (hBelow a hNot)
  · exact fun a ha hNot => h.asked a ha (hBelow a hNot)
  · exact h.kind
  · exact h.fresh

/-- The job itself stays. -/
theorem mem (h : Within j s t) (hAcyclic : Acyclic s.Up) (hj : j ∈ s.allJobs) :
    j ∈ t.allJobs := by
  by_contra hLost
  exact hAcyclic j (h.lost j hj hLost)

end Within

/-! ## Lists of awaited jobs -/

theorem Inv.wait_mem (h : Inv ∅ s) (hw : w ∈ s.waiting j) : w ∈ s.allJobs :=
  (h.awaited j w (Set.notMem_empty j) hw).1

theorem Inv.wait_up (h : Inv ∅ s) (hw : w ∈ s.waiting j) : s.Up w j :=
  h.awaited j w (Set.notMem_empty j) hw

/-- Only the parent waits for a job. -/
theorem Inv.wait_unique (h : Inv ∅ s) (hw : w ∈ s.waiting j) (hw' : w ∈ s.waiting a) : a = j :=
  Option.some.inj ((h.wait_up hw').2.symm.trans (h.wait_up hw).2)

theorem Inv.wait_owner (h : Inv ∅ s) (hw : w ∈ s.waiting j) : j ∈ s.allJobs := by
  by_contra hDead
  rw [(h.dead j hDead).1] at hw
  cases hw

theorem Inv.alive (h : Inv ∅ s) (hx : x ∈ s.allJobs) : s.deleting x = false :=
  Bool.eq_false_iff.mpr fun hDel => Set.notMem_empty x ((h.marked x hx).mp hDel)

theorem Inv.upper (h : Inv ∅ s) (hx : x ∈ s.allJobs) (hp : s.parent x = some p) :
    p ∈ s.allJobs := by
  have hChild := h.linked x p hx (Set.notMem_empty x) hp
  by_contra hDead
  rw [(h.dead p hDead).2] at hChild
  cases hChild

theorem Inv.doomed (h : Inv ∅ s) (hAcyclic : Acyclic s.Up) (hd : d ∈ s.allJobs) :
    Doomed ∅ d s where
  inv := h.mark hd
  mem := hd
  fresh := Set.notMem_empty d
  alive := h.alive hd
  acyclic := hAcyclic
  upper _ hg := h.upper hd hg
  clear x hx := absurd hx (Set.notMem_empty x)

/-- Other lists of awaited jobs. -/
theorem Inv.waits (h : Inv X s) {l : Nat → List Nat} (hNodup : ∀ a, a ∉ X → (l a).Nodup)
    (hMem : ∀ a, a ∉ X → ∀ x ∈ l a, s.Up x a) (hDead : ∀ a, a ∉ s.allJobs → l a = []) :
    Inv X { s with waiting := l } where
  nodup := h.nodup
  old := h.old
  dead x hx := ⟨hDead x hx, (h.dead x hx).2⟩
  node := h.node
  childNodup := h.childNodup
  child := h.child
  linked := h.linked
  awaited a x hX := hMem a hX x
  waitNodup := hNodup
  marked := h.marked
  former := h.former
  garbage := h.garbage

@[simp] theorem Forest.removeWaiting_self (s : Forest) (a x : Nat) :
    (s.removeWaiting a x).waiting a = (s.waiting a).erase x := update_self _ _ _

theorem Forest.removeWaiting_of_ne (s : Forest) (x : Nat) (h : b ≠ a) :
    (s.removeWaiting a x).waiting b = s.waiting b := update_of_ne h _ _

/-- A job that is awaited no more is free. -/
theorem Inv.free_removed (h : Inv ∅ s) (hx : x ∈ s.waiting a) (b : Nat) :
    x ∉ (s.removeWaiting a x).waiting b := by
  intro hb
  by_cases hEq : b = a
  · subst hEq
    rw [Forest.removeWaiting_self] at hb
    exact (h.waitNodup b (Set.notMem_empty b)).not_mem_erase hb
  · rw [Forest.removeWaiting_of_ne s x hEq] at hb
    exact hEq (h.wait_unique hx hb)

theorem Inv.removeWaiting (h : Inv ∅ s) (a x : Nat) : Inv ∅ (s.removeWaiting a x) := by
  apply h.waits
  · intro b _
    by_cases hb : b = a
    · subst hb
      rw [update_self]
      exact (h.waitNodup b (Set.notMem_empty b)).erase x
    · rw [update_of_ne hb]
      exact h.waitNodup b (Set.notMem_empty b)
  · intro b _ y hy
    by_cases hb : b = a
    · subst hb
      rw [update_self] at hy
      exact h.wait_up (List.mem_of_mem_erase hy)
    · rw [update_of_ne hb] at hy
      exact h.wait_up hy
  · intro b hDead
    by_cases hb : b = a
    · subst hb
      rw [update_self, (h.dead b hDead).1]
      rfl
    · rw [update_of_ne hb]
      exact (h.dead b hDead).1

theorem within_removeWaiting (s : Forest) (a x : Nat) : Within a s (s.removeWaiting a x) := by
  refine { Within.refl a s with waiting := ?_ }
  intro b _ hNot
  have hb : b ≠ a := fun hEq => hNot (hEq ▸ .refl)
  exact update_of_ne hb _ _

/-- What `AddWaiting` does when nobody waits for the job. -/
def Forest.await (s : Forest) (a x : Nat) : Forest :=
  { s.rehome (some a) x with waiting := update s.waiting a (s.waiting a ++ [x]) }

@[simp] theorem Forest.await_self (s : Forest) (a x : Nat) :
    (s.await a x).waiting a = s.waiting a ++ [x] := update_self _ _ _

theorem Forest.await_of_ne (s : Forest) (x : Nat) (h : b ≠ a) :
    (s.await a x).waiting b = s.waiting b := update_of_ne h _ _

theorem Forest.addWaiting_eq (h : Inv ∅ s) (hFree : ∀ b, x ∉ s.waiting b) :
    s.addWaiting a x = .ok (s.await a x) := by
  have hNobody : s.findWhoWaitsFor x = none := by
    unfold findWhoWaitsFor
    rw [List.find?_eq_none]
    intro b _
    simpa using hFree b
  unfold addWaiting
  rw [if_neg (hFree a), hNobody, setParent_eq h, ok_bind]
  rfl

theorem Inv.await (h : Inv ∅ s) (ha : a ∈ s.allJobs) (hx : x ∈ s.allJobs)
    (hFree : ∀ b, x ∉ s.waiting b) : Inv ∅ (s.await a x) := by
  have hHome : Inv ∅ (s.rehome (some a) x) :=
    h.rehome hx (fun _ hg => Option.some.inj hg ▸ ha) fun b _ hb => absurd hb (hFree b)
  apply hHome.waits
  · intro b _
    by_cases hb : b = a
    · subst hb
      rw [update_self]
      have hNodup := h.waitNodup b (Set.notMem_empty b)
      exact hNodup.append (List.nodup_singleton x) (by simpa using hFree b)
    · rw [update_of_ne hb]
      exact h.waitNodup b (Set.notMem_empty b)
  · intro b _ y hy
    have hOld : y ∈ s.waiting b → (s.rehome (some a) x).Up y b :=
      fun hMem => hHome.wait_up hMem
    by_cases hb : b = a
    · subst hb
      rw [update_self, List.mem_append, List.mem_singleton] at hy
      rcases hy with hy | hy
      · exact hOld hy
      · subst hy
        exact ⟨hx, by simp [Forest.rehome]⟩
    · rw [update_of_ne hb] at hy
      exact hOld hy
  · intro b hDead
    have hb : b ≠ a := fun hEq => hDead (hEq ▸ ha)
    rw [update_of_ne hb]
    exact (h.dead b hDead).1

theorem within_await (hx : Under s.Up x j) : Within j s (s.await j x) := by
  refine { Within.refl j s with shortens := ?_, parent := ?_, waiting := ?_ }
  · intro y p ⟨hy, hp⟩
    by_cases hEq : y = x
    · subst hEq
      have hpj : j = p := by simpa [Forest.await, Forest.rehome] using hp
      exact hpj ▸ hx
    · exact .single ⟨hy, by simpa [Forest.await, Forest.rehome, hEq] using hp⟩
  · intro y _ hNot
    have hEq : y ≠ x := fun hEq => hNot (hEq ▸ hx)
    simp [Forest.await, Forest.rehome, hEq]
  · intro b _ hNot
    have hb : b ≠ j := fun hEq => hNot (hEq ▸ .refl)
    exact update_of_ne hb _ _

/-! ## A job takes over what another one waits for -/

/-- What `w` waited for has come to `j`, but for `l`. -/
structure Inherited (j w : Nat) (s : Forest) (l : List Nat) (t : Forest) : Prop where
  inv : Inv ∅ t
  within : Within j s t
  jobs : t.allJobs = s.allJobs
  up : t.Up w j
  rest : t.waiting w = l
  taken : ∃ l', s.waiting w = l' ++ l ∧ t.waiting j = s.waiting j ++ l'
  others : ∀ a, a ≠ w → a ≠ j → t.waiting a = s.waiting a
  builtin : t.builtin = s.builtin
  cp : t.cp = s.cp
  asked : t.asked = s.asked

theorem Inherited.next {l : List Nat} (h : Inherited j w s (x :: l) t) (hAcyclic : Acyclic s.Up) :
    Inherited j w s l ((t.removeWaiting w x).await j x) := by
  have hne : j ≠ w := (hAcyclic.of_le h.within.shortens).ne h.up
  have hHead : x ∈ t.waiting w := by
    rw [h.rest]
    exact List.mem_cons_self
  have hxw := h.inv.wait_up hHead
  have hxNe : x ≠ w := ((hAcyclic.of_le h.within.shortens).ne hxw).symm
  have hRest : (t.removeWaiting w x).waiting w = l := by
    rw [Forest.removeWaiting_self, h.rest, List.erase_cons_head]
  have hj : j ∈ t.allJobs := h.inv.upper h.up.1 h.up.2
  have hWithin : Within j t (t.removeWaiting w x) :=
    (within_removeWaiting t w x).lift (.single h.up)
  constructor
  · exact (h.inv.removeWaiting w x).await hj hxw.1 (h.inv.free_removed hHead)
  · exact (h.within.trans hWithin).trans (within_await (.tail (.single hxw) h.up))
  · exact h.jobs
  · exact ⟨h.up.1, by simpa [Forest.await, Forest.rehome, Forest.removeWaiting, hxNe.symm]
      using h.up.2⟩
  · rw [Forest.await_of_ne _ x hne.symm, hRest]
  · obtain ⟨l', hSplit, hTaken⟩ := h.taken
    refine ⟨l' ++ [x], by simp [hSplit], ?_⟩
    rw [Forest.await_self, Forest.removeWaiting_of_ne t x hne, hTaken, List.append_assoc]
  · intro b hbw hbj
    rw [Forest.await_of_ne _ x hbj, Forest.removeWaiting_of_ne t x hbw]
    exact h.others b hbw hbj
  · exact h.builtin
  · exact h.cp
  · exact h.asked

theorem inherit_spec (h : Inv ∅ s) (hAcyclic : Acyclic s.Up) (hw : w ∈ s.waiting j) :
    Yields Never (Inherited j w s []) (s.inherit j w) := by
  have hStart : Inherited j w s (s.waiting w) s :=
    { inv := h, within := .refl j s, jobs := rfl, up := h.wait_up hw, rest := rfl
      taken := ⟨[], rfl, by simp⟩, others := fun _ _ _ => rfl
      builtin := rfl, cp := rfl, asked := rfl }
  refine Yields.foldlM (I := Inherited j w s) ?_ hStart
  intro x l t ht
  have hHead : x ∈ t.waiting w := by
    rw [ht.rest]
    exact List.mem_cons_self
  rw [Forest.addWaiting_eq (ht.inv.removeWaiting w x) (ht.inv.free_removed hHead)]
  exact ht.next hAcyclic

/-! ## An awaited job is deleted -/

/-- `w` is gone with jobs below it, and `j` waits for it no more. -/
structure Dropped (j w : Nat) (s t : Forest) : Prop where
  inv : Inv ∅ t
  within : Within j s t
  gone : w ∉ t.allJobs
  lost : ∀ x ∈ s.allJobs, x ∉ t.allJobs → Below s.Up x w
  less : t.allJobs.length < s.allJobs.length
  self : t.waiting j = (s.waiting j).erase w
  others : ∀ a ∈ t.allJobs, a ≠ j → t.waiting a = s.waiting a
  builtin : t.builtin = s.builtin
  cp : t.cp = s.cp
  asked : t.asked = s.asked

theorem drop_spec (h : Inv ∅ s) (hAcyclic : Acyclic s.Up) (hw : w ∈ s.waiting j) :
    Yields Never (Dropped j w s) (s.drop j w) := by
  have hUp := h.wait_up hw
  have hRemoved := h.removeWaiting j w
  refine (deleteLater_spec (hRemoved.doomed hAcyclic hUp.1)).imp fun t hDel => ?_
  have hPruned := hDel.pruned
  have hWaiting : ∀ a ∈ t.allJobs,
      t.waiting a = if a = j then (s.waiting j).erase w else s.waiting a := by
    intro a ha
    rw [hPruned.waiting a ha, Forest.unawaited_waiting]
    by_cases hEq : a = j
    · subst hEq
      have hNot := (h.waitNodup a (Set.notMem_empty a)).not_mem_erase (a := w)
      simp [Forest.removeWaiting, hUp.2, List.erase_of_not_mem hNot]
    · have hParent : (s.removeWaiting j w).parent w ≠ some a := by
        show s.parent w ≠ some a
        rw [hUp.2]
        exact fun hSome => hEq (Option.some.inj hSome).symm
      rw [if_neg hParent, if_neg hEq]
      exact update_of_ne hEq _ _
  have hLost : ∀ x ∈ s.allJobs, x ∉ t.allJobs → Below s.Up x w := hPruned.lost
  have hj : j ∈ t.allJobs := by
    by_contra hGone
    exact hAcyclic.not_below hUp (hLost j (h.wait_owner hw) hGone)
  constructor
  · exact hDel.inv
  · constructor
    · exact hPruned.jobs
    · exact fun x hx hGone => .tail' (hLost x hx hGone) hUp
    · exact hPruned.shortens hUp.1
    · intro x hx hNot
      rcases hPruned.up x hx with hSame | ⟨hChild, -⟩
      · exact hSame
      · have hxw : s.Up x w := ⟨hPruned.jobs.subset hx, hChild⟩
        exact absurd (.tail (.single hxw) hUp) hNot
    · intro a ha hNot
      have hNe : a ≠ j := fun hEq => hNot (hEq ▸ .refl)
      rw [hWaiting a ha, if_neg hNe]
    · exact fun a _ _ => congrFun hPruned.builtin a
    · exact fun a _ _ => congrFun hPruned.cp a
    · exact fun a _ _ => congrFun hPruned.asked a
    · exact hPruned.kind
    · exact hPruned.fresh
  · exact hDel.gone
  · exact hLost
  · refine lt_of_le_of_ne hPruned.jobs.length_le fun hEq => hDel.gone ?_
    rw [hPruned.jobs.eq_of_length hEq]
    exact hUp.1
  · rw [hWaiting j hj, if_pos rfl]
  · exact fun a ha hNe => (hWaiting a ha).trans (if_neg hNe)
  · exact hPruned.builtin
  · exact hPruned.cp
  · exact hPruned.asked

end Lftp.Ports.Job
