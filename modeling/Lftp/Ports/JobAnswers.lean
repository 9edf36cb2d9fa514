import Lftp.Ports.JobSignals
import Mathlib.Data.List.Perm.Subperm

/-!
# What a signal leads to

`Willing` says which jobs answer `wantDie`, `Gives` which of them also leave nothing
behind that refuses, both from what the jobs wait for before the signal is sent.
The main result is `acceptSig_spec`: a signal passes through the forest without a
fault, changes something below the job only, and is answered as `Willing` says.
-/

namespace Lftp.Ports.Job

open Lftp.Verified Relation
open Function (update update_self update_of_ne update_eq_self)

variable {s t u : Forest} {a b d j k x y p w : Nat} {env : Env} {sig : Sig}

/-! ## Who answers what -/

/-- The members that `CopyJobEnv::AcceptSig` comes by when each one it asks is deleted. -/
def evens : List Nat → List Nat
  | [] => []
  | [x] => [x]
  | x :: _ :: l => x :: evens l

/-- The members it leaves out then. -/
def odds : List Nat → List Nat
  | [] => []
  | [_] => []
  | _ :: y :: l => y :: odds l

/-- The jobs that answer `wantDie` to a signal that ends jobs. -/
inductive Willing (env : Env) (sig : Sig) (s : Forest) : Nat → Prop
  | job {k : Nat} (hKind : s.kind k = .job) : Willing env sig s k
  | other {k : Nat} (hKind : s.kind k = .other)
      (hAnswer : env.answer k (s.asked k) sig = .wantDie) : Willing env sig s k
  | cmdExec {k : Nat} (hKind : s.kind k = .cmdExec) (hBuiltin : s.builtin k = false)
      (hAll : ∀ x ∈ s.waiting k, Willing env sig s x) : Willing env sig s k
  | idle {k : Nat} (hKind : s.kind k = .copyJobEnv) (hCp : s.cp k = none) : Willing env sig s k
  | copyJobEnv {k : Nat} (hKind : s.kind k = .copyJobEnv) (hCp : s.cp k ≠ none)
      (hAll : ∀ x ∈ evens (s.waiting k), Willing env sig s x) : Willing env sig s k

/-- The jobs that answer `wantDie`, and so does everything that they leave waiting. -/
inductive Gives (env : Env) (sig : Sig) (s : Forest) : Nat → Prop
  | job {k : Nat} (hKind : s.kind k = .job) (hAll : ∀ x ∈ s.waiting k, Gives env sig s x) :
      Gives env sig s k
  | other {k : Nat} (hKind : s.kind k = .other)
      (hAnswer : env.answer k (s.asked k) sig = .wantDie)
      (hAll : ∀ x ∈ s.waiting k, Gives env sig s x) : Gives env sig s k
  | cmdExec {k : Nat} (hKind : s.kind k = .cmdExec) (hBuiltin : s.builtin k = false)
      (hAll : ∀ x ∈ s.waiting k, Willing env sig s x) : Gives env sig s k
  | idle {k : Nat} (hKind : s.kind k = .copyJobEnv) (hCp : s.cp k = none)
      (hAll : ∀ x ∈ s.waiting k, Gives env sig s x) : Gives env sig s k
  | copyJobEnv {k : Nat} (hKind : s.kind k = .copyJobEnv) (hCp : s.cp k ≠ none)
      (hAsked : ∀ x ∈ evens (s.waiting k), Willing env sig s x)
      (hLeft : ∀ x ∈ odds (s.waiting k), Gives env sig s x) : Gives env sig s k

theorem Gives.willing (h : Gives env sig s k) : Willing env sig s k := by
  cases h with
  | job hKind _ => exact .job hKind
  | other hKind hAnswer _ => exact .other hKind hAnswer
  | cmdExec hKind hBuiltin hAll => exact .cmdExec hKind hBuiltin hAll
  | idle hKind hCp _ => exact .idle hKind hCp
  | copyJobEnv hKind hCp hAsked _ => exact .copyJobEnv hKind hCp hAsked

theorem mem_of_mem_evens {l : List Nat} (h : x ∈ evens l) : x ∈ l := by
  induction l using evens.induct with
  | case1 => exact h
  | case2 y => exact h
  | case3 y z l ih =>
      rcases List.mem_cons.mp h with hEq | hMem
      · exact List.mem_cons.mpr (.inl hEq)
      · exact List.mem_cons_of_mem _ (List.mem_cons_of_mem _ (ih hMem))

theorem mem_of_mem_odds {l : List Nat} (h : x ∈ odds l) : x ∈ l := by
  induction l using evens.induct with
  | case1 => exact h
  | case2 y => cases h
  | case3 y z l ih =>
      rcases List.mem_cons.mp h with hEq | hMem
      · exact List.mem_cons_of_mem _ (List.mem_cons.mpr (.inl hEq))
      · exact List.mem_cons_of_mem _ (List.mem_cons_of_mem _ (ih hMem))

/-! ## Answers depend on the awaited jobs only -/

/-- The two states agree on what the job `a` does with a signal. -/
structure Same (s t : Forest) (a : Nat) : Prop where
  waiting : t.waiting a = s.waiting a
  builtin : t.builtin a = s.builtin a
  cp : t.cp a = s.cp a
  asked : t.asked a = s.asked a
  kind : t.kind a = s.kind a

theorem Same.symm (h : Same s t a) : Same t s a :=
  ⟨h.waiting.symm, h.builtin.symm, h.cp.symm, h.asked.symm, h.kind.symm⟩

theorem Same.trans (h : Same s t a) (h' : Same t u a) : Same s u a :=
  ⟨h'.waiting.trans h.waiting, h'.builtin.trans h.builtin, h'.cp.trans h.cp,
    h'.asked.trans h.asked, h'.kind.trans h.kind⟩

/-- The two states agree on `x` and all that it waits for, directly or through others. -/
def Untouched (s t : Forest) (x : Nat) : Prop :=
  ∃ P : Nat → Prop, P x ∧ ∀ a, P a → Same s t a ∧ ∀ y ∈ s.waiting a, P y

theorem Untouched.refl (s : Forest) (x : Nat) : Untouched s s x :=
  ⟨fun _ => True, trivial, fun _ _ => ⟨⟨rfl, rfl, rfl, rfl, rfl⟩, fun _ _ => trivial⟩⟩

theorem Untouched.same (h : Untouched s t x) : Same s t x := by
  obtain ⟨P, hx, hClosed⟩ := h
  exact (hClosed x hx).1

theorem Untouched.next (h : Untouched s t x) (hy : y ∈ s.waiting x) : Untouched s t y := by
  obtain ⟨P, hx, hClosed⟩ := h
  exact ⟨P, (hClosed x hx).2 y hy, hClosed⟩

theorem Untouched.symm (h : Untouched s t x) : Untouched t s x := by
  obtain ⟨P, hx, hClosed⟩ := h
  refine ⟨P, hx, fun a ha => ?_⟩
  obtain ⟨hSame, hNext⟩ := hClosed a ha
  exact ⟨hSame.symm, fun y hy => hNext y (hSame.waiting ▸ hy)⟩

theorem Untouched.trans (h : Untouched s t x) (h' : Untouched t u x) : Untouched s u x := by
  refine ⟨fun a => Untouched s t a ∧ Untouched t u a, ⟨h, h'⟩, ?_⟩
  intro a ⟨hst, htu⟩
  refine ⟨hst.same.trans htu.same, fun y hy => ⟨hst.next hy, htu.next ?_⟩⟩
  rw [hst.same.waiting]
  exact hy

theorem Untouched.willing (h : Untouched s t x) (hx : Willing env sig s x) :
    Willing env sig t x := by
  induction hx with
  | job hKind => exact .job (h.same.kind.trans hKind)
  | other hKind hAnswer =>
      exact .other (h.same.kind.trans hKind) (h.same.asked.symm ▸ hAnswer)
  | cmdExec hKind hBuiltin hAll ih =>
      refine .cmdExec (h.same.kind.trans hKind) (h.same.builtin.trans hBuiltin) ?_
      intro y hy
      rw [h.same.waiting] at hy
      exact ih y hy (h.next hy)
  | idle hKind hCp => exact .idle (h.same.kind.trans hKind) (h.same.cp.trans hCp)
  | copyJobEnv hKind hCp hAll ih =>
      refine .copyJobEnv (h.same.kind.trans hKind) (h.same.cp.symm ▸ hCp) ?_
      intro y hy
      rw [h.same.waiting] at hy
      exact ih y hy (h.next (mem_of_mem_evens hy))

theorem Untouched.willing_iff (h : Untouched s t x) :
    Willing env sig t x ↔ Willing env sig s x :=
  ⟨h.symm.willing, h.willing⟩

theorem Untouched.gives (h : Untouched s t x) (hx : Gives env sig s x) :
    Gives env sig t x := by
  induction hx with
  | job hKind hAll ih =>
      refine .job (h.same.kind.trans hKind) ?_
      intro y hy
      rw [h.same.waiting] at hy
      exact ih y hy (h.next hy)
  | other hKind hAnswer hAll ih =>
      refine .other (h.same.kind.trans hKind) (h.same.asked.symm ▸ hAnswer) ?_
      intro y hy
      rw [h.same.waiting] at hy
      exact ih y hy (h.next hy)
  | cmdExec hKind hBuiltin hAll =>
      refine .cmdExec (h.same.kind.trans hKind) (h.same.builtin.trans hBuiltin) ?_
      intro y hy
      rw [h.same.waiting] at hy
      exact (h.next hy).willing (hAll y hy)
  | idle hKind hCp hAll ih =>
      refine .idle (h.same.kind.trans hKind) (h.same.cp.trans hCp) ?_
      intro y hy
      rw [h.same.waiting] at hy
      exact ih y hy (h.next hy)
  | copyJobEnv hKind hCp hAsked hLeft ih =>
      refine .copyJobEnv (h.same.kind.trans hKind) (h.same.cp.symm ▸ hCp) ?_ ?_
      · intro y hy
        rw [h.same.waiting] at hy
        exact (h.next (mem_of_mem_evens hy)).willing (hAsked y hy)
      · intro y hy
        rw [h.same.waiting] at hy
        exact ih y hy (h.next (mem_of_mem_odds hy))

/-! ## What stays untouched -/

/-- What lies below another awaited job is not touched. -/
theorem Within.untouched (h : Within w s t) (hInv : Inv ∅ s) (hAcyclic : Acyclic s.Up)
    (hw : w ∈ s.waiting j) (hx : x ∈ s.waiting j) (hNe : x ≠ w) : Untouched s t x := by
  refine ⟨fun a => a ∈ s.allJobs ∧ Below s.Up a x, ⟨hInv.wait_mem hx, .refl⟩, ?_⟩
  intro a ⟨ha, hBelow⟩
  have hNot : ¬ Below s.Up a w :=
    hAcyclic.siblings s.up_unique (hInv.wait_up hx) (hInv.wait_up hw) hNe hBelow
  have hat : a ∈ t.allJobs := by
    by_contra hLost
    exact hNot (h.lost a ha hLost).to_reflTransGen
  refine ⟨⟨h.waiting a hat hNot, h.builtin a hat hNot, h.cp a hat hNot, h.asked a hat hNot,
    congrFun h.kind a⟩, fun y hy => ?_⟩
  have hUp := hInv.wait_up hy
  exact ⟨hUp.1, .head hUp hBelow⟩

/-- A job does not change when another one below it is asked. -/
theorem Within.same (h : Within w s t) (hAcyclic : Acyclic s.Up) (hj : j ∈ s.allJobs)
    (hUp : s.Up w j) : Same s t j := by
  have hNot : ¬ Below s.Up j w := hAcyclic.not_below hUp
  have hjt : j ∈ t.allJobs := by
    by_contra hLost
    exact hNot (h.lost j hj hLost).to_reflTransGen
  exact ⟨h.waiting j hjt hNot, h.builtin j hjt hNot, h.cp j hjt hNot, h.asked j hjt hNot,
    congrFun h.kind j⟩

theorem Dropped.untouched (h : Dropped j w s t) (hInv : Inv ∅ s) (hAcyclic : Acyclic s.Up)
    (hw : w ∈ s.waiting j) (hx : x ∈ s.waiting j) (hNe : x ≠ w) : Untouched s t x := by
  refine ⟨fun a => a ∈ s.allJobs ∧ Below s.Up a x, ⟨hInv.wait_mem hx, .refl⟩, ?_⟩
  intro a ⟨ha, hBelow⟩
  have haj : a ≠ j := by
    intro hEq
    subst hEq
    exact hAcyclic.not_below (hInv.wait_up hx) hBelow
  have hat : a ∈ t.allJobs := by
    by_contra hLost
    exact hAcyclic.siblings s.up_unique (hInv.wait_up hx) (hInv.wait_up hw) hNe hBelow
      (h.lost a ha hLost)
  refine ⟨⟨h.others a hat haj, congrFun h.builtin a, congrFun h.cp a, congrFun h.asked a,
    congrFun h.within.kind a⟩, fun y hy => ?_⟩
  have hUp := hInv.wait_up hy
  exact ⟨hUp.1, .head hUp hBelow⟩

/-- Neither the jobs that were awaited before nor those that came are touched. -/
theorem Inherited.untouched (h : Inherited j w s [] t) (hInv : Inv ∅ s)
    (hAcyclic : Acyclic s.Up) (hw : w ∈ s.waiting j) (hx : x ∈ s.waiting j ∨ x ∈ s.waiting w)
    (hNe : x ≠ w) : Untouched s t x := by
  have hUnder : Under s.Up x j ∧ ¬ Below s.Up w x := by
    rcases hx with hx | hx
    · exact ⟨.single (hInv.wait_up hx), fun hBelow =>
        hAcyclic.siblings s.up_unique (hInv.wait_up hx) (hInv.wait_up hw) hNe hBelow .refl⟩
    · exact ⟨.tail (.single (hInv.wait_up hx)) (hInv.wait_up hw),
        hAcyclic.not_below (hInv.wait_up hx)⟩
  refine ⟨fun a => Below s.Up a x, .refl, ?_⟩
  intro a hBelow
  have haj : a ≠ j := by
    intro hEq
    subst hEq
    exact hAcyclic a (.trans_right hBelow hUnder.1)
  have haw : a ≠ w := fun hEq => hUnder.2 (hEq ▸ hBelow)
  exact ⟨⟨h.others a haw haj, congrFun h.builtin a, congrFun h.cp a, congrFun h.asked a,
    congrFun h.within.kind a⟩, fun y hy => .head (hInv.wait_up hy) hBelow⟩

/-! ## Asking an awaited job -/

/-- When no list of jobs is left waiting for any that refuses. -/
def Clears (env : Env) (sig : Sig) (s : Forest) (j : Nat) : Prop :=
  match s.kind j with
  | .job => ∀ x ∈ s.waiting j, Gives env sig s x
  | .cmdExec => True
  | .copyJobEnv =>
      if s.cp j = none then s.waiting j = []
      else (∀ x ∈ evens (s.waiting j), Willing env sig s x) → (s.waiting j).length ≤ 1
  | .other => env.answer j (s.asked j) sig = .wantDie → s.waiting j = []

/-- What `AcceptSig` of `j` returns, and leaves behind. -/
structure Answered (env : Env) (sig : Sig) (j : Nat) (s : Forest) (r : Answer × Forest) :
    Prop where
  inv : Inv ∅ r.2
  within : Within j s r.2
  willing : sig.ends → s.parent j ≠ none → (r.1 = .wantDie ↔ Willing env sig s j)
  gives : sig.ends → Gives env sig s j → ∀ x ∈ r.2.waiting j, Gives env sig r.2 x
  cleared : sig.ends → s.parent j ≠ none → r.1 = .wantDie → Clears env sig s j →
    r.2.waiting j = []

/-- There are fewer than `n` jobs under `j`. -/
def Deep (n : Nat) (s : Forest) (j : Nat) : Prop :=
  ∀ l : List Nat, l.Nodup → (∀ x ∈ l, Under s.Up x j) → l.length < n

/-- `ask` is `AcceptSig` for jobs with fewer than `n` jobs under them. -/
def Asks (env : Env) (sig : Sig) (n : Nat)
    (ask : Forest → Nat → Except Fault (Answer × Forest)) : Prop :=
  ∀ s j, Inv ∅ s → Acyclic s.Up → j ∈ s.allJobs → Deep n s j →
    Yields Never (Answered env sig j s) (ask s j)

/-- In the midst of `AcceptSig` of `j`. -/
structure Going (j : Nat) (s t : Forest) : Prop where
  start : Acyclic s.Up
  mem : j ∈ s.allJobs
  inv : Inv ∅ t
  within : Within j s t

namespace Going

theorem acyclic (h : Going j s t) : Acyclic t.Up := h.start.of_le h.within.shortens

theorem next (h : Going j s t) (hInv : Inv ∅ u) (hWithin : Within j t u) : Going j s u :=
  ⟨h.start, h.mem, hInv, h.within.trans hWithin⟩

theorem stays (h : Going j s t) : j ∈ t.allJobs := h.within.mem h.start h.mem

end Going

/-- An awaited job was asked. -/
structure AskedBy (env : Env) (sig : Sig) (j w : Nat) (s₀ s : Forest) (r : Answer × Forest) :
    Prop where
  going : Going j s₀ r.2
  willing : sig.ends → (r.1 = .wantDie ↔ Willing env sig s w)
  gives : sig.ends → Gives env sig s w → ∀ x ∈ r.2.waiting w, Gives env sig r.2 x
  same : Same s r.2 j
  kept : ∀ x ∈ s.waiting j, x ≠ w → Untouched s r.2 x
  jobs : r.2.allJobs.length ≤ s.allJobs.length

variable {n : Nat} {ask : Forest → Nat → Except Fault (Answer × Forest)} {s₀ : Forest}

theorem Going.asked (h : Going j s₀ s) (hDeep : Deep (n + 1) s₀ j) (hAsks : Asks env sig n ask)
    (hw : w ∈ s.waiting j) : Yields Never (AskedBy env sig j w s₀ s) (ask s w) := by
  have hUp := h.inv.wait_up hw
  have hDeeper : Deep n s w := by
    intro l hNodup hUnder
    have hNew : w ∉ l := fun hMem => h.acyclic w (hUnder w hMem)
    have hLength := hDeep (w :: l) (List.nodup_cons.mpr ⟨hNew, hNodup⟩) ?_
    · simpa using hLength
    · intro x hx
      rcases List.mem_cons.mp hx with hEq | hMem
      · subst hEq
        exact h.within.shortens.under (.single hUp)
      · exact h.within.shortens.under ((hUnder x hMem).tail hUp)
  refine (hAsks s w h.inv h.acyclic hUp.1 hDeeper).imp fun r hr => ?_
  have hParent : s.parent w ≠ none := by
    rw [hUp.2]
    exact Option.some_ne_none j
  constructor
  · exact h.next hr.inv (hr.within.lift (.single hUp))
  · exact fun hEnds => hr.willing hEnds hParent
  · exact hr.gives
  · exact hr.within.same h.acyclic h.stays hUp
  · exact fun x hx hNe => hr.within.untouched h.inv h.acyclic hw hx hNe
  · exact hr.within.jobs.length_le

/-- No list is longer than that of all jobs. -/
theorem Inv.waiting_le (h : Inv ∅ s) (j : Nat) : (s.waiting j).length ≤ s.allJobs.length :=
  (List.subperm_of_subset (h.waitNodup j (Set.notMem_empty j))
    fun _ hx => h.wait_mem hx).length_le

theorem awaitedAt_eq {i : Nat} (h : (s.waiting j)[i]? = some w) :
    s.awaitedAt j i = .ok w := by
  simp [Forest.awaitedAt, h]

/-! ## The loop of `Job::AcceptSig` -/

/-- While nothing refuses, the loop stays at the first awaited job. -/
structure JobLoop (env : Env) (sig : Sig) (j : Nat) (s₀ : Forest) (p : Nat × Forest) : Prop where
  going : Going j s₀ p.2
  gives : sig.ends → (∀ x ∈ s₀.waiting j, Gives env sig s₀ x) →
    p.1 = 0 ∧ ∀ x ∈ p.2.waiting j, Gives env sig p.2 x

/-- The awaited job that gave way is replaced by what it waited for. -/
theorem Going.replaced (h : Going j s₀ s) (hw : w ∈ s.waiting j) :
    Yields Never (fun u => Going j s₀ u ∧ u.allJobs.length < s.allJobs.length
        ∧ ∀ x ∈ u.waiting j, Untouched s u x ∧ (x ∈ s.waiting j ∧ x ≠ w ∨ x ∈ s.waiting w))
      (s.inherit j w >>= fun t => t.drop j w) := by
  refine (inherit_spec h.inv h.acyclic hw).bind fun t ht => ?_
  obtain ⟨l, hSplit, hTaken⟩ := ht.taken
  have hAll : t.waiting j = s.waiting j ++ s.waiting w := by
    rw [hTaken, hSplit, List.append_nil]
  have hNext := h.next ht.inv ht.within
  have hwt : w ∈ t.waiting j := by
    rw [hAll]
    exact List.mem_append_left _ hw
  refine (drop_spec ht.inv hNext.acyclic hwt).imp fun u hu => ?_
  have hNodup := ht.inv.waitNodup j (Set.notMem_empty j)
  refine ⟨hNext.next hu.inv hu.within, ht.jobs ▸ hu.less, ?_⟩
  intro x hx
  rw [hu.self] at hx
  obtain ⟨hNe, hxt⟩ := hNodup.mem_erase_iff.mp hx
  have hOld : x ∈ s.waiting j ∨ x ∈ s.waiting w := by
    rw [hAll] at hxt
    exact List.mem_append.mp hxt
  exact ⟨(ht.untouched h.inv h.acyclic hw hOld hNe).trans
    (hu.untouched ht.inv hNext.acyclic hwt hxt hNe), hOld.imp_left fun hMem => ⟨hMem, hNe⟩⟩

theorem jobTurn_none {i : Nat} (h : (s.waiting j)[i]? = none) :
    Forest.jobTurn ask j (i, s) = .ok (.inr (.wantDie, s)) := by
  simp [Forest.jobTurn, h]

theorem jobTurn_some {i : Nat} (h : (s.waiting j)[i]? = some w) (hNe : w ≠ j) :
    Forest.jobTurn ask j (i, s) = (do
      let r ← ask s w
      if r.1 = .wantDie then
        let w ← r.2.awaitedAt j i
        let t ← r.2.inherit j w
        let t ← t.drop j w
        return .inl (i, t)
      else return .inl (i + 1, r.2)) := by
  simp only [Forest.jobTurn, h, if_neg hNe]

theorem jobTurn_spec (hDeep : Deep (n + 1) s₀ j) (hAsks : Asks env sig n ask)
    (hKind : s₀.kind j = .job) (q : Nat × Forest) (h : JobLoop env sig j s₀ q) :
    Yields Never (Sum.elim (fun q' => JobLoop env sig j s₀ q'
        ∧ q'.2.allJobs.length - q'.1 < q.2.allJobs.length - q.1) (Answered env sig j s₀))
      (Forest.jobTurn ask j q) := by
  obtain ⟨i, s⟩ := q
  cases hAt : (s.waiting j)[i]? with
  | none =>
      have hEmpty : sig.ends → (∀ x ∈ s₀.waiting j, Gives env sig s₀ x) → s.waiting j = [] := by
        intro hEnds hAll
        have hZero : i = 0 := (h.gives hEnds hAll).1
        subst hZero
        simpa using hAt
      rw [jobTurn_none hAt]
      show Answered env sig j s₀ (.wantDie, s)
      constructor
      · exact h.going.inv
      · exact h.going.within
      · exact fun _ _ => iff_of_true rfl (.job hKind)
      · intro hEnds hGives
        cases hGives with
        | job _ hAll => exact fun x hx => by simp [hEmpty hEnds hAll] at hx
        | _ hOther => simp [hKind] at hOther
      · intro hEnds _ _ hClears
        exact hEmpty hEnds (by simpa [Clears, hKind] using hClears)
  | some w =>
      have hw : w ∈ s.waiting j := List.mem_of_getElem? hAt
      have hLength : i < s.allJobs.length :=
        (List.getElem?_eq_some_iff.mp hAt).1.trans_le (h.going.inv.waiting_le j)
      have hNe : w ≠ j := (h.going.acyclic.ne (h.going.inv.wait_up hw)).symm
      rw [jobTurn_some hAt hNe]
      refine (h.going.asked hDeep hAsks hw).bind fun r hr => ?_
      obtain ⟨res, t⟩ := r
      have hSame : t.waiting j = s.waiting j := hr.same.waiting
      have hJobs : t.allJobs.length ≤ s.allJobs.length := hr.jobs
      dsimp only
      by_cases hRes : res = .wantDie
      · have hAt' : t.awaitedAt j i = .ok w := awaitedAt_eq (by rw [hSame, hAt])
        have hwt : w ∈ t.waiting j := hSame ▸ hw
        rw [if_pos hRes, hAt', ok_bind, ← bind_assoc]
        refine (hr.going.replaced hwt).bind fun u hu => ?_
        obtain ⟨hGoing, hLess, hLeft⟩ := hu
        refine ⟨⟨hGoing, fun hEnds hAll => ?_⟩, ?_⟩
        · obtain ⟨hZero, hGives⟩ := h.gives hEnds hAll
          refine ⟨hZero, fun x hx => ?_⟩
          obtain ⟨hUntouched, hOrigin⟩ := hLeft x hx
          apply hUntouched.gives
          rcases hOrigin with ⟨hOld, hxNe⟩ | hNew
          · rw [hSame] at hOld
            exact (hr.kept x hOld hxNe).gives (hGives x hOld)
          · exact hr.gives hEnds (hGives w hw) x hNew
        · show u.allJobs.length - i < s.allJobs.length - i
          have hLess : u.allJobs.length < t.allJobs.length := hLess
          omega
      · rw [if_neg hRes]
        refine ⟨⟨hr.going, fun hEnds hAll => ?_⟩, ?_⟩
        · have hWilling := ((h.gives hEnds hAll).2 w hw).willing
          exact absurd ((hr.willing hEnds).mpr hWilling) hRes
        · show t.allJobs.length - (i + 1) < s.allJobs.length - i
          omega

theorem jobLoop_spec (hDeep : Deep (n + 1) s j) (hAsks : Asks env sig n ask)
    (hKind : s.kind j = .job) (h : Going j s s) :
    Yields Never (Answered env sig j s)
      (loopOr .outOfFuel (Forest.jobTurn ask j) (s.allJobs.length + 1) (0, s)) := by
  have hStart : JobLoop env sig j s (0, s) := ⟨h, fun _ hAll => ⟨rfl, hAll⟩⟩
  have hBound : s.allJobs.length - 0 < s.allJobs.length + 1 := by omega
  exact Yields.loopOr (fun q : Nat × Forest => q.2.allJobs.length - q.1) .outOfFuel
    (jobTurn_spec hDeep hAsks hKind) hStart hBound

/-! ## The loop of `CmdExec::AcceptSig` -/

/-- A job that was asked goes, and the others that are awaited stay as they are. -/
theorem Going.dropped (h : Going j s₀ s) (hw : w ∈ s.waiting j) :
    Yields Never (fun u => Going j s₀ u ∧ u.allJobs.length < s.allJobs.length
      ∧ u.waiting j = (s.waiting j).erase w ∧ u.cp j = s.cp j
      ∧ ∀ x ∈ s.waiting j, x ≠ w → Untouched s u x) (s.drop j w) :=
  (drop_spec h.inv h.acyclic hw).imp fun _ hu =>
    ⟨h.next hu.inv hu.within, hu.less, hu.self, congrFun hu.cp j,
      fun _ hx hNe => hu.untouched h.inv h.acyclic hw hx hNe⟩

/-- The jobs before `waiting[i]` have refused, those from there on were not asked yet. -/
structure CmdExecLoop (env : Env) (sig : Sig) (j : Nat) (s₀ : Forest)
    (q : Nat × Nat × Forest) : Prop where
  going : Going j s₀ q.2.2
  limit : q.2.1 = (q.2.2.waiting j).length
  split : ∃ refused rest, q.2.2.waiting j = refused ++ rest ∧ refused.length = q.1
    ∧ (∀ x ∈ refused, x ∈ s₀.waiting j ∧ ¬ Willing env sig s₀ x)
    ∧ (∀ x ∈ s₀.waiting j, x ∈ refused ∨ x ∈ rest ∨ Willing env sig s₀ x)
    ∧ ∀ x ∈ rest, x ∈ s₀.waiting j ∧ Untouched s₀ q.2.2 x

theorem cmdExecTurn_done {i limit : Nat} (h : ¬ i < limit) :
    Forest.cmdExecTurn ask j (i, limit, s) = .ok (.inr s) := by
  simp only [Forest.cmdExecTurn, if_neg h]

theorem cmdExecTurn_next {i limit : Nat} (h : i < limit) (hAt : s.awaitedAt j i = .ok w) :
    Forest.cmdExecTurn ask j (i, limit, s) = (do
      let r ← ask s w
      if r.1 = .wantDie then
        let t ← r.2.drop j w
        return .inl (i, limit - 1, t)
      else return .inl (i + 1, limit, r.2)) := by
  simp only [Forest.cmdExecTurn, if_pos h, hAt, ok_bind]

theorem cmdExecTurn_spec (hDeep : Deep (n + 1) s₀ j) (hAsks : Asks env sig n ask)
    (hEnds : sig.ends) (q : Nat × Nat × Forest) (h : CmdExecLoop env sig j s₀ q) :
    Yields Never (Sum.elim (fun q' => CmdExecLoop env sig j s₀ q'
        ∧ q'.2.2.allJobs.length - q'.1 < q.2.2.allJobs.length - q.1)
        fun t => Going j s₀ t ∧ (t.waiting j = [] ↔ ∀ x ∈ s₀.waiting j, Willing env sig s₀ x))
      (Forest.cmdExecTurn ask j q) := by
  obtain ⟨i, limit, s⟩ := q
  obtain ⟨hGoing, hLimit, refused, rest, hSplit, hIndex, hRefused, hAll, hRest⟩ := h
  dsimp only at hGoing hLimit hSplit hIndex hRest
  by_cases hi : i < limit
  · cases rest with
    | nil =>
        rw [hLimit, hSplit, List.append_nil] at hi
        omega
    | cons w rest =>
        have hAt : (s.waiting j)[i]? = some w := by
          rw [hSplit, ← hIndex, List.getElem?_append_right (Nat.le_refl _), Nat.sub_self]
          rfl
        have hw : w ∈ s.waiting j := List.mem_of_getElem? hAt
        have hLength : i < s.allJobs.length :=
          (List.getElem?_eq_some_iff.mp hAt).1.trans_le (hGoing.inv.waiting_le j)
        have hNodup := hGoing.inv.waitNodup j (Set.notMem_empty j)
        rw [hSplit, List.nodup_append] at hNodup
        obtain ⟨-, hTail, hApart⟩ := hNodup
        have hNotLeft : w ∉ refused := fun hMem => hApart w hMem w List.mem_cons_self rfl
        have hNotRight : w ∉ rest := (List.nodup_cons.mp hTail).1
        obtain ⟨hOld, hUntouched⟩ := hRest w List.mem_cons_self
        have hRestOf : ∀ x ∈ rest, x ∈ s.waiting j ∧ x ≠ w := by
          intro x hx
          refine ⟨?_, fun hEq => hNotRight (hEq ▸ hx)⟩
          rw [hSplit]
          exact List.mem_append_right _ (List.mem_cons_of_mem _ hx)
        rw [cmdExecTurn_next hi (awaitedAt_eq hAt)]
        refine (hGoing.asked hDeep hAsks hw).bind fun r hr => ?_
        obtain ⟨res, t⟩ := r
        have hSame : t.waiting j = s.waiting j := hr.same.waiting
        have hJobs : t.allJobs.length ≤ s.allJobs.length := hr.jobs
        have hIff : res = .wantDie ↔ Willing env sig s₀ w :=
          (hr.willing hEnds).trans hUntouched.willing_iff
        dsimp only
        by_cases hRes : res = .wantDie
        · rw [if_pos hRes]
          refine (hr.going.dropped (hSame ▸ hw)).bind fun u hu => ?_
          obtain ⟨hNext, hLess, hList, -, hKept⟩ := hu
          rw [hSame, hSplit, List.erase_append_right _ hNotLeft, List.erase_cons_head] at hList
          refine ⟨⟨hNext, ?_, refused, rest, hList, hIndex, hRefused, ?_, ?_⟩, ?_⟩
          · show limit - 1 = (u.waiting j).length
            rw [hLimit, hSplit, hList]
            simp only [List.length_append, List.length_cons]
            omega
          · intro x hx
            rcases hAll x hx with hLeft | hRight | hWilling
            · exact .inl hLeft
            · rcases List.mem_cons.mp hRight with hEq | hMem
              · subst hEq
                exact .inr (.inr (hIff.mp hRes))
              · exact .inr (.inl hMem)
            · exact .inr (.inr hWilling)
          · intro x hx
            obtain ⟨hxs, hxNe⟩ := hRestOf x hx
            have hStart := hRest x (List.mem_cons_of_mem _ hx)
            exact ⟨hStart.1, (hStart.2.trans (hr.kept x hxs hxNe)).trans
              (hKept x (hSame ▸ hxs) hxNe)⟩
          · show u.allJobs.length - i < s.allJobs.length - i
            dsimp only at hLess
            omega
        · rw [if_neg hRes]
          refine ⟨⟨hr.going, ?_, refused ++ [w], rest, ?_, ?_, ?_, ?_, ?_⟩, ?_⟩
          · show limit = (t.waiting j).length
            rw [hLimit, hSame]
          · show t.waiting j = _
            rw [hSame, hSplit, List.append_assoc]
            rfl
          · simp [hIndex]
          · intro x hx
            rcases List.mem_append.mp hx with hLeft | hLast
            · exact hRefused x hLeft
            · rw [List.mem_singleton.mp hLast]
              exact ⟨hOld, fun hWilling => hRes (hIff.mpr hWilling)⟩
          · intro x hx
            rcases hAll x hx with hLeft | hRight | hWilling
            · exact .inl (List.mem_append_left _ hLeft)
            · rcases List.mem_cons.mp hRight with hEq | hMem
              · subst hEq
                exact .inl (List.mem_append_right _ (List.mem_singleton_self x))
              · exact .inr (.inl hMem)
            · exact .inr (.inr hWilling)
          · intro x hx
            obtain ⟨hxs, hxNe⟩ := hRestOf x hx
            have hStart := hRest x (List.mem_cons_of_mem _ hx)
            exact ⟨hStart.1, hStart.2.trans (hr.kept x hxs hxNe)⟩
          · show t.allJobs.length - (i + 1) < s.allJobs.length - i
            omega
  · rw [cmdExecTurn_done hi]
    have hNil : rest = [] := by
      rw [hLimit, hSplit, List.length_append] at hi
      exact List.eq_nil_of_length_eq_zero (by omega)
    subst hNil
    refine ⟨hGoing, ?_⟩
    rw [hSplit, List.append_nil]
    constructor
    · intro hNil x hx
      rcases hAll x hx with hLeft | hRight | hWilling
      · rw [hNil] at hLeft
        cases hLeft
      · cases hRight
      · exact hWilling
    · intro hWilling
      refine List.eq_nil_iff_forall_not_mem.mpr fun x hx => ?_
      obtain ⟨hMem, hNot⟩ := hRefused x hx
      exact hNot (hWilling x hMem)

theorem cmdExecLoop_spec (hDeep : Deep (n + 1) s j) (hAsks : Asks env sig n ask)
    (hEnds : sig.ends) (h : Going j s s) :
    Yields Never
      (fun t => Going j s t ∧ (t.waiting j = [] ↔ ∀ x ∈ s.waiting j, Willing env sig s x))
      (loopOr .outOfFuel (Forest.cmdExecTurn ask j) (s.allJobs.length + 1)
        (0, (s.waiting j).length, s)) := by
  have hStart : CmdExecLoop env sig j s (0, (s.waiting j).length, s) :=
    ⟨h, rfl, [], s.waiting j, rfl, rfl, fun _ hx => absurd hx List.not_mem_nil,
      fun _ hx => .inr (.inl hx), fun x hx => ⟨hx, .refl s x⟩⟩
  have hBound : s.allJobs.length - 0 < s.allJobs.length + 1 := by omega
  exact Yields.loopOr (fun q : Nat × Nat × Forest => q.2.2.allJobs.length - q.1) .outOfFuel
    (cmdExecTurn_spec hDeep hAsks hEnds) hStart hBound

/-! ## The loop of `CopyJobEnv::AcceptSig` -/

/-- The states differ in what only the job `j` reads. -/
theorem Going.own (h : Going j s₀ s) (f : Nat → Bool) (g : Nat → Option Nat) (m : Nat → Nat)
    (hf : ∀ a, a ≠ j → f a = s.builtin a) (hg : ∀ a, a ≠ j → g a = s.cp a)
    (hm : ∀ a, a ≠ j → m a = s.asked a) :
    Going j s₀ { s with builtin := f, cp := g, asked := m }
      ∧ ∀ x, Under s.Up x j → Untouched s { s with builtin := f, cp := g, asked := m } x := by
  have hNe : ∀ a, ¬ Below s.Up a j → a ≠ j := fun a hNot hEq => hNot (hEq ▸ .refl)
  constructor
  · refine h.next ?_ { Within.refl j s with builtin := ?_, cp := ?_, asked := ?_ }
    · exact ⟨h.inv.nodup, h.inv.old, h.inv.dead, h.inv.node, h.inv.childNodup, h.inv.child,
        h.inv.linked, h.inv.awaited, h.inv.waitNodup, h.inv.marked, h.inv.former,
        h.inv.garbage⟩
    · exact fun a _ hNot => hf a (hNe a hNot)
    · exact fun a _ hNot => hg a (hNe a hNot)
    · exact fun a _ hNot => hm a (hNe a hNot)
  · intro x hx
    refine ⟨fun a => Below s.Up a x, .refl, fun a hBelow => ?_⟩
    have haj : a ≠ j := by
      intro hEq
      subst hEq
      exact h.acyclic a (.trans_right hBelow hx)
    exact ⟨⟨rfl, hf a haj, hg a haj, hm a haj, rfl⟩,
      fun y hy => .head (h.inv.wait_up hy) hBelow⟩

/-- As long as everything asked has given way, `passed` are the members left out so far. -/
def Walked (env : Env) (sig : Sig) (j : Nat) (s₀ s : Forest) (i : Nat) : Prop :=
  ∃ passed rest, s.waiting j = passed ++ rest
    ∧ (passed.length = i ∨ rest = [] ∧ passed.length ≤ i)
    ∧ odds (s₀.waiting j) = passed ++ odds rest
    ∧ (∀ x ∈ evens (s₀.waiting j), x ∈ evens rest ∨ Willing env sig s₀ x)
    ∧ (∀ x ∈ evens rest, x ∈ evens (s₀.waiting j))
    ∧ ∀ x ∈ passed ++ rest, Untouched s₀ s x

structure CopyLoop (env : Env) (sig : Sig) (j : Nat) (s₀ : Forest)
    (q : Nat × Answer × Forest) : Prop where
  going : Going j s₀ q.2.2
  walk : sig.ends → q.2.1 = .wantDie ∧ Walked env sig j s₀ q.2.2 q.1
    ∨ q.2.1 ≠ .wantDie ∧ ∃ x ∈ evens (s₀.waiting j), ¬ Willing env sig s₀ x

/-- What the loop leaves with. -/
structure Copied (env : Env) (sig : Sig) (j : Nat) (s₀ : Forest) (r : Answer × Forest) :
    Prop where
  going : Going j s₀ r.2
  willing : sig.ends → (r.1 = .wantDie ↔ ∀ x ∈ evens (s₀.waiting j), Willing env sig s₀ x)
  left : sig.ends → r.1 = .wantDie → r.2.waiting j = odds (s₀.waiting j)
    ∧ ∀ x ∈ odds (s₀.waiting j), Untouched s₀ r.2 x

theorem copyJobEnvTurn_none {i : Nat} {total : Answer} (h : (s.waiting j)[i]? = none) :
    Forest.copyJobEnvTurn ask j (i, total, s) = .ok (.inr (total, s)) := by
  simp [Forest.copyJobEnvTurn, h]

/-- The deleted copy job is not shown any more. -/
def unshown (s : Forest) (j w : Nat) : Forest :=
  if s.cp j = some w then { s with cp := update s.cp j none } else s

theorem copyJobEnvTurn_some {i : Nat} {total : Answer} (h : (s.waiting j)[i]? = some w) :
    Forest.copyJobEnvTurn ask j (i, total, s) = (do
      let r ← ask s w
      match r.1 with
      | .wantDie =>
          let t ← r.2.drop j w
          return .inl (i + 1, total, unshown t j w)
      | .moved => return .inl (i + 1, .moved, r.2)
      | .stall => return .inl (i + 1, if total = .wantDie then .moved else total, r.2)) := by
  simp only [Forest.copyJobEnvTurn, h]
  rfl

theorem Going.unshown (h : Going j s₀ s) (w : Nat) : Going j s₀ (unshown s j w)
    ∧ ∀ x, Under s.Up x j → Untouched s (unshown s j w) x := by
  unfold Job.unshown
  split
  · exact h.own s.builtin (update s.cp j none) s.asked (fun _ _ => rfl)
      (fun a ha => update_of_ne ha _ _) fun _ _ => rfl
  · exact ⟨h, fun x _ => .refl s x⟩

theorem unshown_waiting (s : Forest) (j w : Nat) : (unshown s j w).waiting = s.waiting := by
  unfold unshown
  split <;> rfl

theorem unshown_allJobs (s : Forest) (j w : Nat) : (unshown s j w).allJobs = s.allJobs := by
  unfold unshown
  split <;> rfl

theorem Walked.done {i : Nat} (h : Walked env sig j s₀ s i) (hAt : (s.waiting j)[i]? = none) :
    (∀ x ∈ evens (s₀.waiting j), Willing env sig s₀ x) ∧ s.waiting j = odds (s₀.waiting j)
      ∧ ∀ x ∈ odds (s₀.waiting j), Untouched s₀ s x := by
  obtain ⟨passed, rest, hSplit, hPlace, hOdds, hEvens, -, hKept⟩ := h
  have hNil : rest = [] := by
    rcases hPlace with hPlace | ⟨hNil, -⟩
    · rw [List.getElem?_eq_none_iff, hSplit, List.length_append] at hAt
      exact List.eq_nil_of_length_eq_zero (by omega)
    · exact hNil
  subst hNil
  have hPassed : odds (s₀.waiting j) = passed := by simpa [odds] using hOdds
  refine ⟨fun x hx => ?_, by rw [hSplit, hPassed, List.append_nil], fun x hx => ?_⟩
  · rcases hEvens x hx with hMem | hWilling
    · cases hMem
    · exact hWilling
  · rw [hPassed] at hx
    exact hKept x (List.mem_append_left _ hx)

/-- The job at `i` is the next one that counts. -/
theorem Walked.at {i : Nat} (h : Walked env sig j s₀ s i) (hAt : (s.waiting j)[i]? = some w) :
    ∃ passed rest, s.waiting j = passed ++ w :: rest ∧ passed.length = i
      ∧ odds (s₀.waiting j) = passed ++ odds (w :: rest)
      ∧ (∀ x ∈ evens (s₀.waiting j), x ∈ evens (w :: rest) ∨ Willing env sig s₀ x)
      ∧ (∀ x ∈ evens (w :: rest), x ∈ evens (s₀.waiting j))
      ∧ ∀ x ∈ passed ++ w :: rest, Untouched s₀ s x := by
  obtain ⟨passed, rest, hSplit, hPlace, hOdds, hEvens, hBack, hKept⟩ := h
  rw [hSplit] at hAt
  rcases hPlace with hPlace | ⟨hNil, hLe⟩
  · rw [← hPlace, List.getElem?_append_right (Nat.le_refl _), Nat.sub_self] at hAt
    cases rest with
    | nil => cases hAt
    | cons y rest =>
        cases Option.some.inj hAt
        exact ⟨passed, rest, hSplit, hPlace, hOdds, hEvens, hBack, hKept⟩
  · rw [hNil, List.append_nil, List.getElem?_eq_none hLe] at hAt
    cases hAt

theorem head_mem_evens (w : Nat) (l : List Nat) : w ∈ evens (w :: l) := by
  cases l <;> simp [evens]

/-- It goes, and the one that takes its place is left out. -/
theorem Walked.next {i : Nat} (h : Walked env sig j s₀ s i) (hAt : (s.waiting j)[i]? = some w)
    (hNodup : (s.waiting j).Nodup) (hWilling : Willing env sig s₀ w)
    (hList : u.waiting j = (s.waiting j).erase w)
    (hUntouched : ∀ x ∈ s.waiting j, x ≠ w → Untouched s u x) :
    Walked env sig j s₀ u (i + 1) := by
  obtain ⟨passed, rest, hSplit, hPlace, hOdds, hEvens, hBack, hKept⟩ := h.at hAt
  rw [hSplit] at hNodup hList hUntouched
  obtain ⟨-, hTail, hApart⟩ := List.nodup_append.mp hNodup
  have hNotLeft : w ∉ passed := fun hMem => hApart w hMem w List.mem_cons_self rfl
  have hNotRight : w ∉ rest := (List.nodup_cons.mp hTail).1
  rw [List.erase_append_right _ hNotLeft, List.erase_cons_head] at hList
  have hAll : ∀ x ∈ passed ++ rest, Untouched s₀ u x := by
    intro x hx
    have hMem : x ∈ passed ++ w :: rest := by
      rcases List.mem_append.mp hx with hLeft | hRight
      · exact List.mem_append_left _ hLeft
      · exact List.mem_append_right _ (List.mem_cons_of_mem _ hRight)
    have hNe : x ≠ w := by
      intro hEq
      subst hEq
      exact (List.mem_append.mp hx).elim hNotLeft hNotRight
    exact (hKept x hMem).trans (hUntouched x hMem hNe)
  cases rest with
  | nil =>
      refine ⟨passed, [], hList, .inr ⟨rfl, by omega⟩, hOdds, ?_, ?_, hAll⟩
      · intro x hx
        rcases hEvens x hx with hMem | hOther
        · rw [List.mem_singleton.mp hMem]
          exact .inr hWilling
        · exact .inr hOther
      · exact fun x hx => absurd hx List.not_mem_nil
  | cons z rest =>
      refine ⟨passed ++ [z], rest, ?_, .inl (by simp [hPlace]), ?_, ?_, ?_, ?_⟩
      · rw [hList, List.append_assoc]
        rfl
      · rw [hOdds, List.append_assoc]
        rfl
      · intro x hx
        rcases hEvens x hx with hMem | hOther
        · rcases List.mem_cons.mp hMem with hEq | hRest
          · rw [hEq]
            exact .inr hWilling
          · exact .inl hRest
        · exact .inr hOther
      · exact fun x hx => hBack x (List.mem_cons_of_mem _ hx)
      · intro x hx
        rw [List.append_assoc] at hx
        exact hAll x hx

theorem copyJobEnvTurn_spec (hDeep : Deep (n + 1) s₀ j) (hAsks : Asks env sig n ask)
    (q : Nat × Answer × Forest) (h : CopyLoop env sig j s₀ q) :
    Yields Never (Sum.elim (fun q' => CopyLoop env sig j s₀ q'
        ∧ q'.2.2.allJobs.length - q'.1 < q.2.2.allJobs.length - q.1) (Copied env sig j s₀))
      (Forest.copyJobEnvTurn ask j q) := by
  obtain ⟨i, total, s⟩ := q
  obtain ⟨hGoing, hWalk⟩ := h
  dsimp only at hGoing hWalk
  cases hAt : (s.waiting j)[i]? with
  | none =>
      rw [copyJobEnvTurn_none hAt]
      refine ⟨hGoing, fun hEnds => ?_, fun hEnds hTotal => ?_⟩
      · rcases hWalk hEnds with ⟨hTotal, hWalked⟩ | ⟨hTotal, x, hx, hNot⟩
        · exact iff_of_true hTotal (hWalked.done hAt).1
        · exact iff_of_false hTotal fun hAll => hNot (hAll x hx)
      · rcases hWalk hEnds with ⟨-, hWalked⟩ | ⟨hNot, -⟩
        · exact (hWalked.done hAt).2
        · exact absurd hTotal hNot
  | some w =>
      have hw : w ∈ s.waiting j := List.mem_of_getElem? hAt
      have hLength : i < s.allJobs.length :=
        (List.getElem?_eq_some_iff.mp hAt).1.trans_le (hGoing.inv.waiting_le j)
      rw [copyJobEnvTurn_some hAt]
      refine (hGoing.asked hDeep hAsks hw).bind fun r hr => ?_
      obtain ⟨res, t⟩ := r
      have hSame : t.waiting j = s.waiting j := hr.same.waiting
      have hJobs : t.allJobs.length ≤ s.allJobs.length := hr.jobs
      -- A job that does not give way decides the answer.
      have hRefused : ∀ total', total' ≠ .wantDie → res ≠ .wantDie →
          CopyLoop env sig j s₀ (i + 1, total', t)
            ∧ t.allJobs.length - (i + 1) < s.allJobs.length - i := by
        intro total' hTotal' hRes
        refine ⟨⟨hr.going, fun hEnds => .inr ⟨hTotal', ?_⟩⟩, by omega⟩
        rcases hWalk hEnds with ⟨-, hWalked⟩ | ⟨-, hExists⟩
        · obtain ⟨passed, rest, -, -, -, -, hBack, hKept⟩ := hWalked.at hAt
          refine ⟨w, hBack w (head_mem_evens w rest), fun hWilling => hRes ?_⟩
          have hUntouched := hKept w (List.mem_append_right _ List.mem_cons_self)
          exact (hr.willing hEnds).mpr (hUntouched.willing_iff.mpr hWilling)
        · exact hExists
      cases res with
      | moved => exact hRefused .moved (fun hEq => nomatch hEq) fun hEq => nomatch hEq
      | stall =>
          refine hRefused _ ?_ fun hEq => nomatch hEq
          split
          · exact fun hEq => nomatch hEq
          · assumption
      | wantDie =>
          refine (hr.going.dropped (hSame ▸ hw)).bind fun u hu => ?_
          obtain ⟨hNext, hLess, hList, -, hKept⟩ := hu
          obtain ⟨hShown, hOwn⟩ := hNext.unshown w
          refine ⟨⟨hShown, fun hEnds => ?_⟩, ?_⟩
          · rcases hWalk hEnds with ⟨hTotal, hWalked⟩ | hRefusedBefore
            · refine .inl ⟨hTotal, ?_⟩
              obtain ⟨passed, rest, -, -, -, -, -, hUntouched⟩ := hWalked.at hAt
              have hWilling : Willing env sig s₀ w :=
                (hUntouched w (List.mem_append_right _ List.mem_cons_self)).willing_iff.mp
                  ((hr.willing hEnds).mp rfl)
              refine hWalked.next hAt (hGoing.inv.waitNodup j (Set.notMem_empty j)) hWilling ?_ ?_
              · show (unshown u j w).waiting j = _
                rw [unshown_waiting, hList, hSame]
              · intro x hx hNe
                have hxt : x ∈ t.waiting j := hSame ▸ hx
                have hxu : x ∈ u.waiting j := by
                  rw [hList]
                  exact (List.mem_erase_of_ne hNe).mpr hxt
                exact ((hr.kept x hx hNe).trans (hKept x hxt hNe)).trans
                  (hOwn x (.single (hNext.inv.wait_up hxu)))
            · exact .inr hRefusedBefore
          · show (unshown u j w).allJobs.length - (i + 1) < s.allJobs.length - i
            rw [unshown_allJobs]
            dsimp only at hLess
            omega

theorem copyJobEnvLoop_spec (hDeep : Deep (n + 1) s j) (hAsks : Asks env sig n ask)
    (h : Going j s s) :
    Yields Never (Copied env sig j s)
      (loopOr .outOfFuel (Forest.copyJobEnvTurn ask j) (s.allJobs.length + 1)
        (0, if sig.ends then .wantDie else .stall, s)) := by
  have hStart : CopyLoop env sig j s (0, if sig.ends then .wantDie else .stall, s) := by
    refine ⟨h, fun hEnds => .inl ⟨if_pos hEnds, [], s.waiting j, rfl, .inl rfl, rfl, ?_, ?_, ?_⟩⟩
    · exact fun _ hx => .inl hx
    · exact fun _ hx => hx
    · exact fun x _ => .refl s x
  have hBound : s.allJobs.length - 0 < s.allJobs.length + 1 := by omega
  exact Yields.loopOr (fun q : Nat × Answer × Forest => q.2.2.allJobs.length - q.1) .outOfFuel
    (copyJobEnvTurn_spec hDeep hAsks) hStart hBound

/-! ## `AcceptSig` -/

/-- An answer that leaves the lists alone. -/
theorem Going.answered (h : Going j s u) (ans : Answer)
    (hWilling : sig.ends → s.parent j ≠ none → (ans = .wantDie ↔ Willing env sig s j))
    (hWaiting : u.waiting j = s.waiting j)
    (hUntouched : ∀ x ∈ s.waiting j, Untouched s u x)
    (hGives : sig.ends → Gives env sig s j → ∀ x ∈ s.waiting j, Gives env sig s x)
    (hCleared : sig.ends → s.parent j ≠ none → ans = .wantDie → Clears env sig s j →
      s.waiting j = []) : Answered env sig j s (ans, u) where
  inv := h.inv
  within := h.within
  willing := hWilling
  gives hEnds hj x hx := by
    have hx : x ∈ s.waiting j := hWaiting ▸ hx
    exact (hUntouched x hx).gives (hGives hEnds hj x hx)
  cleared hEnds hParent hAns hClears := hWaiting.trans (hCleared hEnds hParent hAns hClears)

theorem cmdExec_spec (hDeep : Deep (n + 1) s j) (hAsks : Asks env sig n ask)
    (hKind : s.kind j = .cmdExec) (h : Going j s s) :
    Yields Never (Answered env sig j s) (Forest.acceptSigBy ask env s j sig) := by
  have hParts : Willing env sig s j ↔
      s.builtin j = false ∧ ∀ x ∈ s.waiting j, Willing env sig s x := by
    constructor
    · intro hWilling
      cases hWilling with
      | cmdExec _ hBuiltin hAll => exact ⟨hBuiltin, hAll⟩
      | _ hOther => simp [hKind] at hOther
    · exact fun ⟨hBuiltin, hAll⟩ => .cmdExec hKind hBuiltin hAll
  have hUnder : ∀ x ∈ s.waiting j, Under s.Up x j := fun x hx => .single (h.inv.wait_up hx)
  unfold Forest.acceptSigBy
  rw [hKind]
  dsimp only
  by_cases hEnds : sig.ends = true
  · rw [if_neg (by simp [hEnds])]
    by_cases hBuiltin : s.builtin j = true
    · rw [if_pos hBuiltin]
      obtain ⟨hOwn, hUntouched⟩ := h.own (update s.builtin j false) s.cp s.asked
        (fun a ha => update_of_ne ha _ _) (fun _ _ => rfl) fun _ _ => rfl
      have hNot : ¬ Willing env sig s j := fun hWilling => by simp [hParts, hBuiltin] at hWilling
      refine hOwn.answered .moved ?_ rfl (fun x hx => hUntouched x (hUnder x hx)) ?_ ?_
      · exact fun _ _ => iff_of_false (fun hEq => nomatch hEq) hNot
      · exact fun _ hGives => absurd hGives.willing hNot
      · exact fun _ _ hEq => nomatch hEq
    · rw [if_neg hBuiltin]
      have hFalse : s.builtin j = false := Bool.eq_false_iff.mpr hBuiltin
      by_cases hEmpty : s.waiting j = []
      · rw [if_neg (by simp [hEmpty])]
        have hWilling : Willing env sig s j := hParts.mpr ⟨hFalse, by simp [hEmpty]⟩
        by_cases hParent : s.parent j = none
        · rw [if_neg (by simp [hParent])]
          refine h.answered .stall ?_ rfl (fun x _ => .refl s x) ?_ ?_
          · exact fun _ hSome => absurd hParent hSome
          · exact fun _ _ x hx => by simp [hEmpty] at hx
          · exact fun _ _ _ _ => hEmpty
        · rw [if_pos hParent]
          refine h.answered .wantDie ?_ rfl (fun x _ => .refl s x) ?_ ?_
          · exact fun _ _ => iff_of_true rfl hWilling
          · exact fun _ _ x hx => by simp [hEmpty] at hx
          · exact fun _ _ _ _ => hEmpty
      · rw [if_pos hEmpty]
        refine (cmdExecLoop_spec hDeep hAsks hEnds h).bind fun t ht => ?_
        obtain ⟨hGoing, hIff⟩ := ht
        have hStill : t.parent j = s.parent j :=
          hGoing.within.parent j hGoing.stays (h.start j)
        by_cases hDone : t.waiting j = [] ∧ t.parent j ≠ none
        · rw [if_pos hDone]
          refine ⟨hGoing.inv, hGoing.within, fun _ _ => ?_, fun _ _ x hx => ?_, fun _ _ _ _ => ?_⟩
          · exact iff_of_true rfl (hParts.mpr ⟨hFalse, hIff.mp hDone.1⟩)
          · simp [hDone.1] at hx
          · exact hDone.1
        · rw [if_neg hDone]
          refine ⟨hGoing.inv, hGoing.within, fun _ hParent => ?_, fun _ hGives => ?_,
            fun _ _ hEq => nomatch hEq⟩
          · refine iff_of_false (fun hEq => nomatch hEq) fun hWilling => hDone ?_
            exact ⟨hIff.mpr (hParts.mp hWilling).2, hStill ▸ hParent⟩
          · intro x hx
            have hNil : t.waiting j = [] := hIff.mpr (hParts.mp hGives.willing).2
            simp [hNil] at hx
  · have hOff : sig.ends = false := Bool.eq_false_iff.mpr hEnds
    rw [if_pos (by simp [hOff])]
    exact h.answered .stall (fun hOn => absurd hOn hEnds) rfl (fun x _ => .refl s x)
      (fun hOn => absurd hOn hEnds) fun hOn => absurd hOn hEnds

theorem odds_eq_nil {l : List Nat} (h : l.length ≤ 1) : odds l = [] := by
  cases l with
  | nil => rfl
  | cons x l =>
      have hNil : l = [] := List.eq_nil_of_length_eq_zero (by simpa using h)
      rw [hNil]
      rfl

theorem copyJobEnv_spec (hDeep : Deep (n + 1) s j) (hAsks : Asks env sig n ask)
    (hKind : s.kind j = .copyJobEnv) (h : Going j s s) :
    Yields Never (Answered env sig j s) (Forest.acceptSigBy ask env s j sig) := by
  unfold Forest.acceptSigBy
  rw [hKind]
  dsimp only
  by_cases hCp : s.cp j = none
  · rw [if_pos hCp]
    refine h.answered _ ?_ rfl (fun x _ => .refl s x) ?_ ?_
    · intro hEnds _
      rw [if_pos hEnds]
      exact iff_of_true rfl (.idle hKind hCp)
    · intro _ hGives
      cases hGives with
      | idle _ _ hAll => exact hAll
      | copyJobEnv _ hSome _ _ => exact absurd hCp hSome
      | _ hOther => simp [hKind] at hOther
    · intro _ _ _ hClears
      simpa [Clears, hKind, hCp] using hClears
  · rw [if_neg hCp]
    refine (copyJobEnvLoop_spec hDeep hAsks h).bind fun r hr => ?_
    obtain ⟨total, t⟩ := r
    have hParts : Willing env sig s j ↔ ∀ x ∈ evens (s.waiting j), Willing env sig s x := by
      constructor
      · intro hWilling
        cases hWilling with
        | idle _ hNone => exact absurd hNone hCp
        | copyJobEnv _ _ hAll => exact hAll
        | _ hOther => simp [hKind] at hOther
      · exact fun hAll => .copyJobEnv hKind hCp hAll
    -- Whether another copy job is shown does not matter to the lists.
    have hShown : ∀ u, Going j s u → u.waiting = t.waiting →
        (∀ x, Under t.Up x j → Untouched t u x) → Answered env sig j s (total, u) := by
      intro u hGoing hWaiting hOwn
      constructor
      · exact hGoing.inv
      · exact hGoing.within
      · exact fun hEnds _ => (hr.willing hEnds).trans hParts.symm
      · intro hEnds hGives x hx
        have hTotal : total = .wantDie :=
          (hr.willing hEnds).mpr (hParts.mp hGives.willing)
        obtain ⟨hList, hKept⟩ := hr.left hEnds hTotal
        have hxt : x ∈ t.waiting j := hWaiting ▸ hx
        have hUnder : Under t.Up x j := .single (hr.going.inv.wait_up hxt)
        have hOdd : x ∈ odds (s.waiting j) := by
          rw [← hList]
          exact hxt
        refine ((hKept x hOdd).trans (hOwn x hUnder)).gives ?_
        cases hGives with
        | idle _ hNone _ => exact absurd hNone hCp
        | copyJobEnv _ _ _ hLeft => exact hLeft x hOdd
        | _ hOther => simp [hKind] at hOther
      · intro hEnds _ hTotal hClears
        have hClears : (∀ x ∈ evens (s.waiting j), Willing env sig s x) →
            (s.waiting j).length ≤ 1 := by
          simpa [Clears, hKind, hCp] using hClears
        have hList := (hr.left hEnds hTotal).1
        rw [odds_eq_nil (hClears ((hr.willing hEnds).mp hTotal))] at hList
        show u.waiting j = []
        rw [hWaiting]
        exact hList
    dsimp only
    by_cases hNone : t.cp j = none
    · rw [if_pos hNone]
      obtain ⟨hOwn, hUntouched⟩ := hr.going.own t.builtin
        (update t.cp j (t.waiting j).head?) t.asked (fun _ _ => rfl)
        (fun a ha => update_of_ne ha _ _) fun _ _ => rfl
      exact hShown _ hOwn rfl hUntouched
    · rw [if_neg hNone]
      exact hShown t hr.going rfl fun x _ => .refl t x

theorem acceptSigBy_spec (hDeep : Deep (n + 1) s j) (hAsks : Asks env sig n ask)
    (h : Going j s s) : Yields Never (Answered env sig j s) (Forest.acceptSigBy ask env s j sig) := by
  cases hKind : s.kind j with
  | job =>
      unfold Forest.acceptSigBy
      rw [hKind]
      exact jobLoop_spec hDeep hAsks hKind h
  | cmdExec => exact cmdExec_spec hDeep hAsks hKind h
  | copyJobEnv => exact copyJobEnv_spec hDeep hAsks hKind h
  | other =>
      obtain ⟨hOwn, hUntouched⟩ := h.own s.builtin s.cp (update s.asked j (s.asked j + 1))
        (fun _ _ => rfl) (fun _ _ => rfl) fun a ha => update_of_ne ha _ _
      unfold Forest.acceptSigBy
      rw [hKind]
      refine hOwn.answered _ ?_ rfl
        (fun x hx => hUntouched x (.single (h.inv.wait_up hx))) ?_ ?_
      · intro _ _
        constructor
        · exact fun hAnswer => .other hKind hAnswer
        · intro hWilling
          cases hWilling with
          | other _ hAnswer => exact hAnswer
          | _ hOther => simp [hKind] at hOther
      · intro _ hGives
        cases hGives with
        | other _ _ hAll => exact hAll
        | _ hOther => simp [hKind] at hOther
      · intro _ _ hAnswer hClears
        have hClears : env.answer j (s.asked j) sig = .wantDie → s.waiting j = [] := by
          simpa [Clears, hKind] using hClears
        exact hClears hAnswer

theorem acceptSigN_spec (env : Env) (sig : Sig) (n : Nat) :
    Asks env sig n (Forest.acceptSigN env sig n) := by
  induction n with
  | zero =>
      intro s j _ _ _ hDeep
      exact absurd (hDeep [] List.nodup_nil fun _ hx => absurd hx List.not_mem_nil)
        (Nat.not_lt_zero _)
  | succ n ih =>
      intro s j hInv hAcyclic hj hDeep
      exact acceptSigBy_spec hDeep ih ⟨hAcyclic, hj, hInv, .refl j s⟩

theorem under_mem (h : Under s.Up x j) : x ∈ s.allJobs := by
  obtain ⟨p, hUp, -⟩ := TransGen.head'_iff.mp h
  exact hUp.1

/-- A signal passes through the forest without a fault, whatever the jobs answer. -/
theorem acceptSig_spec (env : Env) (sig : Sig) (hInv : Inv ∅ s) (hAcyclic : Acyclic s.Up)
    (hj : j ∈ s.allJobs) :
    Yields Never (Answered env sig j s) (Forest.acceptSig env s j sig) := by
  refine acceptSigN_spec env sig _ s j hInv hAcyclic hj fun l hNodup hUnder => ?_
  have hLe := (List.subperm_of_subset hNodup fun x hx => under_mem (hUnder x hx)).length_le
  exact Nat.lt_succ_of_le hLe

end Lftp.Ports.Job
