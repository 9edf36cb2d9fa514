import Lftp.Ports.JobAnswers
import Lftp.Verified.Runs

/-!
# Runs over the forest of jobs

`Kill` puts a job of the class `KilledJob` in the place of a job that is awaited. The
substitute takes over the list of awaited jobs as it is: these stay children of the
killed job, and those without a number die with it. So the substitute waits for
deleted jobs, unless the killed job waits for nothing once it has accepted the signal.

`Kept` is that condition, with the one that no operation closes a loop or takes a job
from the one that waits for it. The main result is `forest_sound`.
-/

namespace Lftp.Ports.Job

open Lftp.Verified Relation
open Function (update update_self update_of_ne update_eq_self)

/-! ## Operations -/

namespace Forest

def replaceWaiting (s : Forest) (a x y : Nat) : Forest :=
  { s with waiting := update s.waiting a ((s.waiting a).replace x y) }

/-- A new `KilledJob` takes the place of `j`, for which its parent `p` waits. -/
def substitute (s : Forest) (p j : Nat) : Except Fault Forest := do
  let r := s.fresh
  let s := s.new .job
  let s := { s with parent := update s.parent r (some p) }
  let s ← s.link p r
  let s ← s.unlink j
  let s := { s with waiting := update (update s.waiting r (s.waiting j)) j [] }
  return s.replaceWaiting p j r

def kill (env : Env) (s : Forest) (j : Nat) : Except Fault Forest := do
  let (res, s) ← s.acceptSig env j .term
  if res ≠ .wantDie then return s
  else
    let s ← match s.parent j with
      | some p => if j ∈ s.waiting p then s.substitute p j else pure s
      | none => pure s
    if (s.findWhoWaitsFor j).isSome then .error .kill
    else s.deleteLater j

def allocJobno (s : Forest) (j : Nat) : Forest :=
  { s with
    jobno := update s.jobno j
      (s.allJobs.foldl (fun n scan => if scan ≠ j ∧ n ≤ s.jobno scan then s.jobno scan + 1 else n)
        0) }

/-- No jobs yet. -/
def empty : Forest where
  allJobs := []
  parent _ := none
  childrenJobs _ := []
  node _ := none
  waiting _ := []
  jobno _ := -1
  deleting _ := false
  deletedTasks := []
  kind _ := .job
  builtin _ := false
  cp _ := none
  asked _ := 0
  fresh := 0

end Forest

inductive Op
  | new (kind : Kind)
  | allocJobno (j : Nat)
  | addWaiting (a j : Nat)
  | removeWaiting (a j : Nat)
  | setParent (j : Nat) (p : Option Nat)
  | kill (j : Nat)
  | acceptSig (j : Nat) (sig : Sig)
  | deleteLater (j : Nat)
  | buryDoneJobs (this : Nat) (done held : Nat → Bool)
  | collectGarbage (held : Nat → Bool)
  /-- The job `j` runs, starts a builtin or shows another copy job. -/
  | own (j : Nat) (builtin : Bool) (cp : Option Nat)

def Forest.act (env : Env) (s : Forest) : Op → Except Fault Forest
  | .new kind => .ok (s.new kind)
  | .allocJobno j => .ok (s.allocJobno j)
  | .addWaiting a j => s.addWaiting a j
  | .removeWaiting a j => .ok (s.removeWaiting a j)
  | .setParent j p => s.setParent j p
  | .kill j => s.kill env j
  | .acceptSig j sig => do
    let (_, s) ← s.acceptSig env j sig
    return s
  | .deleteLater j => s.deleteLater j
  | .buryDoneJobs this done held => s.buryDoneJobs this done held
  | .collectGarbage held => s.collectGarbage held
  | .own j builtin cp => .ok { s with
      builtin := update s.builtin j builtin
      cp := update s.cp j cp }

/-- The operations are called on jobs that are there, and `AddWaiting` with a job that
nobody waits for. -/
def Admits (s : Forest) : Op → Prop
  | .new _ => True
  | .allocJobno j => j ∈ s.allJobs
  | .addWaiting a j => a ∈ s.allJobs ∧ j ∈ s.allJobs ∧ s.findWhoWaitsFor j = none
  | .removeWaiting a _ => a ∈ s.allJobs
  | .setParent j p => j ∈ s.allJobs ∧ ∀ g, p = some g → g ∈ s.allJobs
  | .kill j => j ∈ s.allJobs
  | .acceptSig j _ => j ∈ s.allJobs
  | .deleteLater j => j ∈ s.allJobs ∨ j ∈ s.deletedTasks
  | .buryDoneJobs this _ _ => this ∈ s.allJobs
  | .collectGarbage _ => True
  | .own j _ _ => j ∈ s.allJobs

/-- No loop is closed, a job that is awaited keeps its parent, and a job that is killed
while its parent waits for it is left waiting for nothing by the signal. -/
def Kept (env : Env) (s : Forest) : Op → Prop
  | .addWaiting a j => ¬ Below s.Up a j
  | .setParent j p => (∀ a, j ∈ s.waiting a → p = some a) ∧ ∀ g, p = some g → ¬ Below s.Up g j
  | .kill j => ∀ p, s.parent j = some p → j ∈ s.waiting p → Clears env .term s j
  | _ => True

/-- A step by an operation that meets `ok`. -/
def Step (env : Env) (ok : Forest → Op → Prop) (s : Forest) (o : Op) (t : Forest) : Prop :=
  ok s o ∧ s.act env o = .ok t

/-- A job is awaited by its parent only and once, parents and lists of children agree,
and nobody waits for a job that was asked to die. -/
structure Sound (s : Forest) : Prop where
  owner : ∀ a x, x ∈ s.waiting a → s.parent x = some a
  once : ∀ a, (s.waiting a).Nodup
  listed : ∀ x p, x ∈ s.childrenJobs p → x ∈ s.allJobs ∧ s.parent x = some p
  linked : ∀ x p, x ∈ s.allJobs → s.parent x = some p → x ∈ s.childrenJobs p
  alive : ∀ a x, x ∈ s.waiting a → s.deleting x = false

variable {X : Set Nat} {s t u : Forest} {a b d j k x y p w : Nat} {env : Env} {sig : Sig}

/-! ## What the operations keep -/

/-- The forest is in order and has no loops. -/
structure Fine (s : Forest) : Prop where
  inv : Inv ∅ s
  acyclic : Acyclic s.Up

theorem Inv.fresh_notMem (h : Inv ∅ s) : s.fresh ∉ s.allJobs :=
  fun hMem => Nat.lt_irrefl _ (h.old _ hMem)

theorem Fine.sound (h : Fine s) : Sound s where
  owner _ _ hx := (h.inv.wait_up hx).2
  once a := h.inv.waitNodup a (Set.notMem_empty a)
  listed := h.inv.child
  linked x p hx := h.inv.linked x p hx (Set.notMem_empty x)
  alive _ _ hx := h.inv.alive (h.inv.wait_mem hx)

theorem Inv.new (h : Inv ∅ s) (kind : Kind) : Inv ∅ (s.new kind) := by
  have hFresh := h.fresh_notMem
  have hNe : ∀ x ∈ s.allJobs, x ≠ s.fresh := fun x hx hEq => hFresh (hEq ▸ hx)
  have hChild : ∀ x p, x ∈ (s.new kind).childrenJobs p ↔ x ∈ s.childrenJobs p := by
    intro x p
    by_cases hp : p = s.fresh
    · rw [hp, (h.dead s.fresh hFresh).2]
      simp [Forest.new]
    · simp [Forest.new, hp]
  have hWait : ∀ x a, x ∈ (s.new kind).waiting a ↔ x ∈ s.waiting a := by
    intro x a
    by_cases ha : a = s.fresh
    · rw [ha, (h.dead s.fresh hFresh).1]
      simp [Forest.new]
    · simp [Forest.new, ha]
  have hParent : ∀ x ∈ s.allJobs, (s.new kind).parent x = s.parent x :=
    fun x hx => update_of_ne (hNe x hx) _ _
  constructor
  · exact List.nodup_cons.mpr ⟨hFresh, h.nodup⟩
  · intro x hx
    show x < s.fresh + 1
    rcases List.mem_cons.mp hx with hEq | hMem
    · omega
    · have := h.old x hMem
      omega
  · intro x hx
    have hOut : x ∉ s.allJobs := fun hMem => hx (List.mem_cons_of_mem _ hMem)
    have hDead := h.dead x hOut
    constructor
    · exact List.eq_nil_iff_forall_not_mem.mpr fun y hy => by
        simp [hWait, hDead.1] at hy
    · exact List.eq_nil_iff_forall_not_mem.mpr fun y hy => by
        simp [hChild, hDead.2] at hy
  · intro x p
    rw [hChild, ← h.node]
    by_cases hx : x = s.fresh
    · subst hx
      have hNone : s.node s.fresh ≠ some p :=
        fun hSome => hFresh (h.child _ _ ((h.node _ _).mp hSome)).1
      simp [Forest.new, hNone]
    · simp [Forest.new, hx]
  · intro p
    by_cases hp : p = s.fresh
    · simp [Forest.new, hp]
    · simpa [Forest.new, hp] using h.childNodup p
  · intro x p hx
    obtain ⟨hMem, hp⟩ := h.child x p ((hChild x p).mp hx)
    exact ⟨List.mem_cons_of_mem _ hMem, (hParent x hMem).trans hp⟩
  · intro x p hx hX hp
    rcases List.mem_cons.mp hx with hEq | hMem
    · subst hEq
      simp [Forest.new] at hp
    · rw [hParent x hMem] at hp
      exact (hChild x p).mpr (h.linked x p hMem hX hp)
  · intro a x hX hx
    obtain ⟨hMem, hp⟩ := h.awaited a x hX ((hWait x a).mp hx)
    exact ⟨List.mem_cons_of_mem _ hMem, (hParent x hMem).trans hp⟩
  · intro a hX
    by_cases ha : a = s.fresh
    · simp [Forest.new, ha]
    · simpa [Forest.new, ha] using h.waitNodup a hX
  · intro x hx
    rcases List.mem_cons.mp hx with hEq | hMem
    · subst hEq
      simp [Forest.new]
    · simpa [Forest.new, hNe x hMem] using h.marked x hMem
  · intro x hOld hGone
    have hOut : x ≠ s.fresh ∧ x ∉ s.allJobs :=
      ⟨fun hEq => hGone (hEq ▸ List.mem_cons_self), fun hMem => hGone (List.mem_cons_of_mem _ hMem)⟩
    have hLt : x < s.fresh := by
      have : x < s.fresh + 1 := hOld
      have := hOut.1
      omega
    simpa [Forest.new, hOut.1] using h.former x hLt hOut.2
  · intro x hx
    obtain ⟨hDel, hOld⟩ := h.garbage x hx
    exact ⟨by simpa [Forest.new, hOld.ne] using hDel, Nat.lt_succ_of_lt hOld⟩

/-- A new job is a root without children. -/
theorem new_up (h : Inv ∅ s) (kind : Kind) (hUp : (s.new kind).Up x p) : s.Up x p := by
  obtain ⟨hx, hp⟩ := hUp
  rcases List.mem_cons.mp hx with hEq | hMem
  · subst hEq
    simp [Forest.new] at hp
  · have hNe : x ≠ s.fresh := fun hEq => h.fresh_notMem (hEq ▸ hMem)
    exact ⟨hMem, by simpa [Forest.new, hNe] using hp⟩

theorem Fine.new (h : Fine s) (kind : Kind) : Fine (s.new kind) :=
  ⟨h.inv.new kind, h.acyclic.of_le fun _ _ hUp => .single (new_up h.inv kind hUp)⟩

theorem Fine.empty : Fine .empty := by
  refine ⟨?_, fun x hx => ?_⟩
  · constructor <;> simp [Forest.empty]
  · have hMem := under_mem hx
    cases hMem

/-- A job that is awaited by nobody may go elsewhere, if that closes no loop. -/
theorem Fine.rehome (h : Fine s) {q : Option Nat} (hk : k ∈ s.allJobs)
    (hq : ∀ g, q = some g → g ∈ s.allJobs ∧ ¬ Below s.Up g k)
    (hWaits : ∀ a, k ∈ s.waiting a → q = some a) : Fine (s.rehome q k) := by
  refine ⟨h.inv.rehome hk (fun g hg => (hq g hg).1) fun a _ => hWaits a, ?_⟩
  have hUp : ∀ x p, (s.rehome q k).Up x p → s.Up x p ∨ x = k ∧ q = some p := by
    intro x p ⟨hx, hp⟩
    by_cases hEq : x = k
    · subst hEq
      exact .inr ⟨rfl, by simpa [Forest.rehome] using hp⟩
    · exact .inl ⟨hx, by simpa [Forest.rehome, hEq] using hp⟩
  cases q with
  | none =>
      refine h.acyclic.of_le fun x p hEdge => ?_
      rcases hUp x p hEdge with hOld | ⟨-, hNone⟩
      · exact .single hOld
      · cases hNone
  | some g =>
      refine h.acyclic.attach (fun x p hEdge => ?_) (hq g rfl).2
      rcases hUp x p hEdge with hOld | ⟨hEq, hSome⟩
      · exact .inl hOld
      · exact .inr ⟨hEq, (Option.some.inj hSome).symm⟩

theorem Fine.removeWaiting (h : Fine s) (a x : Nat) : Fine (s.removeWaiting a x) :=
  ⟨h.inv.removeWaiting a x, h.acyclic⟩

theorem Fine.setParent (h : Fine s) {q : Option Nat} (hk : k ∈ s.allJobs)
    (hq : ∀ g, q = some g → g ∈ s.allJobs ∧ ¬ Below s.Up g k)
    (hWaits : ∀ a, k ∈ s.waiting a → q = some a) :
    Yields Never Fine (s.setParent k q) := by
  rw [Forest.setParent_eq h.inv]
  exact h.rehome hk hq hWaits

theorem Inv.free_of_find (h : Inv ∅ s) (hFree : s.findWhoWaitsFor x = none) (b : Nat) :
    x ∉ s.waiting b := by
  intro hx
  have hNot := List.find?_eq_none.mp hFree b (h.wait_owner hx)
  simp [hx] at hNot

theorem Forest.find_eq_none (hFree : ∀ b, x ∉ s.waiting b) : s.findWhoWaitsFor x = none := by
  unfold findWhoWaitsFor
  rw [List.find?_eq_none]
  intro b _
  simpa using hFree b

theorem Fine.addWaiting (h : Fine s) (ha : a ∈ s.allJobs) (hx : x ∈ s.allJobs)
    (hFree : s.findWhoWaitsFor x = none) (hLoop : ¬ Below s.Up a x) :
    Yields Never Fine (s.addWaiting a x) := by
  have hNobody := h.inv.free_of_find hFree
  rw [Forest.addWaiting_eq h.inv hNobody]
  have hHome : Fine (s.rehome (some a) x) := by
    refine h.rehome hx (fun g hg => ?_) fun b hb => absurd hb (hNobody b)
    cases hg
    exact ⟨ha, hLoop⟩
  exact ⟨h.inv.await ha hx hNobody, hHome.acyclic⟩

/-- A job that is deleted already is left alone. -/
theorem Fine.deleteLater (h : Fine s) (hx : x < s.fresh) :
    Yields Never (fun t => Fine t ∧ t.fresh = s.fresh) (s.deleteLater x) := by
  by_cases hMem : x ∈ s.allJobs
  · refine (deleteLater_spec (h.inv.doomed h.acyclic hMem)).imp fun t ht => ?_
    exact ⟨⟨ht.inv, h.acyclic.of_le (ht.pruned.shortens hMem)⟩, ht.pruned.fresh⟩
  · have hDel := h.inv.former x hx hMem
    unfold Forest.deleteLater Forest.deleteLaterN
    rw [if_pos hDel]
    exact ⟨h, rfl⟩

theorem Fine.acceptSig (h : Fine s) (env : Env) (sig : Sig) (hj : j ∈ s.allJobs) :
    Yields Never (fun r => Fine r.2) (s.acceptSig env j sig) :=
  (acceptSig_spec env sig h.inv h.acyclic hj).imp fun _ hr =>
    ⟨hr.inv, h.acyclic.of_le hr.within.shortens⟩

theorem Fine.collectGarbage (h : Fine s) (held : Nat → Bool) :
    Yields Never Fine (s.collectGarbage held) := by
  have hLoop : Yields Never (fun t => Fine t ∧ ∀ d ∈ ([] : List Nat), t.deleting d = true)
      (s.collectGarbage held) := by
    refine Yields.foldlM (I := fun l t => Fine t ∧ ∀ d ∈ l, t.deleting d = true) ?_
      ⟨h, fun d hd => (h.inv.garbage d hd).1⟩
    intro d l t ⟨ht, hDel⟩
    have hRest : ∀ d ∈ l, t.deleting d = true := fun x hx => hDel x (List.mem_cons_of_mem _ hx)
    by_cases hHeld : held d = true
    · rw [if_pos hHeld]
      exact ⟨ht, hRest⟩
    · rw [if_neg hHeld]
      have hGone : d ∉ t.allJobs := by
        intro hMem
        have hLive := ht.inv.alive hMem
        rw [hDel d List.mem_cons_self] at hLive
        cases hLive
      have hNode : t.node d = none := by
        refine Option.eq_none_iff_forall_ne_some.mpr fun p hp => hGone ?_
        exact (ht.inv.child d p ((ht.inv.node d p).mp hp)).1
      unfold Forest.destroy
      rw [if_neg (by simp [hGone, hNode])]
      refine ⟨⟨?_, ht.acyclic⟩, hRest⟩
      exact { ht.inv with garbage := fun x hx => ht.inv.garbage x (List.mem_of_mem_erase hx) }
  exact hLoop.imp fun _ ht => ht.1

theorem Fine.buryDoneJobs (h : Fine s) (this : Nat) (done held : Nat → Bool) :
    Yields Never Fine (s.buryDoneJobs this done held) := by
  unfold Forest.buryDoneJobs
  refine Yields.bind (Q := fun t => Fine t ∧ ∀ x ∈ ([] : List Nat), x < t.fresh) ?_
    fun t ht => ht.1.collectGarbage held
  refine Yields.foldlM (I := fun l t => Fine t ∧ ∀ x ∈ l, x < t.fresh) ?_
    ⟨h, fun x hx => h.inv.old x (List.mem_of_mem_filter hx)⟩
  intro x l t ⟨ht, hOld⟩
  refine (ht.deleteLater (hOld x List.mem_cons_self)).imp fun u ⟨hu, hFresh⟩ => ⟨hu, ?_⟩
  intro y hy
  rw [hFresh]
  exact hOld y (List.mem_cons_of_mem _ hy)

/-! ## The substitute of a killed job -/

/-- The node of a dying job is taken out of its list. -/
theorem Inv.unlinked (h : Inv (insert j X) s) : Inv (insert j X) { s with
    node := update s.node j none
    childrenJobs := fun p => (s.childrenJobs p).erase j } where
  nodup := h.nodup
  old := h.old
  dead x hx := ⟨(h.dead x hx).1, by simp [(h.dead x hx).2]⟩
  node x p := by
    by_cases hx : x = j
    · subst hx
      simp [(h.childNodup p).mem_erase_iff]
    · simp [hx, h.node, (h.childNodup p).mem_erase_iff]
  childNodup p := (h.childNodup p).erase j
  child x p hx := h.child x p (List.mem_of_mem_erase hx)
  linked x p hx hX hp := by
    have hNe : x ≠ j := fun hEq => hX (hEq ▸ Set.mem_insert j X)
    exact (List.mem_erase_of_ne hNe).mpr (h.linked x p hx hX hp)
  awaited := h.awaited
  waitNodup := h.waitNodup
  marked := h.marked
  former := h.former
  garbage := h.garbage

/-- The job `r` takes the place of `j` in the list of `p`. -/
def Forest.relieved (s : Forest) (p j r : Nat) : Forest :=
  { s with
    node := update s.node j none
    childrenJobs := fun p => (s.childrenJobs p).erase j
    waiting := update s.waiting p ((s.waiting p).replace j r) }

@[simp] theorem Forest.relieved_self (s : Forest) (p j r : Nat) :
    (s.relieved p j r).waiting p = (s.waiting p).replace j r := update_self _ _ _

theorem Forest.relieved_of_ne (s : Forest) (j r : Nat) (h : b ≠ p) :
    (s.relieved p j r).waiting b = s.waiting b := update_of_ne h _ _

/-- The forest with the substitute, when the killed job `j` waits for nothing. -/
def Forest.substituted (s : Forest) (p j : Nat) : Forest :=
  ((s.new .job).rehome (some p) s.fresh).relieved p j s.fresh

theorem Fine.hung (h : Fine s) (hp : p ∈ s.allJobs) :
    Fine ((s.new .job).rehome (some p) s.fresh) := by
  have hNew := h.new .job
  have hFresh := h.inv.fresh_notMem
  have hNeP : p ≠ s.fresh := fun hEq => hFresh (hEq ▸ hp)
  refine hNew.rehome List.mem_cons_self (fun g hg => ?_) fun a ha => ?_
  · cases hg
    refine ⟨List.mem_cons_of_mem _ hp, fun hBelow => ?_⟩
    rcases reflTransGen_iff_eq_or_transGen.mp hBelow with hEq | hUnder
    · exact hNeP hEq.symm
    · obtain ⟨y, -, hUp⟩ := TransGen.tail'_iff.mp hUnder
      have hOld := new_up h.inv .job hUp
      exact hFresh (h.inv.upper hOld.1 hOld.2)
  · have hUp := new_up h.inv .job (hNew.inv.wait_up ha)
    exact absurd hUp.1 hFresh

theorem substitute_eq (h : Fine s) (hj : j ∈ s.waiting p) (hNone : s.waiting j = []) :
    s.substitute p j = .ok (s.substituted p j) := by
  have hUp := h.inv.wait_up hj
  have hNe : j ≠ s.fresh := fun hEq => h.inv.fresh_notMem (hEq ▸ hUp.1)
  have hT := h.hung (h.inv.wait_owner hj)
  have hLink : Forest.link { s.new .job with
      parent := update (s.new .job).parent s.fresh (some p) } p s.fresh
      = .ok ((s.new .job).rehome (some p) s.fresh) := by
    rw [← Forest.setParent_eq (h.new .job).inv]
    simp [Forest.setParent, Forest.unlinkListed, Forest.new]
  have hNode : ((s.new .job).rehome (some p) s.fresh).node j = some p := by
    refine (hT.inv.node j p).mpr (hT.inv.linked j p ?_ (Set.notMem_empty j) ?_)
    · exact List.mem_cons_of_mem _ hUp.1
    · simp [Forest.rehome, Forest.new, hNe, hUp.2]
  have hWaiting : update (update ((s.new .job).rehome (some p) s.fresh).waiting s.fresh
      (s.waiting j)) j [] = ((s.new .job).rehome (some p) s.fresh).waiting := by
    funext a
    by_cases haj : a = j
    · subst haj
      simp [Forest.rehome, Forest.new, hNe, hNone]
    · by_cases haf : a = s.fresh
      · subst haf
        simp [Forest.rehome, Forest.new, haj, hNone]
      · simp [haj, haf]
  have hSame : ((s.new .job).rehome (some p) s.fresh).waiting j = s.waiting j := by
    simp [Forest.rehome, Forest.new, hNe]
  unfold Forest.substitute
  dsimp only
  rw [hLink, ok_bind, Forest.unlink_eq hT.inv.node hNode, ok_bind]
  dsimp only
  rw [hSame, hWaiting]
  rfl

theorem replace_eq {l : List Nat} (hNodup : l.Nodup) (hj : j ∈ l) (k : Nat) :
    ∃ l₁ l₂, l = l₁ ++ j :: l₂ ∧ l.replace j k = l₁ ++ k :: l₂ := by
  obtain ⟨l₁, l₂, hSplit⟩ := List.append_of_mem hj
  subst hSplit
  have hNot : j ∉ l₁ := fun hMem =>
    (List.nodup_append.mp hNodup).2.2 j hMem j List.mem_cons_self rfl
  exact ⟨l₁, l₂, rfl, by rw [List.replace_append_right hNot, List.replace_cons_self]⟩

/-- The list with the substitute: everything but the killed job is still awaited. -/
theorem mem_replace {l : List Nat} (hNodup : l.Nodup) (hj : j ∈ l) (hx : x ∈ l.replace j k) :
    x = k ∨ x ∈ l ∧ x ≠ j := by
  obtain ⟨l₁, l₂, hSplit, hReplace⟩ := replace_eq hNodup hj k
  have hMiddle := (List.nodup_middle.mp (hSplit ▸ hNodup))
  rw [hReplace] at hx
  by_cases hEq : x = k
  · exact .inl hEq
  · have hOld : x ∈ l₁ ++ l₂ := by simpa [hEq] using hx
    refine .inr ⟨?_, fun h => (List.nodup_cons.mp hMiddle).1 (h ▸ hOld)⟩
    rw [hSplit]
    simp only [List.mem_append, List.mem_cons] at hOld ⊢
    tauto

theorem nodup_replace {l : List Nat} (hNodup : l.Nodup) (hj : j ∈ l) (hk : k ∉ l) :
    (l.replace j k).Nodup := by
  obtain ⟨l₁, l₂, hSplit, hReplace⟩ := replace_eq hNodup hj k
  have hMiddle := (List.nodup_middle.mp (hSplit ▸ hNodup))
  rw [hReplace, List.nodup_middle]
  refine List.nodup_cons.mpr ⟨fun hMem => hk ?_, (List.nodup_cons.mp hMiddle).2⟩
  rw [hSplit]
  simp only [List.mem_append, List.mem_cons] at hMem ⊢
  tauto

/-- Nobody waits for the killed job any more, and it may die. -/
theorem relieved_doomed (h : Fine s) (hj : j ∈ s.waiting p) (hk : s.Up k p)
    (hOut : k ∉ s.waiting p) (hNe : j ≠ k) :
    Doomed ∅ j (s.relieved p j k) ∧ ∀ b, j ∉ (s.relieved p j k).waiting b := by
  have hUp := h.inv.wait_up hj
  have hNodup := h.inv.waitNodup p (Set.notMem_empty p)
  have hMem : ∀ x, x ∈ (s.waiting p).replace j k → x = k ∨ x ∈ s.waiting p ∧ x ≠ j :=
    fun x hx => mem_replace hNodup hj hx
  have hWait : ∀ b x, x ∈ (s.relieved p j k).waiting b → s.Up x b ∧ x ≠ j := by
    intro b x hx
    by_cases hb : b = p
    · subst hb
      rw [Forest.relieved_self] at hx
      rcases hMem x hx with hEq | ⟨hOld, hxNe⟩
      · rw [hEq]
        exact ⟨hk, hNe.symm⟩
      · exact ⟨h.inv.wait_up hOld, hxNe⟩
    · rw [Forest.relieved_of_ne s j k hb] at hx
      exact ⟨h.inv.wait_up hx, fun hEq => hb (h.inv.wait_unique hj (hEq ▸ hx))⟩
  refine ⟨⟨?_, hUp.1, Set.notMem_empty j, h.inv.alive hUp.1, h.acyclic,
    fun g hg => h.inv.upper hUp.1 hg, fun x hx => absurd hx (Set.notMem_empty x)⟩,
    fun b hb => (hWait b j hb).2 rfl⟩
  refine (h.inv.mark hUp.1).unlinked.waits ?_ ?_ ?_
  · intro b _
    by_cases hb : b = p
    · subst hb
      rw [Forest.relieved_self]
      exact nodup_replace hNodup hj hOut
    · rw [Forest.relieved_of_ne s j k hb]
      exact h.inv.waitNodup b (Set.notMem_empty b)
  · exact fun b _ x hx => (hWait b x hx).1
  · intro b hb
    have hbNe : b ≠ p := fun hEq => hb (hEq ▸ h.inv.wait_owner hj)
    rw [Forest.relieved_of_ne s j k hbNe]
    exact (h.inv.dead b hb).1

theorem substituted_doomed (h : Fine s) (hj : j ∈ s.waiting p) :
    Doomed ∅ j (s.substituted p j) ∧ ∀ b, j ∉ (s.substituted p j).waiting b := by
  have hUp := h.inv.wait_up hj
  have hp := h.inv.wait_owner hj
  have hFresh := h.inv.fresh_notMem
  have hNe : j ≠ s.fresh := fun hEq => hFresh (hEq ▸ hUp.1)
  have hpNe : p ≠ s.fresh := fun hEq => hFresh (hEq ▸ hp)
  have hWait : ((s.new .job).rehome (some p) s.fresh).waiting p = s.waiting p := by
    simp [Forest.rehome, Forest.new, hpNe]
  refine relieved_doomed (h.hung hp) (hWait ▸ hj) ⟨List.mem_cons_self, ?_⟩ ?_ hNe
  · simp [Forest.rehome]
  · rw [hWait]
    exact fun hMem => hFresh (h.inv.wait_mem hMem)

/-! ## `Kill` -/

/-- The job that nobody waits for dies. -/
theorem kill_end (h : Doomed ∅ j s) (hFree : ∀ b, j ∉ s.waiting b) :
    Yields Never Fine
      (if (s.findWhoWaitsFor j).isSome then .error .kill else s.deleteLater j) := by
  rw [Forest.find_eq_none hFree]
  exact (deleteLater_spec h).imp fun t ht =>
    ⟨ht.inv, h.acyclic.of_le (ht.pruned.shortens h.mem)⟩

theorem Fine.kill (h : Fine s) (env : Env) (hj : j ∈ s.allJobs)
    (hClears : ∀ p, s.parent j = some p → j ∈ s.waiting p → Clears env .term s j) :
    Yields Never Fine (s.kill env j) := by
  unfold Forest.kill
  refine (acceptSig_spec env .term h.inv h.acyclic hj).bind fun r hr => ?_
  obtain ⟨res, t⟩ := r
  have ht : Fine t := ⟨hr.inv, h.acyclic.of_le hr.within.shortens⟩
  have hjt : j ∈ t.allJobs := hr.within.mem h.acyclic hj
  have hParent : t.parent j = s.parent j := hr.within.parent j hjt (h.acyclic j)
  dsimp only
  by_cases hRes : res = .wantDie
  · rw [if_neg (not_not.mpr hRes)]
    have hFree : (∀ b, j ∉ t.waiting b) → Yields Never Fine
        (if (t.findWhoWaitsFor j).isSome then .error .kill else t.deleteLater j) :=
      kill_end (ht.inv.doomed ht.acyclic hjt)
    cases hp : t.parent j with
    | none =>
        refine hFree fun b hb => ?_
        rw [(ht.inv.wait_up hb).2] at hp
        cases hp
    | some p =>
        by_cases hWait : j ∈ t.waiting p
        · -- The list of the parent is out of reach of the signal.
          have hsp : s.parent j = some p := hParent ▸ hp
          have hUp : s.Up j p := ⟨hj, hsp⟩
          have hpt := ht.inv.wait_owner hWait
          have hSame : t.waiting p = s.waiting p :=
            hr.within.waiting p hpt (h.acyclic.not_below hUp)
          have hNone : t.waiting j = [] :=
            hr.cleared rfl (by simp [hsp]) hRes (hClears p hsp (hSame ▸ hWait))
          simp only [if_pos hWait, substitute_eq ht hWait hNone, ok_bind]
          obtain ⟨hDoomed, hNobody⟩ := substituted_doomed ht hWait
          exact kill_end hDoomed hNobody
        · simp only [if_neg hWait]
          refine hFree fun b hb => hWait ?_
          have hEq := (ht.inv.wait_up hb).2
          rw [hp] at hEq
          exact Option.some.inj hEq ▸ hb
  · rw [if_pos hRes]
    exact ht

/-! ## Runs -/

theorem Fine.act (h : Fine s) (env : Env) (o : Op) (hAdmits : Admits s o) (hKept : Kept env s o) :
    Yields Never Fine (s.act env o) := by
  cases o with
  | new kind => exact h.new kind
  | allocJobno j =>
      exact ⟨⟨h.inv.nodup, h.inv.old, h.inv.dead, h.inv.node, h.inv.childNodup, h.inv.child,
        h.inv.linked, h.inv.awaited, h.inv.waitNodup, h.inv.marked, h.inv.former,
        h.inv.garbage⟩, h.acyclic⟩
  | addWaiting a j => exact h.addWaiting hAdmits.1 hAdmits.2.1 hAdmits.2.2 hKept
  | removeWaiting a j => exact h.removeWaiting a j
  | setParent j p =>
      exact h.setParent hAdmits.1 (fun g hg => ⟨hAdmits.2 g hg, hKept.2 g hg⟩) hKept.1
  | kill j => exact h.kill env hAdmits hKept
  | acceptSig j sig => exact (h.acceptSig env sig hAdmits).bind fun r hr => hr
  | deleteLater j =>
      have hOld : j < s.fresh := hAdmits.elim (h.inv.old j) fun hDel => (h.inv.garbage j hDel).2
      exact (h.deleteLater hOld).imp fun t ht => ht.1
  | buryDoneJobs this done held => exact h.buryDoneJobs this done held
  | collectGarbage held => exact h.collectGarbage held
  | own j builtin cp =>
      exact ⟨⟨h.inv.nodup, h.inv.old, h.inv.dead, h.inv.node, h.inv.childNodup, h.inv.child,
        h.inv.linked, h.inv.awaited, h.inv.waitNodup, h.inv.marked, h.inv.former,
        h.inv.garbage⟩, h.acyclic⟩

/-- The runs that start without jobs, and whose operations meet `ok`. -/
def Reached (env : Env) (ok : Forest → Op → Prop) : Forest → Prop :=
  Reach (· = Forest.empty) (Step env ok)

theorem Reached.fine (h : Reached env (fun s o => Admits s o ∧ Kept env s o) s) : Fine s := by
  refine Reach.invariant (I := Fine) (fun s hs => ?_) ?_ h
  · rw [hs]
    exact .empty
  intro s o t hs ⟨⟨hAdmits, hKept⟩, hAct⟩
  have hYields := hs.act env o hAdmits hKept
  rw [hAct] at hYields
  exact hYields

/-- In every state that is reached the forest is sound, and no operation fails. -/
theorem forest_sound (env : Env) (s : Forest)
    (h : Reached env (fun s o => Admits s o ∧ Kept env s o) s) :
    Sound s ∧ ∀ o, Admits s o → Kept env s o → ∃ t, s.act env o = .ok t := by
  refine ⟨h.fine.sound, fun o hAdmits hKept => ?_⟩
  obtain ⟨t, hAct, -⟩ := (h.fine.act env o hAdmits hKept).exists
  exact ⟨t, hAct⟩

/-- A job that is killed while a command waits for it leaves its substitute behind. -/
theorem forest_sound_kill : ∃ s, 2 ∈ s.waiting 0 ∧ s.deleting 1 = true ∧ Sound s := by
  let env : Env := ⟨fun _ _ _ => .moved⟩
  let ok := fun s o => Admits s o ∧ Kept env s o
  have hJobs : Reached env ok ((Forest.empty.new .cmdExec).new .job) :=
    .next (.new .job) (.next (.new .cmdExec) (.start rfl) ⟨⟨trivial, trivial⟩, rfl⟩)
      ⟨⟨trivial, trivial⟩, rfl⟩
  have hRoot : ¬ Below ((Forest.empty.new .cmdExec).new .job).Up 0 1 := by
    intro hBelow
    rcases hBelow.cases_head with hEq | ⟨p, hUp, -⟩
    · cases hEq
    · cases hUp.2
  obtain ⟨s, hs, hMem, hClears, hKill⟩ : ∃ s, Reached env ok s ∧ 1 ∈ s.allJobs
      ∧ Clears env .term s 1
      ∧ (s.kill env 1).map (fun t => (t.waiting 0, t.deleting 1)) = .ok ([2], true) := by
    refine ⟨_, .next (.addWaiting 0 1) hJobs ⟨⟨⟨?_, ?_, ?_⟩, hRoot⟩, rfl⟩, ?_, ?_, rfl⟩
    · decide
    · decide
    · decide
    · decide
    · exact fun x hx => absurd hx List.not_mem_nil
  cases hEnd : s.kill env 1 with
  | error e =>
      rw [hEnd] at hKill
      cases hKill
  | ok t =>
      rw [hEnd] at hKill
      have hSound : Sound t :=
        (forest_sound env t (.next (.kill 1) hs ⟨⟨hMem, fun _ _ _ => hClears⟩, hEnd⟩)).1
      have hPair : (t.waiting 0, t.deleting 1) = ([2], true) := Except.ok.inj hKill
      rw [Prod.mk.injEq] at hPair
      exact ⟨t, by simp [hPair.1], hPair.2, hSound⟩

/-- A command waits for an editor job, which waits for the editor. The editor stays when
it gets the signal, the editor job is killed, and its substitute waits for the dead editor. -/
theorem forest_unsound : ∃ env s, Reached env Admits s ∧ ¬ Sound s := by
  let env : Env := ⟨fun _ _ _ => .moved⟩
  have hJobs : Reached env Admits (((Forest.empty.new .cmdExec).new .job).new .other) :=
    .next (.new .other) (.next (.new .job) (.next (.new .cmdExec) (.start rfl)
      ⟨trivial, rfl⟩) ⟨trivial, rfl⟩) ⟨trivial, rfl⟩
  obtain ⟨s, hs, hMem, hKill⟩ : ∃ s, Reached env Admits s ∧ 1 ∈ s.allJobs
      ∧ (s.kill env 1).map (fun t => (t.waiting 3, t.deleting 2)) = .ok ([2], true) := by
    refine ⟨_, .next (.addWaiting 1 2) (.next (.addWaiting 0 1) hJobs ⟨⟨?_, ?_, ?_⟩, rfl⟩)
      ⟨⟨?_, ?_, ?_⟩, rfl⟩, ?_, rfl⟩ <;> decide
  cases hEnd : s.kill env 1 with
  | error e =>
      rw [hEnd] at hKill
      cases hKill
  | ok t =>
      rw [hEnd] at hKill
      have hPair : (t.waiting 3, t.deleting 2) = ([2], true) := Except.ok.inj hKill
      rw [Prod.mk.injEq] at hPair
      refine ⟨env, t, .next (.kill 1) hs ⟨hMem, hEnd⟩, fun hSound => ?_⟩
      have hAlive := hSound.alive 3 2 (by simp [hPair.1])
      rw [hPair.2] at hAlive
      cases hAlive

end Lftp.Ports.Job
