import Lftp.Verified.Ancestry
import Lftp.Verified.Outcome
import Mathlib.Data.List.Nodup
import Mathlib.Data.Set.Insert
import Mathlib.Logic.Function.Basic

/-!
# The forest of jobs

A job has a parent, a list of its children and a list of the jobs it waits for.
Jobs are numbered in the order in which they were made. The children lists are
intrusive: a job's node is linked into one of them at most, and `node` says into
which. Where the source would fail an assertion or follow a null pointer, the
functions here fail with a `Fault`.

This file has the operations on the forest but for the signals, and what the
forest keeps while a job dies.
-/

namespace Lftp.Ports.Job

open Lftp.Verified Relation

/-- How the class of a job answers a signal: as `Job::AcceptSig`, as one of the two
classes that pass it on in their own way, or without touching the forest. -/
inductive Kind
  | job
  | cmdExec
  | copyJobEnv
  | other
  deriving DecidableEq, Repr

inductive Fault
  /-- `assert(FindWhoWaitsFor(j)==0)` in `AddWaiting`. -/
  | addWaiting
  /-- `assert(FindWhoWaitsFor(j)==0)` in `Kill`. -/
  | kill
  /-- The assertions of `~Job`. -/
  | destructor
  /-- A node is added twice, or removed when it is in no list. -/
  | node
  /-- `waiting[i]` beyond the end. -/
  | index
  | outOfFuel
  deriving DecidableEq, Repr

structure Forest where
  allJobs : List Nat
  parent : Nat → Option Nat
  childrenJobs : Nat → List Nat
  node : Nat → Option Nat
  waiting : Nat → List Nat
  jobno : Nat → Int
  deleting : Nat → Bool
  deletedTasks : List Nat
  kind : Nat → Kind
  /-- `CmdExec`: a builtin command is running. -/
  builtin : Nat → Bool
  /-- `CopyJobEnv`: the copy job whose status is shown. -/
  cp : Nat → Option Nat
  /-- How often a job of another class was sent a signal. -/
  asked : Nat → Nat
  fresh : Nat

open Function (update update_self update_of_ne update_eq_self)

namespace Forest

/-! ## Operations -/

/-- `p->children_jobs.add(x->children_jobs_node)` -/
def link (s : Forest) (p x : Nat) : Except Fault Forest :=
  if (s.node x).isSome then .error .node
  else .ok { s with
    node := update s.node x (some p)
    childrenJobs := update s.childrenJobs p (x :: s.childrenJobs p) }

/-- `x->children_jobs_node.remove()` -/
def unlink (s : Forest) (x : Nat) : Except Fault Forest :=
  match s.node x with
  | none => .error .node
  | some p => .ok { s with
      node := update s.node x none
      childrenJobs := update s.childrenJobs p ((s.childrenJobs p).erase x) }

/-- `if(x->children_jobs_node.listed()) x->children_jobs_node.remove()` -/
def unlinkListed (s : Forest) (x : Nat) : Except Fault Forest :=
  if (s.node x).isSome then s.unlink x else .ok s

def setParent (s : Forest) (j : Nat) (p : Option Nat) : Except Fault Forest := do
  let s ← s.unlinkListed j
  let s := { s with parent := update s.parent j p }
  match p with
  | none => return s
  | some p => s.link p j

def removeWaiting (s : Forest) (a j : Nat) : Forest :=
  { s with waiting := update s.waiting a ((s.waiting a).erase j) }

/-- `if(parent) parent->RemoveWaiting(this)` -/
def unawaited (s : Forest) (d : Nat) : Forest :=
  match s.parent d with
  | some p => s.removeWaiting p d
  | none => s

def findWhoWaitsFor (s : Forest) (j : Nat) : Option Nat :=
  s.allJobs.find? fun a => j ∈ s.waiting a

/-- `SetParentFg` also moves the job to the foreground, which does not touch the forest. -/
def addWaiting (s : Forest) (a j : Nat) : Except Fault Forest :=
  if j ∈ s.waiting a then .ok s
  else if (s.findWhoWaitsFor j).isSome then .error .addWaiting
  else do
    let s ← s.setParent j (some a)
    return { s with waiting := update s.waiting a (s.waiting a ++ [j]) }

/-- One child of the dying job `d`: it goes to the parent of `d`, or dies as well. -/
def orphan (deleteLater : Forest → Nat → Except Fault Forest) (d : Nat) (s : Forest)
    (child : Nat) : Except Fault Forest := do
  let s ← s.unlink child
  match s.parent d with
  | some g =>
      if s.jobno child ≠ -1 then
        link { s with parent := update s.parent child (some g) } g child
      else deleteLater { s with parent := update s.parent child none } child
  | none => deleteLater { s with parent := update s.parent child none } child

/-- The loop over the children reads the next node before it removes one. -/
def prepareToDie (deleteLater : Forest → Nat → Except Fault Forest) (s : Forest) (d : Nat) :
    Except Fault Forest := do
  let s ← (s.childrenJobs d).foldlM (orphan deleteLater d) s
  let s := s.unawaited d
  let s := { s with waiting := update s.waiting d [] }
  let s ← s.unlinkListed d
  return { s with allJobs := s.allJobs.erase d }

/-- `deleting=true; deleted_tasks.add_tail(deleted_tasks_node)` -/
def mark (s : Forest) (d : Nat) : Forest :=
  { s with
    deleting := update s.deleting d true
    deletedTasks := s.deletedTasks ++ [d] }

/-- `DeleteLater` with a bound on how deep it may go. -/
def deleteLaterN : Nat → Forest → Nat → Except Fault Forest
  | 0, _, _ => .error .outOfFuel
  | n + 1, s, d =>
    if s.deleting d then .ok s else prepareToDie (deleteLaterN n) (s.mark d) d

/-- Every call but the outermost one is for another job. -/
def deleteLater (s : Forest) (d : Nat) : Except Fault Forest :=
  deleteLaterN (s.allJobs.length + 1) s d

/-- `delete task` with the assertions of `~Job`. -/
def destroy (s : Forest) (d : Nat) : Except Fault Forest :=
  if d ∈ s.allJobs ∨ (s.node d).isSome then .error .destructor
  else .ok { s with deletedTasks := s.deletedTasks.erase d }

/-- `held` are the tasks that are running or referred to. -/
def collectGarbage (held : Nat → Bool) (s : Forest) : Except Fault Forest :=
  s.deletedTasks.foldlM (fun s d => if held d then .ok s else s.destroy d) s

def buryDoneJobs (this : Nat) (done held : Nat → Bool) (s : Forest) : Except Fault Forest := do
  let toBury := s.allJobs.filter fun scan =>
    (s.parent scan = some this || s.parent scan = none) && 0 ≤ s.jobno scan && done scan
  let s ← toBury.foldlM deleteLater s
  s.collectGarbage held

/-- The constructor `Job::Job()` for an object of the class `kind`. -/
def new (s : Forest) (kind : Kind) : Forest :=
  { s with
    allJobs := s.fresh :: s.allJobs
    parent := update s.parent s.fresh none
    childrenJobs := update s.childrenJobs s.fresh []
    node := update s.node s.fresh none
    waiting := update s.waiting s.fresh []
    jobno := update s.jobno s.fresh (-1)
    deleting := update s.deleting s.fresh false
    kind := update s.kind s.fresh kind
    builtin := update s.builtin s.fresh false
    cp := update s.cp s.fresh none
    asked := update s.asked s.fresh 0
    fresh := s.fresh + 1 }

end Forest

/-! ## The invariant -/

/-- `p` is the parent of the job `x`. -/
def Forest.Up (s : Forest) (x p : Nat) : Prop := x ∈ s.allJobs ∧ s.parent x = some p

/-- The forest is in order but for the jobs in `X`, which are dying. -/
structure Inv (X : Set Nat) (s : Forest) : Prop where
  nodup : s.allJobs.Nodup
  old : ∀ x ∈ s.allJobs, x < s.fresh
  dead : ∀ x, x ∉ s.allJobs → s.waiting x = [] ∧ s.childrenJobs x = []
  node : ∀ x p, s.node x = some p ↔ x ∈ s.childrenJobs p
  childNodup : ∀ p, (s.childrenJobs p).Nodup
  child : ∀ x p, x ∈ s.childrenJobs p → x ∈ s.allJobs ∧ s.parent x = some p
  linked : ∀ x p, x ∈ s.allJobs → x ∉ X → s.parent x = some p → x ∈ s.childrenJobs p
  awaited : ∀ a x, a ∉ X → x ∈ s.waiting a → x ∈ s.allJobs ∧ s.parent x = some a
  waitNodup : ∀ a, a ∉ X → (s.waiting a).Nodup
  marked : ∀ x ∈ s.allJobs, s.deleting x = true ↔ x ∈ X
  former : ∀ x < s.fresh, x ∉ s.allJobs → s.deleting x = true
  garbage : ∀ x ∈ s.deletedTasks, s.deleting x = true ∧ x < s.fresh

variable {X : Set Nat} {s t u : Forest} {d j k g x p : Nat} {w : Nat → List Nat}

namespace Forest

theorem up_unique (s : Forest) : Relator.RightUnique s.Up :=
  fun _ _ _ h h' => Option.some.inj (h.2.symm.trans h'.2)

/-- The jobs that nobody asked to die. -/
def live (s : Forest) : Nat := (s.allJobs.filter fun x => !s.deleting x).length

theorem live_le (s : Forest) : s.live ≤ s.allJobs.length := List.length_filter_le _ _

theorem unawaited_root (h : s.parent d = none) : s.unawaited d = s := by
  simp [unawaited, h]

end Forest

/-- What a deletion of `d` may do: jobs below `d` go, and children of `d` that stay
go to its parent. The lists of the awaited jobs are those of `w`. -/
structure Pruned (d : Nat) (w : Nat → List Nat) (s t : Forest) : Prop where
  jobs : t.allJobs.Sublist s.allJobs
  lost : ∀ x ∈ s.allJobs, x ∉ t.allJobs → Below s.Up x d
  up : ∀ x ∈ t.allJobs, t.parent x = s.parent x
    ∨ s.parent x = some d ∧ ∃ g, s.parent d = some g ∧ t.parent x = some g
  waiting : ∀ a ∈ t.allJobs, t.waiting a = w a
  children : ∀ a ∈ t.allJobs, a ≠ d → s.parent d = none → t.childrenJobs a = s.childrenJobs a
  deleting : ∀ x ∈ t.allJobs, s.deleting x = true → t.deleting x = true
  jobno : t.jobno = s.jobno
  kind : t.kind = s.kind
  builtin : t.builtin = s.builtin
  cp : t.cp = s.cp
  asked : t.asked = s.asked
  fresh : t.fresh = s.fresh

theorem Pruned.shortens (h : Pruned d w s t) (hd : d ∈ s.allJobs) : Shortens s.Up t.Up := by
  intro x p ⟨hx, hp⟩
  have hxs := h.jobs.subset hx
  rcases h.up x hx with hSame | ⟨hUp, g, hg, hNew⟩
  · exact .single ⟨hxs, hSame ▸ hp⟩
  · rw [hNew] at hp
    cases hp
    exact .tail (.single ⟨hxs, hUp⟩) ⟨hd, hg⟩

theorem Pruned.live_le (h : Pruned d w s t) : t.live ≤ s.live := by
  have hTaken : t.live ≤ (t.allJobs.filter fun x => !s.deleting x).length := by
    unfold Forest.live
    rw [← List.countP_eq_length_filter, ← List.countP_eq_length_filter]
    apply List.countP_mono_left
    intro x hx hLive
    by_contra hDel
    have hMarked := h.deleting x hx (by simpa using hDel)
    simp [hMarked] at hLive
  exact hTaken.trans (h.jobs.filter _).length_le

theorem Forest.live_mark (hd : d ∈ s.allJobs) (hLive : s.deleting d = false) :
    (s.mark d).live < s.live := by
  have hEq : s.allJobs.filter (fun x => !(s.mark d).deleting x)
      = (s.allJobs.filter fun x => !s.deleting x).filter (· ≠ d) := by
    rw [List.filter_filter]
    apply List.filter_congr
    intro x _
    by_cases hx : x = d <;> simp [mark, hx]
  unfold live
  show (s.allJobs.filter fun x => !(s.mark d).deleting x).length < _
  rw [hEq, List.length_filter_lt_length_iff_exists]
  exact ⟨d, by simp [hd, hLive], by simp⟩

/-! ## What a dying job does to its children -/

/-- The loop over the children of `d`, `l` of which are left. -/
structure Orphaning (X : Set Nat) (d : Nat) (s : Forest) (l : List Nat) (t : Forest) : Prop where
  inv : Inv (insert d X) t
  mem : d ∈ t.allJobs
  rest : t.childrenJobs d = l
  pruned : Pruned d s.waiting s t
  less : t.live < s.live

/-- What `DeleteLater` is called on: a job that is not dying, in a forest that is in
order once it is taken for dying. -/
structure Doomed (X : Set Nat) (d : Nat) (s : Forest) : Prop where
  inv : Inv (insert d X) (s.mark d)
  mem : d ∈ s.allJobs
  fresh : d ∉ X
  alive : s.deleting d = false
  acyclic : Acyclic s.Up
  upper : ∀ g, s.parent d = some g → g ∈ s.allJobs
  clear : ∀ x ∈ X, ¬ Below s.Up x d

/-- What `DeleteLater` leaves behind. -/
structure Deleted (X : Set Nat) (d : Nat) (s t : Forest) : Prop where
  inv : Inv X t
  gone : d ∉ t.allJobs
  pruned : Pruned d (s.unawaited d).waiting s t

theorem Inv.mark (h : Inv X s) (hd : d ∈ s.allJobs) : Inv (insert d X) (s.mark d) := by
  constructor
  · exact h.nodup
  · exact h.old
  · exact h.dead
  · exact h.node
  · exact h.childNodup
  · exact h.child
  · intro x p hx hX
    exact h.linked x p hx fun hMem => hX (Set.mem_insert_of_mem _ hMem)
  · intro a x hX
    exact h.awaited a x fun hMem => hX (Set.mem_insert_of_mem _ hMem)
  · intro a hX
    exact h.waitNodup a fun hMem => hX (Set.mem_insert_of_mem _ hMem)
  · intro x hx
    have hMarked := h.marked x hx
    by_cases hEq : x = d <;> simp [Forest.mark, hEq, hMarked]
  · intro x hOld hGone
    have hDel := h.former x hOld hGone
    by_cases hEq : x = d <;> simp [Forest.mark, hEq, hDel]
  · intro x hx
    simp only [Forest.mark, List.mem_append, List.mem_singleton] at hx
    rcases hx with hx | hx
    · obtain ⟨hDel, hOld⟩ := h.garbage x hx
      refine ⟨?_, hOld⟩
      by_cases hEq : x = d <;> simp [Forest.mark, hEq, hDel]
    · subst hx
      exact ⟨by simp [Forest.mark], h.old _ hd⟩

/-- The job `k` gets the parent `q`, and its node goes into the list of `q`. -/
def Forest.rehome (s : Forest) (q : Option Nat) (k : Nat) : Forest :=
  { s with
    parent := update s.parent k q
    node := update s.node k q
    childrenJobs := match q with
      | none => fun p => (s.childrenJobs p).erase k
      | some g => update (fun p => (s.childrenJobs p).erase k) g
          (k :: (s.childrenJobs g).erase k) }

theorem Forest.mem_rehome (h : ∀ p, (s.childrenJobs p).Nodup) (q : Option Nat) (k x p : Nat) :
    x ∈ (s.rehome q k).childrenJobs p ↔ x = k ∧ q = some p ∨ x ≠ k ∧ x ∈ s.childrenJobs p := by
  have hErase := (h p).mem_erase_iff (a := x) (b := k)
  cases q with
  | none => simpa [rehome] using hErase
  | some g =>
      by_cases hp : p = g
      · subst hp
        simp only [rehome, update_self, List.mem_cons, hErase]
        tauto
      · simp only [rehome, update_of_ne hp, hErase]
        have hNe : some g ≠ some p := fun hEq => hp (Option.some.inj hEq).symm
        tauto

theorem Forest.nodup_rehome (h : ∀ p, (s.childrenJobs p).Nodup) (q : Option Nat) (k p : Nat) :
    ((s.rehome q k).childrenJobs p).Nodup := by
  cases q with
  | none => exact (h p).erase k
  | some g =>
      by_cases hp : p = g
      · subst hp
        simp only [rehome, update_self]
        exact List.nodup_cons.mpr ⟨(h p).not_mem_erase, (h p).erase k⟩
      · simp only [rehome, update_of_ne hp]
        exact (h p).erase k

theorem Inv.rehome (h : Inv X s) {q : Option Nat} (hk : k ∈ s.allJobs)
    (hq : ∀ g, q = some g → g ∈ s.allJobs) (hWaits : ∀ a, a ∉ X → k ∈ s.waiting a → q = some a) :
    Inv X (s.rehome q k) := by
  have hMem := Forest.mem_rehome h.childNodup q k
  constructor
  · exact h.nodup
  · exact h.old
  · intro x hx
    refine ⟨(h.dead x hx).1, List.eq_nil_iff_forall_not_mem.mpr fun y hy => ?_⟩
    rcases (hMem y x).mp hy with ⟨-, hEq⟩ | ⟨-, hOld⟩
    · exact hx (hq x hEq)
    · rw [(h.dead x hx).2] at hOld
      cases hOld
  · intro x p
    rw [hMem]
    by_cases hx : x = k
    · subst hx
      simp [Forest.rehome]
    · simp [Forest.rehome, hx, h.node]
  · exact Forest.nodup_rehome h.childNodup q k
  · intro x p hx
    rcases (hMem x p).mp hx with ⟨hEq, hNew⟩ | ⟨hNe, hOld⟩
    · subst hEq
      exact ⟨hk, by simp [Forest.rehome, hNew]⟩
    · obtain ⟨hJob, hParent⟩ := h.child x p hOld
      exact ⟨hJob, by simp [Forest.rehome, hNe, hParent]⟩
  · intro x p hx hX hp
    rw [hMem]
    by_cases hEq : x = k
    · subst hEq
      exact .inl ⟨rfl, by simpa [Forest.rehome] using hp⟩
    · exact .inr ⟨hEq, h.linked x p hx hX (by simpa [Forest.rehome, hEq] using hp)⟩
  · intro a x hX hx
    obtain ⟨hJob, hParent⟩ := h.awaited a x hX hx
    refine ⟨hJob, ?_⟩
    by_cases hEq : x = k
    · subst hEq
      simpa [Forest.rehome] using hWaits a hX hx
    · simpa [Forest.rehome, hEq] using hParent
  · exact h.waitNodup
  · exact h.marked
  · exact h.former
  · exact h.garbage

/-- A node that is taken out of its list is in no other one. -/
theorem Forest.unlink_eq (h : ∀ x p, s.node x = some p ↔ x ∈ s.childrenJobs p)
    (hNode : s.node k = some p) :
    s.unlink k = .ok { s with
      node := update s.node k none
      childrenJobs := fun p => (s.childrenJobs p).erase k } := by
  have hErase : update s.childrenJobs p ((s.childrenJobs p).erase k)
      = fun p => (s.childrenJobs p).erase k := by
    funext p'
    by_cases hp : p' = p
    · subst hp
      rw [update_self]
    · rw [update_of_ne hp, List.erase_of_not_mem]
      intro hMem
      have hOther := (h k p').mpr hMem
      exact hp (Option.some.inj (hOther.symm.trans hNode))
  unfold unlink
  rw [hNode, ← hErase]

theorem Forest.unlinkListed_eq (h : ∀ x p, s.node x = some p ↔ x ∈ s.childrenJobs p) (k : Nat) :
    s.unlinkListed k = .ok { s with
      node := update s.node k none
      childrenJobs := fun p => (s.childrenJobs p).erase k } := by
  cases hNode : s.node k with
  | some p => simp [unlinkListed, hNode, unlink_eq h hNode]
  | none =>
      have hErase : (fun p => (s.childrenJobs p).erase k) = s.childrenJobs := by
        funext p
        apply List.erase_of_not_mem
        intro hMem
        rw [(h k p).mpr hMem] at hNode
        cases hNode
      have hUpdate : update s.node k none = s.node := by
        rw [← hNode, update_eq_self]
      simp only [unlinkListed, hNode, Option.isSome_none, Bool.false_eq_true, if_false,
        hErase, hUpdate]

theorem Forest.setParent_eq (h : Inv X s) (k : Nat) (q : Option Nat) :
    s.setParent k q = .ok (s.rehome q k) := by
  unfold setParent
  rw [unlinkListed_eq h.node k, ok_bind]
  cases q with
  | none => rfl
  | some g => simp [link, rehome]

theorem Forest.orphan_eq (del : Forest → Nat → Except Fault Forest) (h : Inv X s)
    (hNode : s.node k = some d) :
    (∃ g, s.parent d = some g ∧ orphan del d s k = .ok (s.rehome (some g) k))
      ∨ orphan del d s k = del (s.rehome none k) k := by
  unfold orphan
  rw [unlink_eq h.node hNode, ok_bind]
  cases hg : s.parent d with
  | none => exact .inr rfl
  | some g =>
      by_cases hNo : s.jobno k ≠ -1
      · exact .inl ⟨g, rfl, by simp [hNo, link, rehome]⟩
      · exact .inr (by simp [hNo, rehome])

theorem Orphaning.parent {l : List Nat} (h : Orphaning X d s l t) (hAcyclic : Acyclic s.Up) :
    t.parent d = s.parent d := by
  have hd := h.pruned.jobs.subset h.mem
  rcases h.pruned.up d h.mem with hSame | ⟨hLoop, -⟩
  · exact hSame
  · exact absurd (.single ⟨hd, hLoop⟩) (hAcyclic d)

/-- A child of the dying job was its child from the start. -/
theorem Orphaning.up {l : List Nat} (h : Orphaning X d s (k :: l) t) : s.Up k d := by
  have hChild : k ∈ t.childrenJobs d := by
    rw [h.rest]
    exact List.mem_cons_self
  obtain ⟨hk, hParent⟩ := h.inv.child k d hChild
  refine ⟨h.pruned.jobs.subset hk, ?_⟩
  rcases h.pruned.up k hk with hSame | ⟨hUp, -⟩
  · rw [← hSame]
    exact hParent
  · exact hUp

/-- The child goes to the parent of the dying job. -/
theorem Orphaning.adopted {l : List Nat} (h : Orphaning X d s (k :: l) t) (hDoomed : Doomed X d s)
    (hg : t.parent d = some g) : Orphaning X d s l (t.rehome (some g) k) := by
  have hChild : k ∈ t.childrenJobs d := by
    rw [h.rest]
    exact List.mem_cons_self
  obtain ⟨hk, hParent⟩ := h.inv.child k d hChild
  have hUp := h.up
  have hNe : k ≠ d := (hDoomed.acyclic.ne hUp).symm
  have hGrand : s.parent d = some g := (h.parent hDoomed.acyclic).symm.trans hg
  have hgNe : g ≠ d := hDoomed.acyclic.ne ⟨hDoomed.mem, hGrand⟩
  have hgMem : g ∈ t.allJobs := by
    by_contra hLost
    have hBelow := h.pruned.lost g (hDoomed.upper g hGrand) hLost
    exact hDoomed.acyclic.not_below ⟨hDoomed.mem, hGrand⟩ hBelow
  constructor
  · apply h.inv.rehome hk
    · intro g' hEq
      exact Option.some.inj hEq ▸ hgMem
    · intro a ha hWaits
      have hOther := (h.inv.awaited a k ha hWaits).2.symm.trans hParent
      exact absurd (Set.mem_insert_iff.mpr (.inl (Option.some.inj hOther))) ha
  · exact h.mem
  · have hErase : (t.childrenJobs d).erase k = l := by
      rw [h.rest, List.erase_cons_head]
    simpa [Forest.rehome, update_of_ne hgNe.symm] using hErase
  · have hPruned := h.pruned
    refine { hPruned with up := ?_, children := ?_ }
    · intro x hx
      by_cases hEq : x = k
      · subst hEq
        exact .inr ⟨hUp.2, g, hGrand, by simp [Forest.rehome]⟩
      · have hSame : (t.rehome (some g) k).parent x = t.parent x := by simp [Forest.rehome, hEq]
        rw [hSame]
        exact hPruned.up x hx
    · intro a _ _ hRoot
      rw [hRoot] at hGrand
      cases hGrand
  · exact h.less

theorem shortens_rehome_none (s : Forest) (k : Nat) : Shortens s.Up (s.rehome none k).Up := by
  intro x p ⟨hx, hp⟩
  by_cases hEq : x = k
  · subst hEq
    simp [Forest.rehome] at hp
  · exact .single ⟨hx, by simpa [Forest.rehome, hEq] using hp⟩

theorem Orphaning.shortens {l : List Nat} (h : Orphaning X d s l t) :
    Shortens s.Up (t.rehome none k).Up :=
  (h.pruned.shortens (h.pruned.jobs.subset h.mem)).trans (shortens_rehome_none t k)

/-- A child that is to die is fit for it. -/
theorem Orphaning.doomed {l : List Nat} (h : Orphaning X d s (k :: l) t)
    (hDoomed : Doomed X d s) : Doomed (insert d X) k (t.rehome none k) := by
  have hChild : k ∈ t.childrenJobs d := by
    rw [h.rest]
    exact List.mem_cons_self
  obtain ⟨hk, hParent⟩ := h.inv.child k d hChild
  have hUp := h.up
  have hFresh : k ∉ insert d X := by
    intro hMem
    rcases Set.mem_insert_iff.mp hMem with hEq | hX
    · exact hDoomed.acyclic.ne hUp hEq.symm
    · exact hDoomed.clear k hX (.single hUp)
  constructor
  · refine Inv.mark (h.inv.rehome hk (fun g hg => nomatch hg) ?_) hk
    intro a ha hWaits
    have hOther := (h.inv.awaited a k ha hWaits).2.symm.trans hParent
    exact absurd (Set.mem_insert_iff.mpr (.inl (Option.some.inj hOther))) ha
  · exact hk
  · exact hFresh
  · exact Bool.eq_false_iff.mpr fun hDel => hFresh ((h.inv.marked k hk).mp hDel)
  · exact hDoomed.acyclic.of_le h.shortens
  · intro g hg
    simp [Forest.rehome] at hg
  · intro x hx hBelow
    have hBelow := h.shortens.below hBelow
    rcases Set.mem_insert_iff.mp hx with hEq | hX
    · subst hEq
      exact hDoomed.acyclic.not_below hUp hBelow
    · exact hDoomed.clear x hX (hBelow.tail hUp)

/-- The child dies as well. -/
theorem Orphaning.died {l : List Nat} (h : Orphaning X d s (k :: l) t) (hDoomed : Doomed X d s)
    (hDel : Deleted (insert d X) k (t.rehome none k) u) : Orphaning X d s l u := by
  have hUp := h.up
  have hNe : d ≠ k := hDoomed.acyclic.ne hUp
  have hRoot : (t.rehome none k).parent k = none := by simp [Forest.rehome]
  have hGone : ∀ x ∈ u.allJobs, x ≠ k := fun x hx hEq => hDel.gone (hEq ▸ hx)
  have hChild : k ∈ t.childrenJobs d := by
    rw [h.rest]
    exact List.mem_cons_self
  have hd : d ∈ u.allJobs := by
    by_contra hLost
    have hBelow := h.shortens.below (hDel.pruned.lost d h.mem hLost)
    exact hDoomed.acyclic.not_below hUp hBelow
  constructor
  · exact hDel.inv
  · exact hd
  · rw [hDel.pruned.children d hd hNe hRoot]
    show (t.childrenJobs d).erase k = l
    rw [h.rest, List.erase_cons_head]
  · constructor
    · exact hDel.pruned.jobs.trans h.pruned.jobs
    · intro x hx hLost
      by_cases hxt : x ∈ t.allJobs
      · exact (h.shortens.below (hDel.pruned.lost x hxt hLost)).tail hUp
      · exact h.pruned.lost x hx hxt
    · intro x hx
      have hxt : x ∈ t.allJobs := hDel.pruned.jobs.subset hx
      have hSame : (t.rehome none k).parent x = t.parent x := by
        simp [Forest.rehome, hGone x hx]
      rcases hDel.pruned.up x hx with hNew | ⟨-, g, hg, -⟩
      · rw [hNew, hSame]
        exact h.pruned.up x hxt
      · rw [hRoot] at hg
        cases hg
    · intro a ha
      have hWaiting := hDel.pruned.waiting a ha
      rw [Forest.unawaited_root hRoot] at hWaiting
      exact hWaiting.trans (h.pruned.waiting a (hDel.pruned.jobs.subset ha))
    · intro a ha hNeA hNone
      have hat : a ∈ t.allJobs := hDel.pruned.jobs.subset ha
      have hErase : (t.childrenJobs a).erase k = t.childrenJobs a := by
        apply List.erase_of_not_mem
        intro hMem
        have hOther := (h.inv.child k a hMem).2.symm.trans (h.inv.child k d hChild).2
        exact hNeA (Option.some.inj hOther)
      rw [hDel.pruned.children a ha (hGone a ha) hRoot, ← h.pruned.children a hat hNeA hNone]
      exact hErase
    · intro x hx hMarked
      exact hDel.pruned.deleting x hx
        (h.pruned.deleting x (hDel.pruned.jobs.subset hx) hMarked)
    · exact hDel.pruned.jobno.trans h.pruned.jobno
    · exact hDel.pruned.kind.trans h.pruned.kind
    · exact hDel.pruned.builtin.trans h.pruned.builtin
    · exact hDel.pruned.cp.trans h.pruned.cp
    · exact hDel.pruned.asked.trans h.pruned.asked
    · exact hDel.pruned.fresh.trans h.pruned.fresh
  · exact hDel.pruned.live_le.trans_lt h.less

/-! ## The end of a dying job -/

/-- What the rest of `PrepareToDie` does when the children are gone. -/
def Forest.buried (s : Forest) (d : Nat) : Forest :=
  { s with
    waiting := update (s.unawaited d).waiting d []
    node := update s.node d none
    childrenJobs := fun p => (s.childrenJobs p).erase d
    allJobs := s.allJobs.erase d }

theorem Forest.unawaited_waiting (s : Forest) (d a : Nat) : (s.unawaited d).waiting a
    = if s.parent d = some a then (s.waiting a).erase d else s.waiting a := by
  unfold unawaited
  cases hp : s.parent d with
  | none => simp
  | some p =>
      by_cases ha : a = p
      · subst ha
        simp [removeWaiting]
      · have hNe : some p ≠ some a := fun hEq => ha (Option.some.inj hEq).symm
        simp [removeWaiting, update_of_ne ha, hNe]

theorem Forest.unawaited_eq (s : Forest) (d : Nat) (w : Nat → List Nat) :
    { s.unawaited d with waiting := w } = { s with waiting := w } := by
  cases hp : s.parent d with
  | none => simp [unawaited, hp]
  | some p => simp [unawaited, hp, removeWaiting]

theorem Forest.prepareToDie_eq {del : Forest → Nat → Except Fault Forest}
    (hFold : (s.childrenJobs d).foldlM (orphan del d) s = .ok t)
    (h : ∀ x p, t.node x = some p ↔ x ∈ t.childrenJobs p) :
    prepareToDie del s d = .ok (t.buried d) := by
  have hUnlink := unlinkListed_eq
    (s := { t with waiting := update (t.unawaited d).waiting d [] }) h d
  unfold prepareToDie
  rw [hFold, ok_bind]
  dsimp only
  rw [unawaited_eq, hUnlink, ok_bind]
  rfl

/-- The list of a job that goes on waiting loses the dying job only. -/
theorem Inv.mem_unawaited (h : Inv (insert d X) s) {a : Nat} (ha : a ∉ insert d X)
    (hx : x ∈ (s.unawaited d).waiting a) : x ∈ s.waiting a ∧ x ≠ d := by
  rw [Forest.unawaited_waiting] at hx
  split at hx
  · exact ⟨List.mem_of_mem_erase hx, ((h.waitNodup a ha).mem_erase_iff.mp hx).1⟩
  · rename_i hParent
    refine ⟨hx, fun hEq => hParent ?_⟩
    subst hEq
    exact (h.awaited a x ha hx).2

theorem Inv.buried (h : Inv (insert d X) s) (hd : d ∈ s.allJobs) (hFresh : d ∉ X)
    (hRest : s.childrenJobs d = []) : Inv X (s.buried d) := by
  have hMem : ∀ x, x ∈ (s.buried d).allJobs ↔ x ≠ d ∧ x ∈ s.allJobs :=
    fun x => h.nodup.mem_erase_iff
  have hChild : ∀ x p, x ∈ (s.buried d).childrenJobs p ↔ x ≠ d ∧ x ∈ s.childrenJobs p :=
    fun x p => (h.childNodup p).mem_erase_iff
  have hOut : ∀ a, a ∉ X → a ≠ d → a ∉ insert d X :=
    fun a hX hNe hIn => (Set.mem_insert_iff.mp hIn).elim hNe hX
  have hWait : ∀ a, a ≠ d → (s.buried d).waiting a = (s.unawaited d).waiting a :=
    fun a hNe => update_of_ne hNe _ _
  have hSelf : (s.buried d).waiting d = [] := update_self _ _ _
  constructor
  · exact h.nodup.erase d
  · exact fun x hx => h.old x ((hMem x).mp hx).2
  · intro x hx
    by_cases hEq : x = d
    · subst hEq
      exact ⟨hSelf, by simp [Forest.buried, hRest]⟩
    · have hDead := h.dead x fun hIn => hx ((hMem x).mpr ⟨hEq, hIn⟩)
      refine ⟨?_, by simp [Forest.buried, hDead.2]⟩
      rw [hWait x hEq, Forest.unawaited_waiting, hDead.1]
      simp
  · intro x p
    rw [hChild]
    by_cases hEq : x = d
    · subst hEq
      simp [Forest.buried]
    · simp [Forest.buried, hEq, h.node]
  · exact fun p => (h.childNodup p).erase d
  · intro x p hx
    obtain ⟨hNe, hOld⟩ := (hChild x p).mp hx
    obtain ⟨hJob, hParent⟩ := h.child x p hOld
    exact ⟨(hMem x).mpr ⟨hNe, hJob⟩, hParent⟩
  · intro x p hx hX hp
    obtain ⟨hNe, hJob⟩ := (hMem x).mp hx
    exact (hChild x p).mpr ⟨hNe, h.linked x p hJob (hOut x hX hNe) hp⟩
  · intro a x hX hx
    by_cases hEq : a = d
    · subst hEq
      rw [hSelf] at hx
      cases hx
    · rw [hWait a hEq] at hx
      obtain ⟨hOld, hNe⟩ := h.mem_unawaited (hOut a hX hEq) hx
      obtain ⟨hJob, hParent⟩ := h.awaited a x (hOut a hX hEq) hOld
      exact ⟨(hMem x).mpr ⟨hNe, hJob⟩, hParent⟩
  · intro a hX
    by_cases hEq : a = d
    · subst hEq
      rw [hSelf]
      exact List.nodup_nil
    · rw [hWait a hEq, Forest.unawaited_waiting]
      split
      · exact (h.waitNodup a (hOut a hX hEq)).erase d
      · exact h.waitNodup a (hOut a hX hEq)
  · intro x hx
    obtain ⟨hNe, hJob⟩ := (hMem x).mp hx
    rw [show (s.buried d).deleting = s.deleting from rfl, h.marked x hJob, Set.mem_insert_iff]
    exact or_iff_right hNe
  · intro x hOld hGone
    by_cases hEq : x = d
    · subst hEq
      exact (h.marked x hd).mpr (Set.mem_insert x X)
    · exact h.former x hOld fun hIn => hGone ((hMem x).mpr ⟨hEq, hIn⟩)
  · exact h.garbage

/-- When all children are gone, the rest of `PrepareToDie` takes the job out of the forest. -/
theorem Orphaning.buried (h : Orphaning X d s [] t) (hDoomed : Doomed X d s) :
    Deleted X d s (t.buried d) := by
  have hSubset : ∀ x, x ∈ (t.buried d).allJobs → x ≠ d ∧ x ∈ t.allJobs :=
    fun x hx => h.inv.nodup.mem_erase_iff.mp hx
  have hParent := h.parent hDoomed.acyclic
  constructor
  · exact h.inv.buried h.mem hDoomed.fresh h.rest
  · exact h.inv.nodup.not_mem_erase
  · have hPruned := h.pruned
    refine { hPruned with jobs := ?_, lost := ?_, up := ?_, waiting := ?_, children := ?_,
                          deleting := ?_ }
    · exact List.erase_sublist.trans hPruned.jobs
    · intro x hx hLost
      by_cases hxt : x ∈ t.allJobs
      · have hEq : x = d := by
          by_contra hNe
          exact hLost (h.inv.nodup.mem_erase_iff.mpr ⟨hNe, hxt⟩)
        rw [hEq]
      · exact hPruned.lost x hx hxt
    · exact fun x hx => hPruned.up x (hSubset x hx).2
    · intro a ha
      obtain ⟨hNe, hat⟩ := hSubset a ha
      show update (t.unawaited d).waiting d [] a = _
      rw [update_of_ne hNe, Forest.unawaited_waiting, Forest.unawaited_waiting, hParent,
        hPruned.waiting a hat]
    · intro a ha hNe hRoot
      obtain ⟨-, hat⟩ := hSubset a ha
      show (t.childrenJobs a).erase d = _
      rw [List.erase_of_not_mem, hPruned.children a hat hNe hRoot]
      intro hMem
      rw [← hParent, (h.inv.child d a hMem).2] at hRoot
      cases hRoot
    · exact fun x hx => hPruned.deleting x (hSubset x hx).2

/-- `DeleteLater` deletes when it may go deep enough. -/
theorem deleteLaterN_spec (n : Nat) (X : Set Nat) (s : Forest) (hDoomed : Doomed X d s)
    (hn : s.live < n) : Yields Never (Deleted X d s) (Forest.deleteLaterN n s d) := by
  induction n generalizing X s d with
  | zero => exact absurd hn (Nat.not_lt_zero _)
  | succ n ih =>
      have hStart : Orphaning X d s ((s.mark d).childrenJobs d) (s.mark d) := by
        refine ⟨hDoomed.inv, hDoomed.mem, rfl, ?_, s.live_mark hDoomed.mem hDoomed.alive⟩
        constructor
        case jobs => exact List.Sublist.refl _
        case lost => exact fun x hx hLost => absurd hx hLost
        case up => exact fun x _ => .inl rfl
        case deleting =>
          intro x _ hDel
          by_cases hEq : x = d <;> simp [Forest.mark, hEq, hDel]
        all_goals intros; rfl
      have hLoop : Yields Never (Orphaning X d s [])
          (((s.mark d).childrenJobs d).foldlM
            (Forest.orphan (Forest.deleteLaterN n) d) (s.mark d)) := by
        refine Yields.foldlM (I := Orphaning X d s) ?_ hStart
        intro k l t ht
        have hChild : k ∈ t.childrenJobs d := by
          rw [ht.rest]
          exact List.mem_cons_self
        rcases Forest.orphan_eq (Forest.deleteLaterN n) ht.inv ((ht.inv.node k d).mpr hChild) with
          ⟨g, hg, hEq⟩ | hEq
        · rw [hEq]
          exact ht.adopted hDoomed hg
        · rw [hEq]
          have hLess : (t.rehome none k).live < n := by
            show t.live < n
            have hLess := ht.less
            omega
          exact (ih (insert d X) _ (ht.doomed hDoomed) hLess).imp
            fun u hDel => ht.died hDoomed hDel
      obtain ⟨t, hFold, ht⟩ := hLoop.exists
      have hAlive : ¬ s.deleting d = true := by simp [hDoomed.alive]
      rw [Forest.deleteLaterN, if_neg hAlive, Forest.prepareToDie_eq hFold ht.inv.node]
      exact ht.buried hDoomed

/-- `DeleteLater` on a job that is not dying. -/
theorem deleteLater_spec (hDoomed : Doomed X d s) :
    Yields Never (Deleted X d s) (s.deleteLater d) :=
  deleteLaterN_spec _ X s hDoomed (Nat.lt_succ_of_le s.live_le)

end Lftp.Ports.Job
