import Lftp.Verified.Runs
import Mathlib.Data.List.Nodup
import Mathlib.Logic.Function.Basic

/-!
# The task scheduler

`Schedule` and `ScheduleNew` walk along the lists of ready and of new tasks while the tasks
run, and a task may call `Schedule` again. The activations on the C++ stack are a list of
frames here, so that what a loop has saved in an outer activation can be followed while an
inner one changes the lists.

* `Listed` is the invariant of the lists, `Harmless` what a step may do.
* `schedule_safe` says that in a run whose steps are `Handled` both hold.

A step is not handled where an inner loop takes a task out of its list that an outer loop
has saved as its next one, and where a task is resumed whose class does not put it back.
-/

namespace Lftp.Ports.SMTask

open Lftp.Verified

abbrev TaskId := Nat

/-- `SMTASK_MAX_DEPTH` -/
def maxDepth : Nat := 64

structure Task where
  suspended : Bool
  suspendedSlave : Bool
  running : Nat
  refCount : Nat
  deleting : Bool
  /-- `ResumeInternal` of the class calls that of `SMTask`. -/
  relists : Bool

def Task.isSuspended (task : Task) : Bool := task.suspended || task.suspendedSlave

/-- The position that a loop has saved. -/
structure Saved where
  next : Option TaskId
  /-- The node has not been removed from the list since. -/
  kept : Bool

/-- An activation on the stack, with what it is going to do. -/
inductive Frame
  /-- The program outside of all tasks. -/
  | main
  /-- `Do` of a task, called by `Roll` or by `ScheduleThis`. -/
  | doing (task : TaskId) (rolled : Bool)
  /-- The destructor of a class, before that of `SMTask`. -/
  | destroying (task : TaskId)
  /-- `Schedule` before its first `ScheduleNew`. -/
  | scheduleStart
  /-- `Schedule` before its loop. -/
  | scheduleFirst
  /-- `Schedule` after `ScheduleThis`. -/
  | scheduleThis (saved : Saved)
  /-- `Schedule` after the `ScheduleNew` of its loop. -/
  | scheduleNext (saved : Saved)
  /-- `ScheduleNew` after `ScheduleThis`. -/
  | scheduleNew (saved : Saved)
  /-- `CollectGarbage` before its next task. -/
  | collecting (next : Option TaskId)

/-- What a step is seen to do. -/
inductive Effect
  | entered (task : TaskId)
  | freed (task : TaskId)
  | stepped (saved : Saved)

structure State where
  tasks : TaskId → Option Task
  /-- The number of tasks that were created. -/
  count : Nat
  ready : List TaskId
  new : List TaskId
  deleted : List TaskId
  /-- The innermost first. -/
  frames : List Frame
  /-- The references of type `SMTaskRef` to a task. -/
  held : TaskId → Nat
  /-- The places of a `TaskRefArray` for a task, which do not count. -/
  slots : TaskId → Nat

namespace State

def update (s : State) (t : TaskId) (f : Task → Task) : State :=
  { s with tasks := Function.update s.tasks t ((s.tasks t).map f) }

def incRef (s : State) (t : TaskId) : State :=
  s.update t fun task => { task with refCount := task.refCount + 1 }

/-- The count stays at 0. -/
def decRef (s : State) (t : TaskId) : State :=
  s.update t fun task => { task with refCount := task.refCount - 1 }

def incNext (s : State) (next : Option TaskId) : State := next.elim s s.incRef

def decNext (s : State) (next : Option TaskId) : State := next.elim s s.decRef

/-- The node after that of `t`. -/
def nextOf (l : List TaskId) (t : TaskId) : Option TaskId := l[l.idxOf t + 1]?

end State

def Saved.without (saved : Saved) (t : TaskId) : Saved :=
  if saved.next = some t then { saved with kept := false } else saved

/-- The loops over the ready tasks notice that `t` is gone. -/
def Frame.withoutReady (t : TaskId) : Frame → Frame
  | .scheduleThis saved => .scheduleThis (saved.without t)
  | .scheduleNext saved => .scheduleNext (saved.without t)
  | frame => frame

/-- The loops over the new tasks notice that `t` is gone. -/
def Frame.withoutNew (t : TaskId) : Frame → Frame
  | .scheduleNew saved => .scheduleNew (saved.without t)
  | frame => frame

namespace State

/-- `ready_tasks_node.remove()` -/
def removeReady (s : State) (t : TaskId) : State :=
  { s with ready := s.ready.erase t, frames := s.frames.map (Frame.withoutReady t) }

/-- `new_tasks_node.remove()` -/
def removeNew (s : State) (t : TaskId) : State :=
  { s with new := s.new.erase t, frames := s.frames.map (Frame.withoutNew t) }

/-- `stack_ptr` -/
def depth (s : State) : Nat :=
  s.frames.countP fun
    | .main | .doing _ _ => true
    | _ => false

/-- `Enter` and the call of `Do`; too many tasks on the stack are a failed assertion. -/
def enter (s : State) (t : TaskId) (rolled : Bool) : Option (State × List Effect) :=
  if s.depth < maxDepth then
    let s := s.update t fun task => { task with running := task.running + 1 }
    some ({ s with frames := .doing t rolled :: s.frames }, [.entered t])
  else none

/-- `ScheduleThis` -/
def scheduleThis (s : State) (t : TaskId) : Option (State × List Effect) :=
  match s.tasks t with
  | none => none
  | some task =>
    if t ∉ s.ready then none
    else if task.running ≠ 0 then some (s, [])
    else if task.deleting || task.isSuspended then some (s.removeReady t, [])
    else s.enter t false

/-- Nothing runs any more after a step to a node that is not in the list. -/
def crash (s : State) : Option (State × List Effect) := some ({ s with frames := [] }, [])

/-- The loop of `Schedule` at a node. -/
def scheduleFrom (s : State) (node : Option TaskId) : Option (State × List Effect) :=
  match node with
  | none => some ({ s with frames := .collecting s.deleted.head? :: s.frames }, [])
  | some t =>
    if t ∉ s.ready then s.crash
    else
      let next := nextOf s.ready t
      let s := s.incNext next
      { s with frames := .scheduleThis ⟨next, true⟩ :: s.frames }.scheduleThis t

/-- The loop of `ScheduleNew` at a node. -/
def scheduleNewFrom (s : State) (node : Option TaskId) : Option (State × List Effect) :=
  match node with
  | none => some (s, [])
  | some t =>
    if t ∉ s.new then s.crash
    else
      let next := nextOf s.new t
      let s := s.removeNew t
      let s := { s with ready := t :: s.ready }.incNext next
      { s with frames := .scheduleNew ⟨next, true⟩ :: s.frames }.scheduleThis t

/-- The loop of `CollectGarbage` at a task. -/
def collectFrom (s : State) (t : TaskId) : Option (State × List Effect) :=
  match s.tasks t with
  | none => none
  | some task =>
    let next := nextOf s.deleted t
    if task.running ≠ 0 ∨ task.refCount ≠ 0 then
      some ({ s with frames := .collecting next :: s.frames }, [])
    else
      some ({ s with
        deleted := s.deleted.erase t
        frames := .destroying t :: .collecting next :: s.frames }, [])

/-- What the scheduler does next. -/
def advance (s : State) : Option (State × List Effect) :=
  match s.frames with
  | .scheduleStart :: rest =>
    { s with frames := .scheduleFirst :: rest }.scheduleNewFrom s.new.head?
  | .scheduleFirst :: rest => { s with frames := rest }.scheduleFrom s.ready.head?
  | .scheduleThis saved :: rest =>
    { s with frames := .scheduleNext saved :: rest }.scheduleNewFrom s.new.head?
  | .scheduleNext saved :: rest =>
    (({ s with frames := rest }.decNext saved.next).scheduleFrom saved.next).map
      fun (s, effects) => (s, .stepped saved :: effects)
  | .scheduleNew saved :: rest =>
    (({ s with frames := rest }.decNext saved.next).scheduleNewFrom saved.next).map
      fun (s, effects) => (s, .stepped saved :: effects)
  | .collecting none :: rest => some ({ s with frames := rest }, [])
  | .collecting (some t) :: rest => { s with frames := rest }.collectFrom t
  | _ => none

/-- `ResumeInternal` of the class. -/
def resumeInternal (s : State) (t : TaskId) (task : Task) : State :=
  if task.relists ∧ t ∉ s.new ∧ t ∉ s.ready then { s with new := s.new ++ [t] } else s

/-- `Resume` and `ResumeSlave`, where `clear` is the flag that they clear. -/
def resumeWith (clear : Task → Task) (s : State) (t : TaskId) (task : Task) : State :=
  let s := s.update t clear
  if (clear task).isSuspended then s else s.resumeInternal t task

/-- `DeleteLater` -/
def deleteLater (s : State) (t : TaskId) (task : Task) : State :=
  if task.deleting then s
  else { s.update t (fun task => { task with deleting := true }) with
    deleted := s.deleted ++ [t] }

/-- `_DeleteRef` -/
def deleteRef (s : State) (t : TaskId) (task : Task) : State := (s.decRef t).deleteLater t task

def leave (s : State) (t : TaskId) (rest : List Frame) : State :=
  { s.update t (fun task => { task with running := task.running - 1 }) with frames := rest }

/-- `~SMTask` with its assertions. -/
def destroy (s : State) (t : TaskId) : Option (State × List Effect) :=
  match s.tasks t with
  | none => none
  | some task =>
    if task.running ≠ 0 ∨ task.refCount ≠ 0 ∨ !task.deleting ∨ t ∈ s.deleted then none
    else
      let s := if t ∈ s.ready then s.removeReady t else s
      let s := if t ∈ s.new then s.removeNew t else s
      some ({ s with
        tasks := Function.update s.tasks t none
        frames := s.frames.tail }, [.freed t])

end State

/-! ## Steps -/

/-- What a `Do`, a destructor or the program may do, and how the scheduler goes on. -/
inductive Event
  | create (relists : Bool)
  | suspend (task : TaskId)
  | resume (task : TaskId)
  | suspendSlave (task : TaskId)
  | resumeSlave (task : TaskId)
  | delete (task : TaskId)
  /-- A `SMTaskRef` is set, let go, and borrowed from. -/
  | makeRef (task : TaskId)
  | deleteRef (task : TaskId)
  | borrow (task : TaskId)
  /-- A place of a `TaskRefArray` is set and let go. -/
  | append (task : TaskId)
  | remove (task : TaskId)
  | roll (task : TaskId)
  | schedule
  /-- `Do` or the destructor returns. -/
  | ret (moved : Bool)
  | advance

namespace State

/-- The operation on one task that an event stands for. -/
def operate (s : State) (t : TaskId) (task : Task) : Event → Option State
  | .suspend _ => some (s.update t fun task => { task with suspended := true })
  | .suspendSlave _ => some (s.update t fun task => { task with suspendedSlave := true })
  | .resume _ =>
    if task.suspended then some (s.resumeWith (fun task => { task with suspended := false }) t task)
    else some s
  | .resumeSlave _ =>
    if task.suspendedSlave then
      some (s.resumeWith (fun task => { task with suspendedSlave := false }) t task)
    else some s
  | .delete _ => some (s.deleteLater t task)
  | .makeRef _ => some { s.incRef t with held := Function.update s.held t (s.held t + 1) }
  | .deleteRef _ =>
    if s.held t = 0 then none
    else some { s.deleteRef t task with held := Function.update s.held t (s.held t - 1) }
  | .borrow _ =>
    if s.held t = 0 then none
    else some { s.decRef t with held := Function.update s.held t (s.held t - 1) }
  | .append _ => some { s with slots := Function.update s.slots t (s.slots t + 1) }
  | .remove _ =>
    if s.slots t = 0 then none
    else some { s.deleteRef t task with slots := Function.update s.slots t (s.slots t - 1) }
  | _ => none

/-- `Roll` -/
def roll (s : State) (t : TaskId) (task : Task) : Option (State × List Effect) :=
  if task.running ≠ 0 ∨ task.deleting then some (s, []) else s.enter t true

/-- `Do` of a task or a destructor returns; `Roll` calls `Do` again where it has moved. -/
def ret (s : State) (moved : Bool) : Option (State × List Effect) :=
  match s.frames with
  | .doing t rolled :: rest =>
    match s.tasks t with
    | none => none
    | some task =>
      if rolled ∧ moved ∧ !task.deleting then some (s, [.entered t])
      else some (s.leave t rest, [])
  | .destroying t :: _ => s.destroy t
  | _ => none

/-- `Do` of a task or the program is running. -/
def inDo (s : State) : Bool :=
  match s.frames with
  | .main :: _ | .doing _ _ :: _ => true
  | _ => false

def inDestructor (s : State) : Bool :=
  match s.frames with
  | .destroying _ :: _ => true
  | _ => false

def step (s : State) (e : Event) : Option (State × List Effect) :=
  match e with
  | .advance => s.advance
  | .ret moved => s.ret moved
  | .schedule =>
    if s.inDo then some ({ s with frames := .scheduleStart :: s.frames }, []) else none
  | .create relists =>
    if s.inDo then
      some ({ s with
        tasks := Function.update s.tasks s.count (some ⟨false, false, 0, 0, false, relists⟩)
        count := s.count + 1
        new := s.count :: s.new }, [])
    else none
  | .roll t =>
    match s.tasks t with
    | none => none
    | some task => if s.inDo then s.roll t task else none
  | .suspend t | .resume t | .suspendSlave t | .resumeSlave t | .delete t | .makeRef t
  | .deleteRef t | .borrow t | .append t | .remove t =>
    match s.tasks t with
    | none => none
    | some task =>
      if s.inDo || s.inDestructor then (s.operate t task e).map fun s => (s, []) else none

/-- `init_task` has entered itself. -/
def start : State where
  tasks := fun t => if t = 0 then some ⟨false, false, 1, 0, false, true⟩ else none
  count := 1
  ready := []
  new := [0]
  deleted := []
  frames := [.main]
  held := fun _ => 0
  slots := fun _ => 0

end State

/-! ## What is wanted -/

/-- A task that is neither suspended nor deleted is in one of the two lists, once. -/
def Listed (s : State) : Prop :=
  ∀ t task, s.tasks t = some task → task.isSuspended = false → task.deleting = false →
    (s.ready ++ s.new).count t = 1

/-- `Do` of the task is being run by an activation. -/
def Running (frames : List Frame) (t : TaskId) : Prop := ∃ rolled, .doing t rolled ∈ frames

/-- What the effects of a step may be. -/
def Harmless (s s' : State) : Effect → Prop
  | .entered t => (∃ rolled rest, s'.frames = .doing t rolled :: rest ∧ ¬ Running rest t)
      ∧ ∀ task, s'.tasks t = some task → task.deleting = false
  | .freed t => ¬ Running s.frames t
      ∧ ∃ task, s.tasks t = some task ∧ task.running = 0 ∧ task.refCount = 0
  | .stepped saved => saved.next.isSome → saved.kept = true

/-- The task that a loop over the ready tasks has saved. -/
def Frame.savedReady : Frame → Option TaskId
  | .scheduleThis saved | .scheduleNext saved => saved.next
  | _ => none

/-- The task that a loop over the new tasks has saved. -/
def Frame.savedNew : Frame → Option TaskId
  | .scheduleNew saved => saved.next
  | _ => none

def SavedReady (frames : List Frame) (t : TaskId) : Prop :=
  ∃ frame ∈ frames, frame.savedReady = some t

def SavedNew (frames : List Frame) (t : TaskId) : Prop := ∃ frame ∈ frames, frame.savedNew = some t

/-- The task that a loop of the scheduler comes to. -/
inductive Turn
  | ready (task : TaskId)
  | new (task : TaskId)
  | collect (task : TaskId)

def turn (s : State) : Option Turn :=
  match s.frames with
  | .scheduleStart :: _ | .scheduleThis _ :: _ => s.new.head?.map .new
  | .scheduleFirst :: _ => s.ready.head?.map .ready
  | .scheduleNext saved :: _ => saved.next.map .ready
  | .scheduleNew saved :: _ => saved.next.map .new
  | .collecting next :: _ => next.map .collect
  | _ => none

/-- An inner loop does not take a task out of its list that an outer one has saved. -/
def TurnHandled (s : State) : Turn → Prop
  | .ready t => ∀ task, s.tasks t = some task → task.running = 0 →
      task.deleting ∨ task.isSuspended → ¬ SavedReady s.frames.tail t
  | .new t => ¬ SavedNew s.frames.tail t
  | .collect t => ∀ task, s.tasks t = some task → task.running = 0 → task.refCount = 0 →
      ¬ SavedReady s.frames t ∧ ¬ SavedNew s.frames t

/-- The class puts the task back, or it has not been taken out. -/
def ResumeHandled (s : State) (clear : Task → Task) (t : TaskId) : Prop :=
  ∀ task, s.tasks t = some task → (clear task).isSuspended = false → task.deleting = false →
    task.relists ∨ t ∈ s.ready ++ s.new

def Handled (s : State) : Event → Prop
  | .resume t => ResumeHandled s (fun task => { task with suspended := false }) t
  | .resumeSlave t => ResumeHandled s (fun task => { task with suspendedSlave := false }) t
  | .advance => ∀ turn', turn s = some turn' → TurnHandled s turn'
  | _ => True

/-- The steps that meet `ok`. -/
def Steps (ok : State → Event → Prop) (s : State) (e : Event) (s' : State) : Prop :=
  ok s e ∧ ∃ effects, s.step e = some (s', effects)

abbrev Reached (ok : State → Event → Prop) (s : State) : Prop :=
  Reach (· = State.start) (Steps ok) s

/-! ## The invariant -/

/-- The number of activations that run `Do` of the task. -/
def doings (frames : List Frame) (t : TaskId) : Nat :=
  frames.countP fun
    | .doing u _ => u = t
    | _ => false

/-- What a frame has saved is still in its list. -/
def Frame.Holds (ready new : List TaskId) : Frame → Prop
  | .scheduleThis saved | .scheduleNext saved =>
    ∀ t, saved.next = some t → saved.kept = true ∧ t ∈ ready
  | .scheduleNew saved => ∀ t, saved.next = some t → saved.kept = true ∧ t ∈ new
  | _ => True

structure Core (s : State) : Prop where
  nodup : (s.ready ++ s.new).Nodup
  bounded : ∀ t ∈ s.ready ++ s.new, t < s.count
  created : ∀ t task, s.tasks t = some task → t < s.count
  listed : ∀ t task, s.tasks t = some task → task.isSuspended = false → task.deleting = false →
    t ∈ s.ready ++ s.new
  holds : ∀ frame ∈ s.frames, frame.Holds s.ready s.new
  running : ∀ t task, s.tasks t = some task →
    task.running = doings s.frames t + if t = 0 then 1 else 0
  single : ∀ t, doings s.frames t ≤ 1
  active : ∀ t, doings s.frames t ≠ 0 → t < s.count
  started : 0 < s.count

/-- No destructor is running. -/
def Calm (frames : List Frame) : Prop := ∀ t, .destroying t ∉ frames

structure Inv (s : State) : Prop extends Core s where
  calm : Calm s.frames.tail
  doomed : ∀ t, .destroying t ∈ s.frames → ¬ SavedReady s.frames t ∧ ¬ SavedNew s.frames t

variable {s s' : State} {t u : TaskId} {frame : Frame} {rest frames : List Frame}

@[simp] theorem doings_doing (u : TaskId) (rolled : Bool) (rest : List Frame) (t : TaskId) :
    doings (.doing u rolled :: rest) t = doings rest t + if u = t then 1 else 0 := by
  simp [doings, List.countP_cons]

/-- The frames of the scheduler run no `Do`. -/
theorem doings_other (hFrame : ∀ u rolled, frame ≠ .doing u rolled) (rest : List Frame)
    (t : TaskId) : doings (frame :: rest) t = doings rest t := by
  cases frame with
  | doing u rolled => exact absurd rfl (hFrame u rolled)
  | _ => simp [doings]

theorem running_iff (frames : List Frame) (t : TaskId) :
    Running frames t ↔ doings frames t ≠ 0 := by
  unfold Running doings
  rw [ne_eq, List.countP_eq_zero]
  constructor
  · rintro ⟨rolled, hMem⟩ hNone
    exact hNone _ hMem (by simp)
  · intro hNot
    by_contra hNever
    apply hNot
    intro frame hFrame hTrue
    cases frame with
    | doing u rolled =>
        rw [decide_eq_true_eq] at hTrue
        subst hTrue
        exact hNever ⟨rolled, hFrame⟩
    | _ => cases hTrue

theorem tasks_update (s : State) (t u : TaskId) (f : Task → Task) :
    (s.update t f).tasks u = if u = t then (s.tasks t).map f else s.tasks u :=
  Function.update_apply ..

theorem Core.update (h : Core s) {f : Task → Task} (hRun : ∀ task, (f task).running = task.running)
    (hListed : ∀ task, s.tasks t = some task → (f task).isSuspended = false →
      (f task).deleting = false → t ∈ s.ready ++ s.new) : Core (s.update t f) := by
  have hTask : ∀ u task', (s.update t f).tasks u = some task' →
      s.tasks u = some task' ∨ u = t ∧ ∃ task, s.tasks t = some task ∧ f task = task' := by
    intro u task' hSome
    rw [tasks_update] at hSome
    split at hSome
    · rename_i hEq
      obtain ⟨task, hOld, hNew⟩ := Option.map_eq_some_iff.mp hSome
      exact .inr ⟨hEq, task, hOld, hNew⟩
    · exact .inl hSome
  refine { h with created := ?_, listed := ?_, running := ?_ }
  · intro u task' hSome
    rcases hTask u task' hSome with hOld | ⟨hEq, task, hOld, -⟩
    · exact h.created u task' hOld
    · rw [hEq]
      exact h.created t task hOld
  · intro u task' hSome hRuns hStays
    rcases hTask u task' hSome with hOld | ⟨hEq, task, hOld, hNew⟩
    · exact h.listed u task' hOld hRuns hStays
    · subst hNew
      rw [hEq]
      exact hListed task hOld hRuns hStays
  · intro u task' hSome
    rcases hTask u task' hSome with hOld | ⟨hEq, task, hOld, hNew⟩
    · exact h.running u task' hOld
    · subst hNew
      rw [hRun, hEq]
      exact h.running t task hOld

theorem Core.incRef (h : Core s) (t : TaskId) : Core (s.incRef t) :=
  h.update (fun _ => rfl) fun task hTask => h.listed t task hTask

theorem Core.decRef (h : Core s) (t : TaskId) : Core (s.decRef t) :=
  h.update (fun _ => rfl) fun task hTask => h.listed t task hTask

theorem Core.incNext (h : Core s) (next : Option TaskId) : Core (s.incNext next) := by
  cases next with
  | none => exact h
  | some t => exact h.incRef t

theorem Core.decNext (h : Core s) (next : Option TaskId) : Core (s.decNext next) := by
  cases next with
  | none => exact h
  | some t => exact h.decRef t

/-! ### Lists -/

theorem savedReady_cons :
    SavedReady (frame :: frames) t ↔ frame.savedReady = some t ∨ SavedReady frames t := by
  unfold SavedReady
  simp

theorem savedNew_cons :
    SavedNew (frame :: frames) t ↔ frame.savedNew = some t ∨ SavedNew frames t := by
  unfold SavedNew
  simp

theorem withoutReady_eq (h : frame.savedReady ≠ some t) : frame.withoutReady t = frame := by
  cases frame with
  | scheduleThis saved | scheduleNext saved => exact congrArg _ (if_neg h)
  | _ => rfl

theorem withoutNew_eq (h : frame.savedNew ≠ some t) : frame.withoutNew t = frame := by
  cases frame with
  | scheduleNew saved => exact congrArg _ (if_neg h)
  | _ => rfl

theorem map_withoutReady (h : ¬ SavedReady frames t) :
    frames.map (Frame.withoutReady t) = frames := by
  have hEach : ∀ frame ∈ frames, frame.withoutReady t = frame :=
    fun frame hFrame => withoutReady_eq fun hEq => h ⟨frame, hFrame, hEq⟩
  rw [List.map_congr_left hEach, List.map_id']

theorem map_withoutNew (h : ¬ SavedNew frames t) :
    frames.map (Frame.withoutNew t) = frames := by
  have hEach : ∀ frame ∈ frames, frame.withoutNew t = frame :=
    fun frame hFrame => withoutNew_eq fun hEq => h ⟨frame, hFrame, hEq⟩
  rw [List.map_congr_left hEach, List.map_id']

/-- A frame does not mind changes of the lists that keep what it has saved. -/
theorem Frame.Holds.mono {ready new ready' new' : List TaskId} (h : frame.Holds ready new)
    (hReady : ∀ t, frame.savedReady = some t → t ∈ ready → t ∈ ready')
    (hNew : ∀ t, frame.savedNew = some t → t ∈ new → t ∈ new') : frame.Holds ready' new' := by
  cases frame with
  | scheduleThis saved | scheduleNext saved =>
      exact fun t hNext => ⟨(h t hNext).1, hReady t hNext (h t hNext).2⟩
  | scheduleNew saved => exact fun t hNext => ⟨(h t hNext).1, hNew t hNext (h t hNext).2⟩
  | _ => trivial

/-- A task that is not saved leaves the list of ready tasks. -/
theorem Core.removeReady (h : Core s) (hUnsaved : ¬ SavedReady s.frames t)
    (hGone : ∀ task, s.tasks t = some task → task.deleting = true ∨ task.isSuspended = true) :
    Core (s.removeReady t) := by
  have hSub : (s.ready.erase t ++ s.new).Sublist (s.ready ++ s.new) :=
    List.erase_sublist.append_right _
  have hFrames : (s.removeReady t).frames = s.frames := map_withoutReady hUnsaved
  constructor
  · exact h.nodup.sublist hSub
  · exact fun u hu => h.bounded u (hSub.subset hu)
  · exact h.created
  · intro u task hTask hRuns hStays
    have hMem := h.listed u task hTask hRuns hStays
    have hNe : u ≠ t := by
      intro hEq
      subst hEq
      rcases hGone task hTask with hDeleting | hSuspended
      · rw [hStays] at hDeleting
        cases hDeleting
      · rw [hRuns] at hSuspended
        cases hSuspended
    show u ∈ s.ready.erase t ++ s.new
    rw [List.mem_append, List.mem_erase_of_ne hNe, ← List.mem_append]
    exact hMem
  · rw [hFrames]
    intro frame hFrame
    refine (h.holds frame hFrame).mono (fun u hSaved hu => ?_) fun _ _ => id
    have hNe : u ≠ t := fun hEq => hUnsaved ⟨frame, hFrame, hEq ▸ hSaved⟩
    exact (List.mem_erase_of_ne hNe).mpr hu
  · rw [hFrames]
    exact h.running
  · rw [hFrames]
    exact h.single
  · rw [hFrames]
    exact h.active
  · exact h.started

/-- A new task that is not saved becomes a ready one. -/
theorem Core.toReady (h : Core s) (hNew : t ∈ s.new) (hUnsaved : ¬ SavedNew s.frames t) :
    Core { s.removeNew t with ready := t :: s.ready } := by
  have hPerm : (t :: s.ready ++ s.new.erase t).Perm (s.ready ++ s.new) := by
    have hSplit := (List.perm_cons_erase hNew).append_left s.ready
    exact (List.perm_middle.symm.trans hSplit.symm)
  have hFrames : (s.removeNew t).frames = s.frames := map_withoutNew hUnsaved
  constructor
  · exact hPerm.nodup_iff.mpr h.nodup
  · exact fun u hu => h.bounded u (hPerm.mem_iff.mp hu)
  · exact h.created
  · exact fun u task hTask hRuns hStays => hPerm.mem_iff.mpr (h.listed u task hTask hRuns hStays)
  · show ∀ frame ∈ (s.removeNew t).frames, _
    rw [hFrames]
    intro frame hFrame
    refine (h.holds frame hFrame).mono (fun u _ hu => List.mem_cons_of_mem _ hu)
      fun u hSaved hu => ?_
    have hNe : u ≠ t := fun hEq => hUnsaved ⟨frame, hFrame, hEq ▸ hSaved⟩
    exact (List.mem_erase_of_ne hNe).mpr hu
  · show ∀ u (task : Task), _ → task.running = doings (s.removeNew t).frames u + _
    rw [hFrames]
    exact h.running
  · show ∀ u, doings (s.removeNew t).frames u ≤ 1
    rw [hFrames]
    exact h.single
  · show ∀ u, doings (s.removeNew t).frames u ≠ 0 → _
    rw [hFrames]
    exact h.active
  · exact h.started

/-- The saved task is another one, and in the list. -/
theorem nextOf_spec {l : List TaskId} (hNodup : l.Nodup) (ht : t ∈ l)
    (h : State.nextOf l t = some u) : u ∈ l ∧ u ≠ t := by
  unfold State.nextOf at h
  obtain ⟨hBound, hEq⟩ := List.getElem?_eq_some_iff.mp h
  refine ⟨hEq ▸ List.getElem_mem hBound, fun hSame => ?_⟩
  subst hSame
  have hIndex : l.idxOf l[l.idxOf u + 1] = l.idxOf u + 1 := hNodup.idxOf_getElem _ hBound
  rw [hEq] at hIndex
  omega

theorem Core.setFrames (h : Core s) (hHolds : ∀ frame ∈ frames, frame.Holds s.ready s.new)
    (hDoings : ∀ t, doings frames t = doings s.frames t) : Core { s with frames := frames } := by
  refine { h with holds := hHolds, running := ?_, single := ?_, active := ?_ }
  · intro t task hTask
    rw [hDoings]
    exact h.running t task hTask
  · intro t
    rw [hDoings]
    exact h.single t
  · intro t
    rw [hDoings]
    exact h.active t

/-! ### Turns of the scheduler -/

/-- A frame of the scheduler on top. -/
theorem Core.push (h : Core s) (hFrame : ∀ u rolled, frame ≠ .doing u rolled)
    (hHolds : frame.Holds s.ready s.new) : Core { s with frames := frame :: s.frames } := by
  apply h.setFrames
  · intro f hf
    rcases List.mem_cons.mp hf with hHead | hTail
    · rw [hHead]
      exact hHolds
    · exact h.holds f hTail
  · exact doings_other hFrame s.frames

theorem Core.pop (h : Core s) (hFrames : s.frames = frame :: rest)
    (hFrame : ∀ u rolled, frame ≠ .doing u rolled) : Core { s with frames := rest } := by
  apply h.setFrames
  · intro f hf
    apply h.holds f
    rw [hFrames]
    exact List.mem_cons_of_mem _ hf
  · intro t
    rw [hFrames, doings_other hFrame]

theorem Calm.cons {f : Frame} (h : Calm rest) (hFrame : ∀ t, f ≠ .destroying t) :
    Calm (f :: rest) := by
  intro t ht
  rcases List.mem_cons.mp ht with hHead | hTail
  · exact hFrame t hHead.symm
  · exact h t hTail

theorem Calm.inv (h : Core s) (hCalm : Calm s.frames) : Inv s :=
  { h with
    calm := fun t ht => hCalm t (List.mem_of_mem_tail ht)
    doomed := fun t ht => absurd ht (hCalm t) }

/-- What a step leads to: the invariant, and effects that do no harm. -/
structure Fine (s₀ : State) (r : State × List Effect) : Prop where
  inv : Inv r.1
  harmless : ∀ effect ∈ r.2, Harmless s₀ r.1 effect

/-- `Do` is entered where it is not running. -/
theorem Core.enter (h : Core s) (hCalm : Calm s.frames) {task : Task}
    (hTask : s.tasks t = some task) (hIdle : task.running = 0) (hStays : task.deleting = false)
    {rolled : Bool} {r : State × List Effect} (hStep : s.enter t rolled = some r) (s₀ : State) :
    Fine s₀ r ∧ Calm r.1.frames := by
  have hNone : doings s.frames t = 0 := by
    have hRunning := h.running t task hTask
    omega
  unfold State.enter at hStep
  split at hStep
  · cases hStep
    have hCalm' : Calm (.doing t rolled :: s.frames) := hCalm.cons fun _ => by simp
    refine ⟨⟨Calm.inv ?_ hCalm', ?_⟩, hCalm'⟩
    · constructor
      · exact h.nodup
      · exact h.bounded
      · intro u task' hu
        rw [tasks_update] at hu
        split at hu
        · rename_i hEq
          rw [hEq]
          exact h.created t task hTask
        · exact h.created u task' hu
      · intro u task' hu hRuns hNot
        rw [tasks_update] at hu
        split at hu
        · rename_i hEq
          rw [hTask] at hu
          cases hu
          rw [hEq]
          exact h.listed t task hTask hRuns hNot
        · exact h.listed u task' hu hRuns hNot
      · intro frame hFrame
        rcases List.mem_cons.mp hFrame with hHead | hTail
        · rw [hHead]
          trivial
        · exact h.holds frame hTail
      · intro u task' hu
        rw [tasks_update] at hu
        show task'.running = doings (.doing t rolled :: s.frames) u + _
        rw [doings_doing]
        split at hu
        · rename_i hEq
          rw [hTask] at hu
          cases hu
          have hRunning := h.running t task hTask
          rw [hEq, if_pos rfl]
          show task.running + 1 = _
          omega
        · rename_i hNe
          rw [if_neg (Ne.symm hNe)]
          exact h.running u task' hu
      · intro u
        show doings (.doing t rolled :: s.frames) u ≤ 1
        rw [doings_doing]
        have hSingle := h.single u
        split
        · rename_i hEq
          rw [← hEq]
          omega
        · omega
      · intro u hDoing
        change doings (.doing t rolled :: s.frames) u ≠ 0 at hDoing
        rw [doings_doing] at hDoing
        split at hDoing
        · rename_i hEq
          rw [← hEq]
          exact h.created t task hTask
        · exact h.active u hDoing
      · exact h.started
    · intro effect hEffect
      rw [List.mem_singleton] at hEffect
      subst hEffect
      refine ⟨⟨rolled, s.frames, rfl, ?_⟩, ?_⟩
      · rw [running_iff]
        omega
      · intro task' hu
        rw [tasks_update, if_pos rfl, hTask] at hu
        cases hu
        exact hStays
  · cases hStep

theorem Core.scheduleThis (h : Core s) (hCalm : Calm s.frames)
    (hHandled : ∀ task, s.tasks t = some task → task.running = 0 →
      task.deleting = true ∨ task.isSuspended = true → ¬ SavedReady s.frames t)
    {r : State × List Effect} (hStep : s.scheduleThis t = some r) (s₀ : State) :
    Fine s₀ r ∧ Calm r.1.frames := by
  unfold State.scheduleThis at hStep
  cases hTask : s.tasks t with
  | none =>
      rw [hTask] at hStep
      cases hStep
  | some task =>
      rw [hTask] at hStep
      dsimp only at hStep
      split at hStep
      · cases hStep
      · split at hStep
        · cases hStep
          exact ⟨⟨Calm.inv h hCalm, fun _ hMem => by cases hMem⟩, hCalm⟩
        · rename_i hIdle
          have hIdle : task.running = 0 := not_not.mp hIdle
          split at hStep
          · rename_i hGone
            rw [Bool.or_eq_true] at hGone
            have hUnsaved := hHandled task hTask hIdle hGone
            cases hStep
            have hCalm' : Calm (s.removeReady t).frames := by
              show Calm (s.frames.map (Frame.withoutReady t))
              rw [map_withoutReady hUnsaved]
              exact hCalm
            refine ⟨⟨Calm.inv (h.removeReady hUnsaved fun task' hTask' => ?_) hCalm',
              fun _ hMem => by cases hMem⟩, hCalm'⟩
            rw [hTask] at hTask'
            cases hTask'
            exact hGone
          · rename_i hGone
            have hStays : task.deleting = false := by
              cases hDeleting : task.deleting with
              | false => rfl
              | true =>
                  rw [hDeleting] at hGone
                  exact absurd rfl hGone
            exact h.enter hCalm hTask hIdle hStays hStep s₀

theorem tasks_incNext (s : State) {next : Option TaskId} (hNe : next ≠ some t) :
    (s.incNext next).tasks t = s.tasks t := by
  cases next with
  | none => rfl
  | some u =>
      show (s.update u _).tasks t = _
      rw [tasks_update, if_neg fun hEq => hNe (congrArg some hEq.symm)]

theorem frames_incNext (s : State) (next : Option TaskId) :
    (s.incNext next).frames = s.frames := by
  cases next <;> rfl

theorem ready_incNext (s : State) (next : Option TaskId) : (s.incNext next).ready = s.ready := by
  cases next <;> rfl

theorem new_incNext (s : State) (next : Option TaskId) : (s.incNext next).new = s.new := by
  cases next <;> rfl

theorem Core.scheduleFrom (h : Core s) (hCalm : Calm s.frames) {node : Option TaskId}
    (hNode : ∀ t, node = some t → t ∈ s.ready)
    (hHandled : ∀ t, node = some t → ∀ task, s.tasks t = some task → task.running = 0 →
      task.deleting = true ∨ task.isSuspended = true → ¬ SavedReady s.frames t)
    {r : State × List Effect} (hStep : s.scheduleFrom node = some r) (s₀ : State) :
    Fine s₀ r ∧ Calm r.1.frames := by
  cases node with
  | none =>
      cases hStep
      have hCalm' := hCalm.cons (f := .collecting s.deleted.head?) fun _ => by simp
      exact ⟨⟨Calm.inv (h.push (fun _ _ => by simp) trivial) hCalm', fun _ hMem => by cases hMem⟩,
        hCalm'⟩
  | some t =>
      have ht : t ∈ s.ready := hNode t rfl
      have hReady : s.ready.Nodup := (List.nodup_append.mp h.nodup).1
      have hNe : State.nextOf s.ready t ≠ some t := fun hEq => (nextOf_spec hReady ht hEq).2 rfl
      unfold State.scheduleFrom at hStep
      dsimp only at hStep
      rw [if_neg (not_not.mpr ht)] at hStep
      refine Core.scheduleThis ((h.incNext _).push (fun _ _ => by simp) ?_) ?_ ?_ hStep s₀
      · intro u hNext
        rw [ready_incNext]
        exact ⟨rfl, (nextOf_spec hReady ht hNext).1⟩
      · rw [frames_incNext]
        exact hCalm.cons fun _ => by simp
      · intro task hTask hIdle hGone hSaved
        change (s.incNext _).tasks t = some task at hTask
        rw [tasks_incNext s hNe] at hTask
        rw [frames_incNext, savedReady_cons] at hSaved
        rcases hSaved with hHead | hOuter
        · exact hNe hHead
        · exact hHandled t rfl task hTask hIdle hGone hOuter

/-- A new task is saved by no loop over the ready ones. -/
theorem Core.new_unsaved (h : Core s) (ht : t ∈ s.new) : ¬ SavedReady s.frames t := by
  rintro ⟨frame, hFrame, hEq⟩
  have hReady : t ∈ s.ready := by
    have hHolds := h.holds frame hFrame
    cases frame with
    | scheduleThis saved | scheduleNext saved => exact (hHolds t hEq).2
    | _ => cases hEq
  exact (List.nodup_append.mp h.nodup).2.2 t hReady t ht rfl

theorem Core.scheduleNewFrom (h : Core s) (hCalm : Calm s.frames) {node : Option TaskId}
    (hNode : ∀ t, node = some t → t ∈ s.new)
    (hHandled : ∀ t, node = some t → ¬ SavedNew s.frames t)
    {r : State × List Effect} (hStep : s.scheduleNewFrom node = some r) (s₀ : State) :
    Fine s₀ r ∧ Calm r.1.frames := by
  cases node with
  | none =>
      cases hStep
      exact ⟨⟨Calm.inv h hCalm, fun _ hMem => by cases hMem⟩, hCalm⟩
  | some t =>
      have ht : t ∈ s.new := hNode t rfl
      have hUnsaved := hHandled t rfl
      have hNew : s.new.Nodup := (List.nodup_append.mp h.nodup).2.1
      have hCore := h.toReady ht hUnsaved
      have hFrames : (s.removeNew t).frames = s.frames := map_withoutNew hUnsaved
      unfold State.scheduleNewFrom at hStep
      dsimp only at hStep
      rw [if_neg (not_not.mpr ht)] at hStep
      refine Core.scheduleThis ((hCore.incNext _).push (fun _ _ => by simp) ?_) ?_ ?_ hStep s₀
      · intro u hNext
        obtain ⟨hMem, hNe⟩ := nextOf_spec hNew ht hNext
        rw [new_incNext]
        exact ⟨rfl, (List.mem_erase_of_ne hNe).mpr hMem⟩
      · rw [frames_incNext]
        show Calm (_ :: (s.removeNew t).frames)
        rw [hFrames]
        exact hCalm.cons fun _ => by simp
      · intro task _ _ _ hSaved
        rw [frames_incNext, savedReady_cons] at hSaved
        rcases hSaved with hHead | hOuter
        · cases hHead
        · change SavedReady (s.removeNew t).frames t at hOuter
          rw [hFrames] at hOuter
          exact h.new_unsaved ht hOuter

theorem Core.collectFrom (h : Core s) (hCalm : Calm s.frames)
    (hHandled : ∀ task, s.tasks t = some task → task.running = 0 → task.refCount = 0 →
      ¬ SavedReady s.frames t ∧ ¬ SavedNew s.frames t)
    {r : State × List Effect} (hStep : s.collectFrom t = some r) (s₀ : State) : Fine s₀ r := by
  unfold State.collectFrom at hStep
  cases hTask : s.tasks t with
  | none =>
      rw [hTask] at hStep
      cases hStep
  | some task =>
      rw [hTask] at hStep
      dsimp only at hStep
      generalize State.nextOf s.deleted t = next at hStep
      have hCalm' : Calm (.collecting next :: s.frames) := hCalm.cons fun _ => by simp
      have hCore : Core { s with frames := .collecting next :: s.frames } :=
        h.push (fun _ _ => by simp) trivial
      split at hStep
      · cases hStep
        exact ⟨Calm.inv hCore hCalm', fun _ hMem => by cases hMem⟩
      · rename_i hNot
        rw [not_or, not_not, not_not] at hNot
        obtain ⟨hReady, hNew⟩ := hHandled task hTask hNot.1 hNot.2
        cases hStep
        have hPush : Core { s with frames := .destroying t :: .collecting next :: s.frames } :=
          hCore.push (fun _ _ => by simp) trivial
        refine ⟨{ hPush with calm := hCalm', doomed := ?_ }, fun _ hMem => by cases hMem⟩
        intro u hu
        have hEq : u = t := by
          rcases List.mem_cons.mp hu with hHead | hTail
          · cases hHead
            rfl
          · exact absurd hTail (hCalm' u)
        subst hEq
        rw [savedReady_cons, savedReady_cons, savedNew_cons, savedNew_cons]
        simp [Frame.savedReady, Frame.savedNew, hReady, hNew]

/-- Stepping to what was saved is harmless, as the node is still in the list. -/
theorem Fine.stepped {s₀ : State} {saved : Saved} {x : Option (State × List Effect)}
    (hKept : ∀ t, saved.next = some t → saved.kept = true)
    (hFine : ∀ r, x = some r → Fine s₀ r) {r : State × List Effect}
    (hStep : (x.map fun (s, effects) => (s, Effect.stepped saved :: effects)) = some r) :
    Fine s₀ r := by
  obtain ⟨⟨s, effects⟩, hRun, hEq⟩ := Option.map_eq_some_iff.mp hStep
  subst hEq
  have hInner := hFine _ hRun
  refine ⟨hInner.inv, fun effect hEffect => ?_⟩
  rcases List.mem_cons.mp hEffect with hHead | hTail
  · rw [hHead]
    intro hSome
    obtain ⟨t, ht⟩ := Option.isSome_iff_exists.mp hSome
    exact hKept t ht
  · exact hInner.harmless effect hTail

theorem frames_decNext (s : State) (next : Option TaskId) :
    (s.decNext next).frames = s.frames := by
  cases next <;> rfl

theorem ready_decNext (s : State) (next : Option TaskId) : (s.decNext next).ready = s.ready := by
  cases next <;> rfl

theorem new_decNext (s : State) (next : Option TaskId) : (s.decNext next).new = s.new := by
  cases next <;> rfl

/-- What decides about a task does not depend on the count. -/
theorem tasks_decNext {next : Option TaskId} {task : Task}
    (h : (s.decNext next).tasks t = some task) : ∃ old, s.tasks t = some old
      ∧ old.running = task.running ∧ old.deleting = task.deleting
      ∧ old.isSuspended = task.isSuspended := by
  cases next with
  | none => exact ⟨task, h, rfl, rfl, rfl⟩
  | some u =>
      change (s.update u _).tasks t = some task at h
      rw [tasks_update] at h
      split at h
      · rename_i hEq
        obtain ⟨old, hOld, hNew⟩ := Option.map_eq_some_iff.mp h
        subst hNew
        exact ⟨old, hEq ▸ hOld, rfl, rfl, rfl⟩
      · exact ⟨task, h, rfl, rfl, rfl⟩

theorem Inv.advance (h : Inv s) (hHandled : Handled s .advance) {r : State × List Effect}
    (hStep : s.advance = some r) : Fine s r := by
  have hTail : ∀ {frame : Frame} {rest : List Frame}, s.frames = frame :: rest →
      Calm rest ∧ s.frames.tail = rest := by
    intro frame rest hFrames
    have hCalm := h.calm
    rw [hFrames] at hCalm ⊢
    exact ⟨hCalm, rfl⟩
  -- A loop over the new tasks starts in an inner activation.
  have hStart : ∀ (frame' : Frame) {frame : Frame} {rest : List Frame}, s.frames = frame :: rest →
      (∀ u rolled, frame ≠ .doing u rolled) → (∀ u rolled, frame' ≠ .doing u rolled) →
      (∀ u, frame' ≠ .destroying u) → frame'.savedNew = none → frame'.Holds s.ready s.new →
      turn s = s.new.head?.map .new →
      ∀ r, { s with frames := frame' :: rest }.scheduleNewFrom s.new.head? = some r →
        Fine s r := by
    intro frame' frame rest hFrames hFrame hFrame' hOther hNone hHolds hTurn r hRun
    obtain ⟨hCalm, hRest⟩ := hTail hFrames
    refine (((h.pop hFrames hFrame).push hFrame' hHolds).scheduleNewFrom (hCalm.cons hOther)
      (fun t ht => List.mem_of_mem_head? ht) (fun t ht => ?_) hRun s).1
    rw [savedNew_cons, hNone]
    have hUnsaved := hHandled (.new t) (by rw [hTurn, ht]; rfl)
    change ¬ SavedNew s.frames.tail t at hUnsaved
    rw [hRest] at hUnsaved
    simpa using hUnsaved
  unfold State.advance at hStep
  split at hStep
  · rename_i rest hFrames
    exact hStart .scheduleFirst hFrames (fun _ _ => by simp) (fun _ _ => by simp)
      (fun _ => by simp) rfl trivial (by unfold turn; rw [hFrames]) r hStep
  · rename_i rest hFrames
    obtain ⟨hCalm, hRest⟩ := hTail hFrames
    refine ((h.pop hFrames fun _ _ => by simp).scheduleFrom hCalm
      (fun t ht => List.mem_of_mem_head? ht) (fun t ht task hTask hIdle hGone => ?_) hStep s).1
    have hUnsaved := hHandled (.ready t) (by unfold turn; rw [hFrames]; dsimp only; rw [ht]; rfl)
      task hTask hIdle hGone
    rw [hRest] at hUnsaved
    exact hUnsaved
  · rename_i saved rest hFrames
    have hHolds := h.holds (.scheduleThis saved) (by rw [hFrames]; exact List.mem_cons_self)
    exact hStart (.scheduleNext saved) hFrames (fun _ _ => by simp) (fun _ _ => by simp)
      (fun _ => by simp) rfl hHolds (by unfold turn; rw [hFrames]) r hStep
  · rename_i saved rest hFrames
    obtain ⟨hCalm, hRest⟩ := hTail hFrames
    have hHolds := h.holds (.scheduleNext saved) (by rw [hFrames]; exact List.mem_cons_self)
    refine Fine.stepped (fun t ht => (hHolds t ht).1) (fun r hRun => ?_) hStep
    refine (((h.pop hFrames fun _ _ => by simp).decNext saved.next).scheduleFrom ?_
      (fun t ht => ?_) (fun t ht task hTask hIdle hGone => ?_) hRun s).1
    · rw [frames_decNext]
      exact hCalm
    · rw [ready_decNext]
      exact (hHolds t ht).2
    · obtain ⟨old, hOld, hRuns, hDeleting, hSuspended⟩ := tasks_decNext hTask
      rw [frames_decNext]
      have hUnsaved := hHandled (.ready t)
        (by unfold turn; rw [hFrames]; dsimp only; rw [ht]; rfl) old hOld (hRuns.trans hIdle)
        (by rw [hDeleting, hSuspended]; exact hGone)
      rw [hRest] at hUnsaved
      exact hUnsaved
  · rename_i saved rest hFrames
    obtain ⟨hCalm, hRest⟩ := hTail hFrames
    have hHolds := h.holds (.scheduleNew saved) (by rw [hFrames]; exact List.mem_cons_self)
    refine Fine.stepped (fun t ht => (hHolds t ht).1) (fun r hRun => ?_) hStep
    refine (((h.pop hFrames fun _ _ => by simp).decNext saved.next).scheduleNewFrom ?_
      (fun t ht => ?_) (fun t ht => ?_) hRun s).1
    · rw [frames_decNext]
      exact hCalm
    · rw [new_decNext]
      exact (hHolds t ht).2
    · rw [frames_decNext]
      have hUnsaved := hHandled (.new t)
        (by unfold turn; rw [hFrames]; dsimp only; rw [ht]; rfl)
      change ¬ SavedNew s.frames.tail t at hUnsaved
      rw [hRest] at hUnsaved
      exact hUnsaved
  · rename_i rest hFrames
    obtain ⟨hCalm, hRest⟩ := hTail hFrames
    cases hStep
    exact ⟨Calm.inv (h.pop hFrames fun _ _ => by simp) hCalm, fun _ hMem => by cases hMem⟩
  · rename_i t rest hFrames
    obtain ⟨hCalm, hRest⟩ := hTail hFrames
    refine (h.pop hFrames fun _ _ => by simp).collectFrom hCalm (fun task hTask hIdle hFree => ?_)
      hStep s
    have hUnsaved := hHandled (.collect t) (by unfold turn; rw [hFrames]; rfl)
      task hTask hIdle hFree
    rw [hFrames, savedReady_cons, savedNew_cons] at hUnsaved
    exact ⟨fun hSaved => hUnsaved.1 (.inr hSaved), fun hSaved => hUnsaved.2 (.inr hSaved)⟩
  · cases hStep

/-! ### What the tasks do -/

theorem Core.relist (h : Core s) (hNew : t ∉ s.new) (hReady : t ∉ s.ready) (hBound : t < s.count) :
    Core { s with new := s.new ++ [t] } := by
  have hSub : ∀ u ∈ s.ready ++ s.new, u ∈ s.ready ++ (s.new ++ [t]) := by
    intro u hu
    rw [← List.append_assoc]
    exact List.mem_append_left _ hu
  refine { h with nodup := ?_, bounded := ?_, listed := ?_, holds := ?_ }
  · show (s.ready ++ (s.new ++ [t])).Nodup
    rw [← List.append_assoc, ← List.concat_eq_append]
    apply h.nodup.concat
    rw [List.mem_append, not_or]
    exact ⟨hReady, hNew⟩
  · intro u hu
    change u ∈ s.ready ++ (s.new ++ [t]) at hu
    rw [← List.append_assoc] at hu
    rcases List.mem_append.mp hu with hOld | hLast
    · exact h.bounded u hOld
    · rw [List.mem_singleton.mp hLast]
      exact hBound
  · exact fun u task hTask hRuns hStays => hSub u (h.listed u task hTask hRuns hStays)
  · intro frame hFrame
    exact (h.holds frame hFrame).mono (fun _ _ => id) fun u _ hu => List.mem_append_left _ hu

theorem Core.setDeleted (h : Core s) (deleted : List TaskId) :
    Core { s with deleted := deleted } := { h with }

theorem Core.setHeld (h : Core s) (held : TaskId → Nat) : Core { s with held := held } := { h with }

theorem Core.setSlots (h : Core s) (slots : TaskId → Nat) : Core { s with slots := slots } :=
  { h with }

theorem Core.deleteLater (h : Core s) (t : TaskId) (task : Task) :
    Core (s.deleteLater t task) := by
  unfold State.deleteLater
  split
  · exact h
  · refine (h.update (f := fun task => { task with deleting := true }) (fun _ => rfl)
      fun _ _ _ hStays => ?_).setDeleted _
    cases hStays

theorem Core.deleteRef (h : Core s) (t : TaskId) (task : Task) : Core (s.deleteRef t task) :=
  (h.decRef t).deleteLater t task

/-- A task that is resumed is listed, if its class does not forget it. -/
theorem Core.resumeWith (h : Core s) {clear : Task → Task} {task : Task}
    (hTask : s.tasks t = some task) (hRun : ∀ task, (clear task).running = task.running)
    (hDeleting : ∀ task, (clear task).deleting = task.deleting)
    (hHandled : ResumeHandled s clear t) : Core (s.resumeWith clear t task) := by
  unfold State.resumeWith
  dsimp only
  split
  · rename_i hSuspended
    refine h.update hRun fun task' hTask' hRuns _ => ?_
    rw [hTask] at hTask'
    cases hTask'
    rw [hSuspended] at hRuns
    cases hRuns
  · rename_i hRuns
    have hRuns : (clear task).isSuspended = false := by
      cases hFlag : (clear task).isSuspended with
      | false => rfl
      | true => exact absurd hFlag hRuns
    unfold State.resumeInternal
    split
    · rename_i hRelist
      refine (h.relist hRelist.2.1 hRelist.2.2 (h.created t task hTask)).update hRun
        fun _ _ _ _ => ?_
      simp
    · rename_i hNot
      refine h.update hRun fun task' hTask' _ hStays => ?_
      rw [hTask] at hTask'
      cases hTask'
      rw [hDeleting] at hStays
      rcases hHandled task hTask hRuns hStays with hRelists | hListed
      · by_contra hUnlisted
        rw [List.mem_append, not_or] at hUnlisted
        exact hNot ⟨hRelists, hUnlisted.2, hUnlisted.1⟩
      · exact hListed

theorem deleteLater_frames (s : State) (t : TaskId) (task : Task) :
    (s.deleteLater t task).frames = s.frames := by
  unfold State.deleteLater
  split <;> rfl

theorem resumeWith_frames (s : State) (clear : Task → Task) (t : TaskId) (task : Task) :
    (s.resumeWith clear t task).frames = s.frames := by
  unfold State.resumeWith State.resumeInternal
  dsimp only
  split
  · rfl
  · split <;> rfl

/-- What is done to one task leaves the activations alone. -/
theorem Core.operate (h : Core s) {task : Task} (hTask : s.tasks t = some task) {e : Event}
    (hHandled : Handled s e) (hEvent : ∀ u, e = .resume u ∨ e = .resumeSlave u → u = t)
    (hStep : s.operate t task e = some s') : Core s' ∧ s'.frames = s.frames := by
  have hSuspend : ∀ f : Task → Task, (∀ task, (f task).running = task.running) →
      (∀ task, (f task).isSuspended = true) → Core (s.update t f) :=
    fun f hRun hFlag => h.update hRun fun _ _ hRuns _ => by rw [hFlag] at hRuns; cases hRuns
  cases e with
  | «suspend» u =>
      cases hStep
      exact ⟨hSuspend _ (fun _ => rfl) fun _ => rfl, rfl⟩
  | suspendSlave u =>
      cases hStep
      exact ⟨hSuspend _ (fun _ => rfl) fun _ => Bool.or_true _, rfl⟩
  | resume u =>
      have hEq := hEvent u (.inl rfl)
      subst hEq
      dsimp only [State.operate] at hStep
      split at hStep
      · cases hStep
        exact ⟨h.resumeWith hTask (fun _ => rfl) (fun _ => rfl) hHandled, resumeWith_frames ..⟩
      · cases hStep
        exact ⟨h, rfl⟩
  | resumeSlave u =>
      have hEq := hEvent u (.inr rfl)
      subst hEq
      dsimp only [State.operate] at hStep
      split at hStep
      · cases hStep
        exact ⟨h.resumeWith hTask (fun _ => rfl) (fun _ => rfl) hHandled, resumeWith_frames ..⟩
      · cases hStep
        exact ⟨h, rfl⟩
  | delete u =>
      cases hStep
      exact ⟨h.deleteLater t task, deleteLater_frames ..⟩
  | makeRef u =>
      cases hStep
      exact ⟨(h.incRef t).setHeld _, rfl⟩
  | deleteRef u =>
      dsimp only [State.operate] at hStep
      split at hStep
      · cases hStep
      · cases hStep
        exact ⟨(h.deleteRef t task).setHeld _, deleteLater_frames ..⟩
  | borrow u =>
      dsimp only [State.operate] at hStep
      split at hStep
      · cases hStep
      · cases hStep
        exact ⟨(h.decRef t).setHeld _, rfl⟩
  | append u =>
      cases hStep
      exact ⟨h.setSlots _, rfl⟩
  | remove u =>
      dsimp only [State.operate] at hStep
      split at hStep
      · cases hStep
      · cases hStep
        exact ⟨(h.deleteRef t task).setSlots _, deleteLater_frames ..⟩
  | _ => cases hStep

theorem Inv.of_core (h : Inv s) (hCore : Core s') (hFrames : s'.frames = s.frames) : Inv s' :=
  { hCore with
    calm := by rw [hFrames]; exact h.calm
    doomed := by rw [hFrames]; exact h.doomed }

/-! ### Returns -/

/-- `Do` has returned: `Leave`. -/
theorem Core.leave (h : Core s) {rolled : Bool} (hFrames : s.frames = .doing t rolled :: rest) :
    Core (s.leave t rest) := by
  have hDoings : ∀ u, doings s.frames u = doings rest u + if t = u then 1 else 0 := by
    intro u
    rw [hFrames, doings_doing]
  have hTask : ∀ u task', (s.leave t rest).tasks u = some task' →
      ∃ task, s.tasks u = some task ∧ task'.isSuspended = task.isSuspended
        ∧ task'.deleting = task.deleting
        ∧ task'.running = if t = u then task.running - 1 else task.running := by
    intro u task' hSome
    change (s.update t _).tasks u = some task' at hSome
    rw [tasks_update] at hSome
    split at hSome
    · rename_i hEq
      obtain ⟨task, hOld, hNew⟩ := Option.map_eq_some_iff.mp hSome
      subst hNew
      exact ⟨task, hEq ▸ hOld, rfl, rfl, (if_pos hEq.symm).symm⟩
    · rename_i hNe
      exact ⟨task', hSome, rfl, rfl, (if_neg (Ne.symm hNe)).symm⟩
  constructor
  · exact h.nodup
  · exact h.bounded
  · intro u task' hSome
    obtain ⟨task, hOld, -⟩ := hTask u task' hSome
    exact h.created u task hOld
  · intro u task' hSome hRuns hStays
    obtain ⟨task, hOld, hSuspended, hDeleting, -⟩ := hTask u task' hSome
    exact h.listed u task hOld (hSuspended ▸ hRuns) (hDeleting ▸ hStays)
  · intro frame hFrame
    apply h.holds frame
    rw [hFrames]
    exact List.mem_cons_of_mem _ hFrame
  · intro u task' hSome
    obtain ⟨task, hOld, -, -, hRunning⟩ := hTask u task' hSome
    have hBefore := h.running u task hOld
    rw [hDoings] at hBefore
    show task'.running = doings rest u + _
    by_cases hEq : t = u
    · rw [if_pos hEq] at hBefore hRunning
      omega
    · rw [if_neg hEq] at hBefore hRunning
      omega
  · intro u
    have hBefore := h.single u
    rw [hDoings] at hBefore
    show doings rest u ≤ 1
    omega
  · intro u hDoing
    change doings rest u ≠ 0 at hDoing
    apply h.active u
    rw [hDoings]
    omega
  · exact h.started

/-- `~SMTask` takes the task out of all lists. -/
theorem Inv.destroy (h : Inv s) (hFrames : s.frames = .destroying t :: rest)
    {r : State × List Effect} (hStep : s.destroy t = some r) : Fine s r := by
  obtain ⟨hUnsaved, hUnsaved'⟩ := h.doomed t (by rw [hFrames]; exact List.mem_cons_self)
  have hCalm : Calm rest := by
    have hTail := h.calm
    rw [hFrames] at hTail
    exact hTail
  have hDoings : ∀ u, doings rest u = doings s.frames u := by
    intro u
    rw [hFrames, doings_other fun _ _ => by simp]
  unfold State.destroy at hStep
  cases hTask : s.tasks t with
  | none =>
      rw [hTask] at hStep
      cases hStep
  | some task =>
      rw [hTask] at hStep
      dsimp only at hStep
      have hReady : (if t ∈ s.ready then s.removeReady t else s)
          = { s with ready := s.ready.erase t } := by
        split
        · unfold State.removeReady
          rw [map_withoutReady hUnsaved]
        · rename_i hNot
          rw [List.erase_of_not_mem hNot]
      have hNew : (if t ∈ s.new then { s with ready := s.ready.erase t }.removeNew t
            else { s with ready := s.ready.erase t })
          = { s with ready := s.ready.erase t, new := s.new.erase t } := by
        split
        · unfold State.removeNew
          dsimp only
          rw [map_withoutNew hUnsaved']
        · rename_i hNot
          rw [List.erase_of_not_mem hNot]
      rw [hReady, hNew] at hStep
      split at hStep
      · cases hStep
      · rename_i hFree
        simp only [not_or, not_not] at hFree
        cases hStep
        have hSub : (s.ready.erase t ++ s.new.erase t).Sublist (s.ready ++ s.new) :=
          List.erase_sublist.append List.erase_sublist
        have hOther : ∀ u task', Function.update s.tasks t none u = some task' →
            u ≠ t ∧ s.tasks u = some task' := by
          intro u task' hSome
          rw [Function.update_apply] at hSome
          split at hSome
          · cases hSome
          · rename_i hNe
            exact ⟨hNe, hSome⟩
        have hIdle : doings s.frames t = 0 := by
          have hRunning := h.running t task hTask
          omega
        refine ⟨Calm.inv ?_ ?_, ?_⟩
        · constructor
          · exact h.nodup.sublist hSub
          · exact fun u hu => h.bounded u (hSub.subset hu)
          · exact fun u task' hSome => h.created u task' (hOther u task' hSome).2
          · intro u task' hSome hRuns hStays
            obtain ⟨hNe, hOld⟩ := hOther u task' hSome
            have hMem := h.listed u task' hOld hRuns hStays
            show u ∈ s.ready.erase t ++ s.new.erase t
            rw [List.mem_append, List.mem_erase_of_ne hNe, List.mem_erase_of_ne hNe,
              ← List.mem_append]
            exact hMem
          · intro frame hFrame
            have hMem : frame ∈ s.frames := List.mem_of_mem_tail hFrame
            refine (h.holds frame hMem).mono (fun u hSaved hu => ?_) fun u hSaved hu => ?_
            · have hNe : u ≠ t := fun hEq => hUnsaved ⟨frame, hMem, hEq ▸ hSaved⟩
              exact (List.mem_erase_of_ne hNe).mpr hu
            · have hNe : u ≠ t := fun hEq => hUnsaved' ⟨frame, hMem, hEq ▸ hSaved⟩
              exact (List.mem_erase_of_ne hNe).mpr hu
          · intro u task' hSome
            show task'.running = doings s.frames.tail u + _
            rw [hFrames, List.tail_cons, hDoings]
            exact h.running u task' (hOther u task' hSome).2
          · intro u
            show doings s.frames.tail u ≤ 1
            rw [hFrames, List.tail_cons, hDoings]
            exact h.single u
          · intro u
            show doings s.frames.tail u ≠ 0 → _
            rw [hFrames, List.tail_cons, hDoings]
            exact h.active u
          · exact h.started
        · show Calm s.frames.tail
          exact h.calm
        · intro effect hEffect
          rw [List.mem_singleton] at hEffect
          subst hEffect
          refine ⟨?_, task, hTask, hFree.1, hFree.2.1⟩
          rw [running_iff]
          omega

theorem Inv.ret (h : Inv s) {moved : Bool} {r : State × List Effect}
    (hStep : s.ret moved = some r) : Fine s r := by
  unfold State.ret at hStep
  split at hStep
  · rename_i t rolled rest hFrames
    have hCalm : Calm rest := by
      have hTail := h.calm
      rw [hFrames] at hTail
      exact hTail
    cases hTask : s.tasks t with
    | none =>
        rw [hTask] at hStep
        cases hStep
    | some task =>
        rw [hTask] at hStep
        dsimp only at hStep
        split at hStep
        · rename_i hAgain
          cases hStep
          refine ⟨h, fun effect hEffect => ?_⟩
          rw [List.mem_singleton] at hEffect
          subst hEffect
          refine ⟨⟨rolled, rest, hFrames, ?_⟩, fun task' hTask' => ?_⟩
          · have hSingle := h.single t
            rw [hFrames, doings_doing, if_pos rfl] at hSingle
            rw [running_iff]
            omega
          · rw [hTask] at hTask'
            cases hTask'
            simpa using hAgain.2.2
        · cases hStep
          exact ⟨Calm.inv (h.toCore.leave hFrames) hCalm, fun _ hMem => by cases hMem⟩
  · rename_i t rest hFrames
    exact h.destroy hFrames hStep
  · cases hStep

/-- While `Do` is running, no destructor is. -/
theorem Inv.inDo (h : Inv s) (hDo : s.inDo = true) : Calm s.frames := by
  unfold State.inDo at hDo
  have hTail := h.calm
  split at hDo
  · rename_i rest hFrames
    rw [hFrames] at hTail ⊢
    exact Calm.cons hTail fun _ => by simp
  · rename_i t rolled rest hFrames
    rw [hFrames] at hTail ⊢
    exact Calm.cons hTail fun _ => by simp
  · cases hDo

theorem Core.create (h : Core s) (relists : Bool) : Core { s with
    tasks := Function.update s.tasks s.count (some ⟨false, false, 0, 0, false, relists⟩)
    count := s.count + 1
    new := s.count :: s.new } := by
  have hPerm : (s.ready ++ s.count :: s.new).Perm (s.count :: (s.ready ++ s.new)) :=
    List.perm_middle
  have hFresh : s.count ∉ s.ready ++ s.new := fun hMem => Nat.lt_irrefl _ (h.bounded _ hMem)
  have hTask : ∀ u task', Function.update s.tasks s.count
      (some ⟨false, false, 0, 0, false, relists⟩) u = some task' →
      s.tasks u = some task' ∨ u = s.count ∧ task'.running = 0 := by
    intro u task' hSome
    rw [Function.update_apply] at hSome
    split at hSome
    · rename_i hEq
      cases hSome
      exact .inr ⟨hEq, rfl⟩
    · exact .inl hSome
  constructor
  · exact hPerm.nodup_iff.mpr (List.nodup_cons.mpr ⟨hFresh, h.nodup⟩)
  · intro u hu
    rcases List.mem_cons.mp (hPerm.mem_iff.mp hu) with hEq | hOld
    · rw [hEq]
      exact Nat.lt_succ_self _
    · exact Nat.lt_succ_of_lt (h.bounded u hOld)
  · intro u task' hSome
    rcases hTask u task' hSome with hOld | ⟨hEq, -⟩
    · exact Nat.lt_succ_of_lt (h.created u task' hOld)
    · rw [hEq]
      exact Nat.lt_succ_self _
  · intro u task' hSome hRuns hStays
    apply hPerm.mem_iff.mpr
    rcases hTask u task' hSome with hOld | ⟨hEq, -⟩
    · exact List.mem_cons_of_mem _ (h.listed u task' hOld hRuns hStays)
    · rw [hEq]
      exact List.mem_cons_self
  · intro frame hFrame
    exact (h.holds frame hFrame).mono (fun _ _ => id) fun u _ hu => List.mem_cons_of_mem _ hu
  · intro u task' hSome
    rcases hTask u task' hSome with hOld | ⟨hEq, hZero⟩
    · exact h.running u task' hOld
    · have hNone : doings s.frames u = 0 := by
        by_contra hDoing
        have hLt := h.active u hDoing
        rw [hEq] at hLt
        exact Nat.lt_irrefl _ hLt
      have hLater : u ≠ 0 := by
        rw [hEq]
        exact Nat.ne_of_gt h.started
      show task'.running = doings s.frames u + _
      rw [hZero, hNone, if_neg hLater]
  · exact h.single
  · exact fun u hDoing => Nat.lt_succ_of_lt (h.active u hDoing)
  · exact Nat.succ_pos _

theorem Inv.operateStep (h : Inv s) {e : Event} (hHandled : Handled s e)
    (hEvent : ∀ u, e = .resume u ∨ e = .resumeSlave u → u = t) {r : State × List Effect}
    (hStep : (match s.tasks t with
      | none => none
      | some task => if s.inDo || s.inDestructor then
          (s.operate t task e).map fun s => (s, []) else none) = some r) : Fine s r := by
  cases hTask : s.tasks t with
  | none =>
      rw [hTask] at hStep
      cases hStep
  | some task =>
      rw [hTask] at hStep
      dsimp only at hStep
      split at hStep
      · obtain ⟨s', hRun, hEq⟩ := Option.map_eq_some_iff.mp hStep
        subst hEq
        obtain ⟨hCore, hFrames⟩ := h.toCore.operate hTask hHandled hEvent hRun
        exact ⟨h.of_core hCore hFrames, fun _ hMem => by cases hMem⟩
      · cases hStep

theorem Inv.step (h : Inv s) {e : Event} (hHandled : Handled s e) {r : State × List Effect}
    (hStep : s.step e = some r) : Fine s r := by
  cases e with
  | advance => exact h.advance hHandled hStep
  | ret moved => exact h.ret hStep
  | schedule =>
      dsimp only [State.step] at hStep
      split at hStep
      · rename_i hDo
        cases hStep
        have hCalm := (h.inDo hDo).cons (f := .scheduleStart) fun _ => by simp
        exact ⟨Calm.inv (h.toCore.push (fun _ _ => by simp) trivial) hCalm,
          fun _ hMem => by cases hMem⟩
      · cases hStep
  | create relists =>
      dsimp only [State.step] at hStep
      split at hStep
      · cases hStep
        exact ⟨h.of_core (h.toCore.create relists) rfl, fun _ hMem => by cases hMem⟩
      · cases hStep
  | roll t =>
      dsimp only [State.step] at hStep
      cases hTask : s.tasks t with
      | none =>
          rw [hTask] at hStep
          cases hStep
      | some task =>
          rw [hTask] at hStep
          dsimp only at hStep
          split at hStep
          · rename_i hDo
            unfold State.roll at hStep
            split at hStep
            · cases hStep
              exact ⟨h, fun _ hMem => by cases hMem⟩
            · rename_i hNot
              rw [not_or, not_not] at hNot
              exact (h.toCore.enter (h.inDo hDo) hTask hNot.1 (by simpa using hNot.2) hStep s).1
          · cases hStep
  | «suspend» t | suspendSlave t | delete t | makeRef t | deleteRef t | borrow t | append t
  | remove t => exact h.operateStep (t := t) hHandled (fun u hu => by simp at hu) hStep
  | resume t | resumeSlave t =>
      exact h.operateStep (t := t) hHandled (fun u hu => by simp at hu; exact hu.symm) hStep

theorem inv_start : Inv State.start := by
  have hTask : ∀ t task, State.start.tasks t = some task → t = 0 ∧ task.running = 1 := by
    intro t task hSome
    change (if t = 0 then _ else none) = some task at hSome
    split at hSome
    · rename_i hEq
      cases hSome
      exact ⟨hEq, rfl⟩
    · cases hSome
  have hMain : ∀ frame ∈ State.start.frames, frame = .main :=
    fun frame hFrame => List.mem_singleton.mp hFrame
  refine Calm.inv ?_ fun t ht => by cases hMain _ ht
  constructor
  · decide
  · decide
  · intro t task hSome
    rw [(hTask t task hSome).1]
    exact Nat.one_pos
  · intro t task hSome _ _
    rw [(hTask t task hSome).1]
    decide
  · intro frame hFrame
    rw [hMain frame hFrame]
    trivial
  · intro t task hSome
    rw [(hTask t task hSome).2, (hTask t task hSome).1]
    rfl
  · exact fun t => Nat.zero_le 1
  · exact fun t hDoing => absurd rfl hDoing
  · exact Nat.one_pos

theorem Reached.inv (h : Reached Handled s) : Inv s :=
  Reach.invariant (fun _ hStart => hStart ▸ inv_start)
    (fun _ _ _ hInv ⟨hHandled, _, hStep⟩ => (hInv.step hHandled hStep).inv) h

/-- In a run whose steps are handled, every task that may run is listed once, and no step does
any harm. -/
theorem schedule_safe (s : State) (h : Reached Handled s) :
    Listed s ∧ ∀ e, Handled s e → ∀ s' effects, s.step e = some (s', effects) →
      ∀ effect ∈ effects, Harmless s s' effect := by
  have hInv := Reached.inv h
  constructor
  · intro t task hTask hRuns hStays
    exact List.count_eq_one_of_mem hInv.nodup (hInv.listed t task hTask hRuns hStays)
  · intro e hHandled s' effects hStep
    exact (hInv.step hHandled hStep).harmless

/-- A task that is created runs at the next `Schedule`, and is listed while it runs. -/
theorem schedule_safe_create : ∃ s s' : State, Listed s ∧ Harmless s s' (.entered 1) := by
  have hCreate : Reached Handled _ := .next (.create true) (.start rfl) ⟨trivial, _, rfl⟩
  have hSchedule : Reached Handled _ := .next .schedule hCreate ⟨trivial, _, rfl⟩
  obtain ⟨hListed, hHarmless⟩ := schedule_safe _ hSchedule
  refine ⟨_, _, hListed, hHarmless .advance ?_ _ [.entered 1] rfl _ List.mem_cons_self⟩
  intro turn' hTurn
  cases hTurn
  rintro ⟨frame, hFrame, hSaved⟩
  rw [List.mem_singleton.mp hFrame] at hSaved
  cases hSaved

/-- Steps one after the other. -/
def run (s : State) (es : List Event) : Option State :=
  es.foldlM (fun s e => (s.step e).map Prod.fst) s

theorem Reached.run {ok : State → Event → Prop} (hOk : ∀ s e, ok s e) {es : List Event}
    (h : Reached ok s) (hRun : run s es = some s') : Reached ok s' := by
  induction es generalizing s with
  | nil =>
      cases hRun
      exact h
  | cons e es ih =>
      unfold SMTask.run at hRun
      rw [List.foldlM_cons] at hRun
      obtain ⟨s₁, hStep, hRest⟩ := Option.bind_eq_some_iff.mp hRun
      obtain ⟨⟨s₂, effects⟩, hFull, hEq⟩ := Option.map_eq_some_iff.mp hStep
      subst hEq
      exact ih (.next e h ⟨hOk s e, effects, hFull⟩) hRest

/-- Two new tasks, of which the second runs first and calls `Schedule` in its `Do`. -/
def nestedRun : List Event :=
  [.create true, .create true, .schedule, .advance, .schedule, .advance, .ret false]
    ++ List.replicate 5 .advance ++ .ret false :: List.replicate 5 .advance ++ [.ret false]

/-- A new task of a class that does not list it again is suspended, and resumed after a turn. -/
def forgottenRun : List Event :=
  [.create false, .suspend 1, .schedule] ++ List.replicate 7 .advance ++ [.resume 1]

/-- Without the condition a loop steps to a node that is gone, and a task is lost. -/
theorem schedule_unsafe :
    (¬ ∀ s, Reached (fun _ _ => True) s → ∀ e s' effects, s.step e = some (s', effects) →
      ∀ effect ∈ effects, Harmless s s' effect)
    ∧ ¬ ∀ s, Reached (fun _ _ => True) s → Listed s := by
  have hReached : ∀ {es : List Event} {s : State}, run State.start es = some s →
      Reached (fun _ _ => True) s :=
    fun hRun => Reached.run (fun _ _ => trivial) (.start rfl) hRun
  constructor
  · intro hAll
    obtain ⟨s, hRun, s', hStep⟩ : ∃ s, run State.start nestedRun = some s
        ∧ ∃ s', s.step .advance = some (s', [.stepped ⟨some 1, false⟩]) := ⟨_, rfl, _, rfl⟩
    have hHarmless := hAll s (hReached hRun) .advance s' _ hStep _ List.mem_cons_self
    exact absurd (hHarmless rfl) (by decide)
  · intro hAll
    obtain ⟨s, hRun, task, hTask, hRuns, hStays, hCount⟩ : ∃ s,
        run State.start forgottenRun = some s ∧ ∃ task, s.tasks 1 = some task
          ∧ task.isSuspended = false ∧ task.deleting = false
          ∧ (s.ready ++ s.new).count 1 = 0 := ⟨_, rfl, _, rfl, rfl, rfl, rfl⟩
    have hListed := hAll s (hReached hRun) 1 task hTask hRuns hStays
    rw [hCount] at hListed
    cases hListed

end Lftp.Ports.SMTask
