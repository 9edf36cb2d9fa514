import Lftp.Ports.FindJob

/-!
# What a traversal calls

The jobs that are made from `FinderJob` override `ProcessFile`, `Enter`, `Exit` and `Finish`. Here a
run records these calls: `Do` tells of them by what it adds to the trace, and the entry that
`ProcessFile` was called for is behind the current one.

A `Tree` is what a remote side has below an argument, when everything is listed without an error and
with types, in the order in which the job goes through it. `run_calls`: a job that does not go
depth-first calls for each argument what the tree says, and then `Finish`.
-/

namespace Lftp.Ports.FindJob

open Lftp.Verified
open Lftp.Ports.FileSets (FileInfo FileType)
open Lftp.Ports.TorrentPath (dirFile)

/-! ## Calls -/

/-- A call of a virtual function; of `ProcessFile` when it was done, and of `Finish` with whether
the last argument was the last. -/
inductive Call
  | enter (d : Bytes)
  | exit
  | processFile (d : Bytes) (fi : FileInfo)
  | finish (last : Bool)

/-- The entry before the current one. -/
def processed (s : State) : Option FileInfo :=
  match s.stack with
  | [] => none
  | top :: _ => top.fset[top.ind - 1]?

/-- The call that left an event in the trace of `s`. -/
def eventCall (s : State) : Event → List Call
  | .enter d => [.enter d]
  | .exit => [.exit]
  | .item (d, _) => ((processed s).map (Call.processFile d)).toList

/-- Whether `Finish` was called on the way from `s` to `s'`. -/
def finished (s s' : State) : Bool :=
  s.state ≠ .done && s'.stack.isEmpty && (s'.state = .done || s'.args.length < s.args.length)

/-- The calls in a call of `Do` that goes from `s` to `s'`. -/
def calls (s s' : State) : List Call :=
  (s'.trace.drop s.trace.length).flatMap (eventCall s')
    ++ if finished s s' then [.finish (s'.state = .done)] else []

structure Run where
  job : State
  calls : List Call

namespace Run

def act (job : Job) (w : Remote) (r : Run) (i : Input) : Run :=
  ⟨job.act w r.job i, r.calls ++ FindJob.calls r.job (job.act w r.job i)⟩

def start (arg : Bytes) (args : List Bytes) : Run := ⟨Job.start arg args, []⟩

end Run

/-! ## Trees -/

/-- Files and directories, one after another. -/
inductive Tree
  | nil
  | file (f : FileInfo) (rest : Tree)
  | dir (f : FileInfo) (inside rest : Tree)

namespace Tree

def files : Tree → List FileInfo
  | .nil => []
  | .file f rest => f :: rest.files
  | .dir _ inside rest => inside.files ++ rest.files

/-- The files that are not in a directory. -/
def own : Tree → List FileInfo
  | .nil => []
  | .file f rest => f :: rest.own
  | .dir _ _ rest => rest.own

/-- How many levels of directories there are. -/
def levels : Tree → Nat
  | .nil => 0
  | .file _ rest => rest.levels
  | .dir _ inside rest => max (inside.levels + 1) rest.levels

end Tree

section

variable (job : Job) (w : Remote) (site : Option Bytes)

/-- What goes on the stack when the entries `es` are listed with their types. -/
def shownFiles (deep : Bool) (es : List Entry) : List FileInfo :=
  job.processList ((es.map Entry.info).filter (job.keeps deep))

/-- The files `fs` of the directory `path` with what is below them: the lookup of a directory is the
same for every need mask, and gives types. -/
inductive Lists : Bytes → List FileInfo → Tree → Prop
  | nil {path : Bytes} : Lists path [] .nil
  | file {path : Bytes} {f : FileInfo} {fs : List FileInfo} {t : Tree}
      (hType : f.has FileSets.Defined.type = true) (hFile : f.filetype ≠ .directory)
      (h : Lists path fs t) : Lists path (f :: fs) (.file f t)
  | dir {path : Bytes} {f : FileInfo} {fs : List FileInfo} {es : List Entry} {inside t : Tree}
      (hDir : f.typeIs .directory = true)
      (hLook : ∀ need, w.look site path f.name false need = .result true es)
      (hShown : ∀ e ∈ es, e.shown = true)
      (hIn : Lists (dirFile path f.name) (shownFiles job true es) inside) (h : Lists path fs t) :
      Lists path (f :: fs) (.dir f inside t)

/-- What is below an argument. -/
def ArgLists (arg : Bytes) (t : Tree) : Prop :=
  ∃ wasDirectory es,
    (∀ need, w.look (job.target arg).1 [] (job.target arg).2 true need = .result wasDirectory es)
    ∧ (∀ e ∈ es, e.shown = true) ∧ Lists job w (job.target arg).1 [] (shownFiles job false es) t

instance (depth : Nat) : Decidable (Deep job depth) := inferInstanceAs (Decidable (_ ∨ _))

/-- What a job sees of a tree: nothing of a directory that is too deep. -/
def Tree.entered : Nat → Tree → Tree
  | _, .nil => .nil
  | depth, .file f rest => .file f (rest.entered depth)
  | depth, .dir f inside rest =>
    if Deep job depth then .dir f (inside.entered (depth + 1)) (rest.entered depth)
    else rest.entered depth

/-- The calls for the entries of a directory. -/
def Tree.calls : Nat → Bytes → Tree → List Call
  | _, _, .nil => []
  | depth, path, .file f rest => .processFile path f :: rest.calls depth path
  | depth, path, .dir f inside rest =>
    .processFile path f ::
      (if Deep job depth then
        .enter f.name :: inside.calls (depth + 1) (dirFile path f.name) ++ [.exit]
      else []) ++ rest.calls depth path

/-- The calls for all arguments. -/
def argCalls : List Tree → List Call
  | [] => []
  | t :: ts => t.calls job 0 [] ++ .finish ts.isEmpty :: argCalls ts

end

/-- A tree with few levels is seen as it is. -/
theorem entered_eq {job : Job} {t : Tree} {depth : Nat}
    (h : ∀ d, depth ≤ d → d < depth + t.levels → Deep job d) : t.entered job depth = t := by
  induction t generalizing depth with
  | nil => rfl
  | file f rest ih =>
      rw [Tree.entered, ih h]
  | dir f inside rest ihIn ih =>
      have hHere : Deep job depth := h depth le_rfl (by rw [Tree.levels]; omega)
      have hIn : inside.entered job (depth + 1) = inside :=
        ihIn fun d hLe hLt => h d (by omega) (by rw [Tree.levels]; omega)
      have hRest : rest.entered job depth = rest :=
        ih fun d hLe hLt => h d hLe (by rw [Tree.levels]; omega)
      rw [Tree.entered, if_pos hHere, hIn, hRest]

/-! ## The calls of a step -/

section Calls

variable {s t u : State} {es : List Event}

theorem finished_congr (hArgs : s.args = t.args) (hs : s.state ≠ .done) (ht : t.state ≠ .done) :
    finished s u = finished t u := by
  simp [finished, hArgs, hs, ht]

theorem calls_eq (h : u.trace = s.trace ++ es) :
    calls s u = es.flatMap (eventCall u)
      ++ if finished s u then [.finish (u.state = .done)] else [] := by
  rw [calls, h, List.drop_left]

@[simp] theorem calls_self (s : State) : calls s s = [] := by
  simpa [calls, finished] using fun h _ => h

theorem calls_of_stack (h : u.trace = s.trace ++ es) (hStack : u.stack ≠ []) :
    calls s u = es.flatMap (eventCall u) := by
  have hOpen : finished s u = false := by simp [finished, hStack]
  rw [calls_eq h, hOpen, if_neg Bool.false_ne_true, List.append_nil]

theorem calls_congr (hTrace : s.trace = t.trace) (hArgs : s.args = t.args) (hs : s.state ≠ .done)
    (ht : t.state ≠ .done) : calls s u = calls t u := by
  rw [calls, calls, hTrace, finished_congr hArgs hs ht]

/-- A state in between that has some of the events. -/
theorem calls_via {ds : List Event} (h : t.trace = s.trace ++ ds) (hNext : u.trace = t.trace ++ es)
    (hArgs : s.args = t.args) (hs : s.state ≠ .done) (ht : t.state ≠ .done) :
    calls s u = ds.flatMap (eventCall u) ++ calls t u := by
  have hAll : u.trace = s.trace ++ (ds ++ es) := by rw [hNext, h, List.append_assoc]
  rw [calls_eq hNext, calls_eq hAll, finished_congr hArgs hs ht, List.flatMap_append,
    List.append_assoc]

end Calls

section Traces

variable (job : Job)

theorem postWait_trace (s : State) : ∃ es, (job.postWait s).trace = s.trace ++ es := by
  unfold Job.postWait
  split
  · exact ⟨[], (List.append_nil _).symm⟩
  · split
    · exact ⟨[], (List.append_nil _).symm⟩
    · dsimp only
      split
      · exact ⟨_, rfl⟩
      · exact ⟨_, rfl⟩

theorem doProcessing_trace (i : Input) (s : State) :
    ∃ es, (job.doProcessing i s).trace = s.trace ++ es := by
  have hSame : ∃ es, s.trace = s.trace ++ es := ⟨[], (List.append_nil _).symm⟩
  unfold Job.doProcessing
  split
  · exact hSame
  · split
    · exact hSame
    · split
      · exact hSame
      · exact hSame
      · exact postWait_trace job _
      · exact hSame
      · exact postWait_trace job _

theorem finish_trace (s : State) : (Job.finish s).trace = s.trace := by
  unfold Job.finish
  split <;> rfl

theorem up_trace (s : State) : ∃ es, (Job.up s).trace = s.trace ++ es := by
  unfold Job.up
  split
  · exact ⟨[], by rw [finish_trace, List.append_nil]⟩
  · exact ⟨[], by rw [finish_trace, List.append_nil]⟩
  · exact ⟨_, rfl⟩

theorem doLoop_trace (i : Input) (s : State) : ∃ es, (job.doLoop i s).trace = s.trace ++ es := by
  unfold Job.doLoop
  split
  · exact up_trace s
  · split
    · exact up_trace s
    · dsimp only
      split
      · exact ⟨[], (List.append_nil _).symm⟩
      · exact doProcessing_trace job i _

end Traces

/-! ## The run -/

section Steps

variable {job : Job} {w : Remote} {site : Option Bytes} {Q : Run → Prop} {path name : Bytes}
  {below : List Place} {f : FileInfo} {fs files : List FileInfo} {ind : Nat} {args : List Bytes}
  {cs : List Call} {r : Run} {s : State} {es : List Entry}

/-- `ProcessFile` does its work, or puts it off. -/
def Input.calm (i : Input) : Prop := i.processFile = .ok ∨ i.processFile = .later

/-- The run comes to a state in `Q`. -/
abbrev Makes (job : Job) (w : Remote) (Q : Run → Prop) (r : Run) : Prop :=
  Leads (Run.act job w) Input.calm Input.answers Q r

/-- About to look at the next entry, after the calls `cs`. -/
structure Looping (site : Option Bytes) (path : Bytes) (below : List Place) (fs : List FileInfo)
    (args : List Bytes) (cs : List Call) (r : Run) : Prop where
  job : AtLoop site path below fs r.job.trace args r.job
  calls : r.calls = cs

/-- About to look up the entry `name` as a directory, after the calls `cs`. -/
structure Starting (site : Option Bytes) (name path : Bytes) (below : List Place)
    (fs : List FileInfo) (args : List Bytes) (cs : List Call) (r : Run) : Prop where
  job : AtStart site name path below fs r.job.trace args r.job
  calls : r.calls = cs

theorem postWait_stack (hStack : s.stack = ⟨path, files, ind⟩ :: below)
    (hDrop : files.drop ind = f :: fs) :
    (job.postWait s).stack = ⟨path, files, ind + 1⟩ :: below := by
  obtain ⟨hNext, -⟩ := next_of_drop (p := path) hDrop
  unfold Job.postWait
  rw [hStack]
  dsimp only
  rw [curr_of_drop (p := path) hDrop]
  dsimp only
  split
  · rw [hNext]
    rfl
  · rw [hNext]

/-- The call that processes an entry. -/
theorem calls_postWait (hStack : s.stack = ⟨path, files, ind⟩ :: below)
    (hDrop : files.drop ind = f :: fs)
    (hTrace : (job.postWait s).trace = s.trace ++ [.item (path, f.name)]) :
    calls s (job.postWait s) = [.processFile path f] := by
  have hNew : (job.postWait s).stack = ⟨path, files, ind + 1⟩ :: below :=
    postWait_stack hStack hDrop
  have hEntry : processed (job.postWait s) = some f := by
    rw [processed, hNew]
    exact curr_of_drop (p := path) hDrop
  rw [calls_of_stack hTrace (by rw [hNew]; exact List.cons_ne_nil _ _), List.flatMap_singleton,
    eventCall, hEntry]
  rfl

/-- An entry is processed, and gone into when it is a directory that is not too deep. -/
theorem process (hPlain : job.depthFirst = false) (h : Looping site path below (f :: fs) args cs r)
    (hStay : ∀ r', Looping site path below fs args (cs ++ [.processFile path f]) r' →
      ¬(Deep job below.length ∧ f.typeIs .directory = true) → Makes job w Q r')
    (hDown : ∀ r', Starting site f.name path below fs args (cs ++ [.processFile path f]) r' →
      Deep job below.length → f.typeIs .directory = true → Makes job w Q r') :
    Makes job w Q r := by
  obtain ⟨s, cs'⟩ := r
  obtain ⟨hAt, rfl⟩ := h
  dsimp only at hAt
  obtain ⟨files, ind, hStack, hDrop⟩ := hAt.stack
  have hPost : ∀ t : State, On site path below (f :: fs) t.trace args t → t.cwd = path →
      t.stack = ⟨path, files, ind⟩ :: below →
      Makes job w Q ⟨job.postWait t, cs' ++ calls t (job.postWait t)⟩ := by
    intro t hOn hCwd hStack
    by_cases hGo : (!job.depthFirst && job.goesDeeper t && f.typeIs .directory) = true
    · obtain ⟨hStart, -⟩ := postWait_down hOn hCwd hGo
      have hParts : job.goesDeeper t = true ∧ f.typeIs .directory = true := by
        simpa [hPlain] using hGo
      rw [calls_postWait hStack hDrop hStart.trace]
      exact hDown _ ⟨hStart.trace ▸ hStart, rfl⟩ ((goesDeeper_iff hOn).mp hParts.1) hParts.2
    · have hNot := eq_false_of_ne_true hGo
      obtain ⟨hLoop, -⟩ := postWait_on hOn hNot
      rw [calls_postWait hStack hDrop hLoop.trace]
      refine hStay _ ⟨hLoop.trace ▸ hLoop, rfl⟩ fun hBoth => ?_
      obtain ⟨hDeep, hDir⟩ := hBoth
      rw [← goesDeeper_iff hOn] at hDeep
      simp [hPlain, hDeep, hDir] at hNot
  have hCurr := curr_of_drop (p := path) hDrop
  let t : State := { s with cwd := path, state := .processing }
  have hProcess : Makes job w Q ⟨t, cs'⟩ := by
    apply Leads.intro
    intro i hCalm
    have hAct : job.act w t i = job.doProcessing i t := rfl
    have hStackT : t.stack = ⟨path, files, ind⟩ :: below := hStack
    rcases hCalm with hOk | hLater
    · have hDo : job.act w t i = job.postWait { t with depthDone := false } := by
        rw [hAct]
        unfold Job.doProcessing
        simp only [hStackT, hCurr, hOk]
      rw [Run.act, hDo]
      dsimp only
      rw [calls_congr (s := t) (t := { t with depthDone := false }) rfl rfl (by rintro ⟨⟩) (by rintro ⟨⟩)]
      exact .inr (.inr (hPost { t with depthDone := false }
        ⟨hAt.stack, rfl, hAt.args, hAt.site⟩ rfl hStack))
    · have hDo : job.act w t i = t := by
        rw [hAct]
        unfold Job.doProcessing
        simp only [hStackT, hCurr, hLater]
      refine .inl ⟨fun hAll => hAll.2.1 hLater, ?_⟩
      rw [Run.act, hDo, calls_self, List.append_nil]
  apply hProcess.via
  intro i _
  right
  right
  have hLoop : job.act w s i = job.act w t i := by
    have hAct : job.act w s i = job.doLoop i s := by simp [Job.act, hAt.state]
    rw [hAct, doLoop_eq hStack hCurr, if_neg (by simp [hPlain])]
    rfl
  rw [Run.act, Run.act, hLoop]
  have hState : s.state ≠ .done := by
    rw [hAt.state]
    rintro ⟨⟩
  rw [calls_congr (s := s) (t := t) rfl rfl hState (by rintro ⟨⟩)]

/-- A directory is entered when its listing is there. -/
theorem enter (h : Starting site name path below fs args cs r)
    (hLook : ∀ need, w.look site path name false need = .result true es)
    (hShown : ∀ e ∈ es, e.shown = true)
    (hNext : ∀ r' files ind, files.drop ind = fs →
      Looping site (dirFile path name) (⟨path, files, ind⟩ :: below) (shownFiles job true es) args
        (cs ++ [.enter name]) r' → Makes job w Q r') : Makes job w Q r := by
  obtain ⟨s, cs'⟩ := r
  obtain ⟨hAt, rfl⟩ := h
  dsimp only at hAt
  obtain rfl := hAt.dir
  obtain ⟨files, ind, hStack, hDrop⟩ := hAt.stack
  have hFiles : (es.map (Entry.report (job.need (below.length + 1)))) = es.map Entry.info :=
    List.map_congr_left fun e he => by simp [Entry.report, hShown e he]
  let info : State := { s with li := some (.result true (es.map Entry.info)), state := .info }
  let u : State := { s with
    li := none, state := .loop, trace := s.trace ++ [.enter s.dir]
    stack := ⟨dirFile path s.dir, shownFiles job true es, 0⟩ :: ⟨path, files, ind⟩ :: below }
  have hIn : Makes job w Q ⟨u, cs' ++ [.enter s.dir]⟩ :=
    hNext _ files ind hDrop ⟨⟨⟨⟨_, 0, rfl, rfl⟩, rfl, hAt.args, hAt.site⟩, rfl⟩, rfl⟩
  have hInfo : Makes job w Q ⟨info, cs'⟩ := by
    apply hIn.via
    intro i _
    by_cases hDone : i.liDone = true
    · right
      right
      have hAct : job.act w info i = job.act w u i := by
        have hDo : job.act w info i = job.doInfo i info := rfl
        rw [hDo, doInfo_result hDone (by exact hStack) rfl]
        rfl
      obtain ⟨ds, hTrace⟩ := doLoop_trace job i u
      have hVia : calls info (job.act w u i) = [.enter s.dir] ++ calls u (job.act w u i) :=
        calls_via (s := info) (t := u) rfl hTrace rfl (by rintro ⟨⟩) (by rintro ⟨⟩)
      rw [Run.act, Run.act, hAct]
      dsimp only
      rw [hVia, List.append_assoc]
    · left
      refine ⟨fun hAll => hDone hAll.1, ?_⟩
      have hWait : job.act w info i = info := by simp [info, Job.act, Job.doInfo, hDone]
      rw [Run.act, hWait, calls_self, List.append_nil]
  apply hInfo.via
  intro i _
  right
  right
  have hAct : job.act w s i = job.act w info i := by
    rw [act_start hAt, hLook, Found.map, hFiles]
    rfl
  have hState : s.state ≠ .done := by
    rw [hAt.state]
    rintro ⟨⟩
  rw [Run.act, Run.act, hAct, calls_congr (s := s) (t := info) rfl rfl hState (by rintro ⟨⟩)]

/-- The end of a directory. -/
theorem exit (h : Looping site name (⟨path, files, ind⟩ :: below) [] args cs r)
    (hNext : ∀ r', Looping site path below (files.drop ind) args (cs ++ [.exit]) r' →
      Makes job w Q r') : Makes job w Q r := by
  obtain ⟨s, cs'⟩ := r
  obtain ⟨hAt, rfl⟩ := h
  dsimp only at hAt
  obtain ⟨files', ind', hStack, hDrop⟩ := hAt.stack
  have hCurr := curr_of_drop_nil (p := name) hDrop
  let u : State := { s with
    trace := s.trace ++ [.exit], stack := ⟨path, files, ind⟩ :: below, depthDone := true
    state := .loop }
  have hUp : Makes job w Q ⟨u, cs' ++ [.exit]⟩ :=
    hNext _ ⟨⟨⟨⟨files, ind, rfl, rfl⟩, rfl, hAt.args, hAt.site⟩, rfl⟩, rfl⟩
  apply hUp.via
  intro i _
  right
  left
  have hAct : job.act w s i = u := by
    simp [u, Job.act, hAt.state, Job.doLoop, Job.up, hStack, hCurr]
  have hTrace : u.trace = s.trace ++ [.exit] := rfl
  rw [Run.act, hAct]
  dsimp only
  rw [calls_of_stack hTrace (List.cons_ne_nil _ _)]
  rfl

/-- The files of a directory and all that is below them. -/
theorem tree_calls (hPlain : job.depthFirst = false) {t : Tree}
    (hLists : Lists job w site path fs t) (h : Looping site path below fs args cs r)
    (hNext : ∀ r', Looping site path below [] args (cs ++ t.calls job below.length path) r' →
      Makes job w Q r') : Makes job w Q r := by
  induction hLists generalizing below cs r with
  | nil =>
      apply hNext r
      rw [Tree.calls, List.append_nil]
      exact h
  | @file path f fs t _ hFile _ ih =>
      have hNot : f.typeIs .directory ≠ true := by simp [FileInfo.typeIs, hFile]
      apply process hPlain h
      · intro r' hr' _
        apply ih hr'
        intro r'' hr''
        apply hNext
        rw [Tree.calls, List.append_cons]
        exact hr''
      · exact fun r' _ _ hDir => absurd hDir hNot
  | @dir path f fs es inside t hDir hLook hShown hIn _ ihIn ih =>
      apply process hPlain h
      · intro r' hr' hNot
        apply ih hr'
        intro r'' hr''
        apply hNext
        rw [Tree.calls, if_neg fun hDeep => hNot ⟨hDeep, hDir⟩]
        rw [List.append_assoc] at hr''
        exact hr''
      · intro r' hr' hDeep _
        apply enter hr' hLook hShown
        intro r₂ files ind hDrop hr₂
        apply ihIn hr₂
        intro r₃ hr₃
        apply exit hr₃
        intro r₄ hr₄
        rw [hDrop] at hr₄
        apply ih hr₄
        intro r₅ hr₅
        apply hNext
        rw [Tree.calls, if_pos hDeep]
        rw [List.append_assoc, List.append_assoc, List.append_assoc, List.append_assoc] at hr₅
        simpa using hr₅

end Steps

/-! ## The arguments -/

theorem act_done {job : Job} {w : Remote} {r : Run} (h : r.job.state = .done) (i : Input) :
    Run.act job w r i = r := by
  have hAct : job.act w r.job i = r.job := by simp [Job.act, h]
  rw [Run.act, hAct, calls_self, List.append_nil]

section Arguments

variable {job : Job} {w : Remote} {Q : Run → Prop} {arg : Bytes} {args : List Bytes}
  {cs : List Call} {r : Run} {t : Tree}

/-- About to look up an argument, after the calls `cs`. -/
structure Arguing (arg : Bytes) (args : List Bytes) (cs : List Call) (r : Run) : Prop where
  job : AtArg arg args r.job.trace r.job
  calls : r.calls = cs

/-- The job is done. -/
structure Done (cs : List Call) (r : Run) : Prop where
  state : r.job.state = .done
  calls : r.calls = cs

/-- An argument is looked up, and its listing goes on the stack. -/
theorem argue (hLooks : job.pretends = false) (h : Arguing arg args cs r) {es : List Entry}
    {wasDirectory : Bool}
    (hLook : ∀ need, w.look (job.target arg).1 [] (job.target arg).2 true need
      = .result wasDirectory es) (hShown : ∀ e ∈ es, e.shown = true)
    (hNext : ∀ r', Looping (job.target arg).1 [] [] (shownFiles job false es) args cs r' →
      Makes job w Q r') : Makes job w Q r := by
  obtain ⟨s, cs'⟩ := r
  obtain ⟨hAt, rfl⟩ := h
  dsimp only at hAt
  have hFiles : (es.map (Entry.report (job.need 0))) = es.map Entry.info :=
    List.map_congr_left fun e he => by simp [Entry.report, hShown e he]
  let info : State := { s with
    site := (job.target arg).1, dir := (job.target arg).2, state := .info
    li := some (.result wasDirectory (es.map Entry.info)) }
  let u : State := { info with
    li := none, state := .loop, stack := [⟨[], shownFiles job false es, 0⟩] }
  have hIn : Makes job w Q ⟨u, cs'⟩ :=
    hNext _ ⟨⟨⟨⟨_, 0, rfl, rfl⟩, rfl, hAt.args, rfl⟩, rfl⟩, rfl⟩
  have hInfo : Makes job w Q ⟨info, cs'⟩ := by
    apply hIn.via
    intro i _
    by_cases hDone : i.liDone = true
    · right
      right
      have hAct : job.act w info i = job.act w u i := by
        have hDo : job.act w info i = job.doInfo i info := rfl
        rw [hDo, doInfo_arg hDone (by exact hAt.stack) rfl]
        rfl
      rw [Run.act, Run.act, hAct, calls_congr (s := info) (t := u) rfl rfl (by rintro ⟨⟩) (by rintro ⟨⟩)]
    · left
      refine ⟨fun hAll => hDone hAll.1, ?_⟩
      have hWait : job.act w info i = info := by simp [info, Job.act, Job.doInfo, hDone]
      rw [Run.act, hWait, calls_self, List.append_nil]
  apply hInfo.via
  intro i _
  right
  right
  have hAct : job.act w s i = job.act w info i := by
    rw [act_arg hAt, hLooks, if_neg Bool.false_ne_true, hLook, Found.map, hFiles]
    rfl
  have hState : s.state ≠ .done := by
    rw [hAt.state]
    rintro ⟨⟩
  rw [Run.act, Run.act, hAct, calls_congr (s := s) (t := info) rfl rfl hState (by rintro ⟨⟩)]

/-- The last entry of an argument is behind: the next call finishes it. -/
theorem finish_act {site : Option Bytes} (h : Looping site [] [] [] args cs r) (i : Input) :
    Run.act job w r i
      = ⟨Job.finish { r.job with stack := [], state := .done }, cs ++ [.finish args.isEmpty]⟩ := by
  obtain ⟨s, cs'⟩ := r
  obtain ⟨hAt, rfl⟩ := h
  dsimp only at hAt
  obtain ⟨files, ind, hStack, hDrop⟩ := hAt.stack
  have hCurr := curr_of_drop_nil (p := []) hDrop
  have hAct : job.act w s i = Job.finish { s with stack := [], state := .done } := by
    simp [Job.act, hAt.state, Job.doLoop, Job.up, hStack, hCurr]
  rw [Run.act, hAct]
  dsimp only
  congr 2
  have hTrace : (Job.finish { s with stack := [], state := .done }).trace = s.trace ++ [] := by
    rw [finish_trace, List.append_nil]
  rw [calls_eq hTrace, List.flatMap_nil, List.nil_append]
  unfold Job.finish finished
  dsimp only
  rw [hAt.args, hAt.state]
  cases args with
  | nil => rfl
  | cons d ds => simp [Job.nextDir, Job.down]

/-- All arguments, one after another. -/
theorem args_calls (hPlain : job.depthFirst = false) (hLooks : job.pretends = false)
    {as : List Bytes} {trees : List Tree} (hTrees : List.Forall₂ (ArgLists job w) as trees)
    (hArgs : as = arg :: args) (h : Arguing arg args cs r) :
    Makes job w (Done (cs ++ argCalls job trees)) r := by
  induction hTrees generalizing arg args cs r with
  | nil => cases hArgs
  | @cons _ t as trees hTree hRest ih =>
      obtain ⟨rfl, rfl⟩ := List.cons.inj hArgs
      obtain ⟨wasDirectory, es, hLook, hShown, hLists⟩ := hTree
      apply argue hLooks h hLook hShown
      intro r₁ hr₁
      apply tree_calls hPlain hLists hr₁
      intro r₂ hr₂
      cases hRest with
      | nil =>
          apply Leads.intro
          intro i _
          right
          left
          rw [finish_act hr₂]
          refine ⟨?_, ?_⟩
          · unfold Job.finish
            dsimp only
            rw [hr₂.job.args]
          · rw [argCalls, argCalls, ← List.append_assoc]
            rfl
      | @cons next t' as trees hNext hRest =>
          let start : State := Job.nextDir next
            { r₂.job with stack := [], state := .done, args := as }
          have hGo : Makes job w
              (Done (cs ++ t.calls job 0 [] ++ [.finish false] ++ argCalls job (t' :: trees)))
              ⟨start, cs ++ t.calls job 0 [] ++ [.finish false]⟩ :=
            ih rfl ⟨⟨rfl, rfl, rfl, rfl, rfl, rfl, rfl⟩, rfl⟩
          have hCalls : cs ++ t.calls job 0 [] ++ [.finish false] ++ argCalls job (t' :: trees)
              = cs ++ argCalls job (t :: t' :: trees) := by
            rw [argCalls, List.append_assoc, List.append_assoc]
            rfl
          rw [hCalls] at hGo
          apply hGo.via
          intro i _
          right
          left
          rw [finish_act hr₂]
          unfold Job.finish
          dsimp only
          rw [hr₂.job.args]
          rfl

end Arguments

/-- A job that does not go depth-first comes to its end, and has made the calls that the trees
say. -/
theorem run_calls (job : Job) (w : Remote) (hPlain : job.depthFirst = false)
    (hLooks : job.pretends = false) (arg : Bytes) (args : List Bytes) {trees : List Tree}
    (hTrees : List.Forall₂ (ArgLists job w) (arg :: args) trees) {input : Nat → Input}
    (hCalm : ∀ n, (input n).calm) (hAnswers : ∀ n, ∃ m, n ≤ m ∧ (input m).answers) :
    ∃ n, Done (argCalls job trees) (stateAt (Run.act job w) (Run.start arg args) input n) := by
  have hStart : Arguing arg args [] (Run.start arg args) :=
    ⟨⟨rfl, rfl, rfl, rfl, rfl, rfl, rfl⟩, rfl⟩
  obtain ⟨n, -, hDone⟩ :=
    (args_calls hPlain hLooks hTrees rfl hStart).eventually hCalm hAnswers (n := 0) rfl
  exact ⟨n, hDone⟩

end Lftp.Ports.FindJob
