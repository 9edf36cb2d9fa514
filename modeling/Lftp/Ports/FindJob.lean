import Lftp.Ports.FileSets
import Lftp.Ports.TorrentPath
import Lftp.Ports.Url
import Lftp.Verified.Nesting
import Lftp.Verified.Progress
import Mathlib.Data.Int.Order.Basic
import Mathlib.Data.List.Perm.Basic
import Mathlib.Data.Nat.Bits

/-!
# Recursive traversal

`FinderJob` walks through the directories below its arguments with a stack of places, and
is called again and again until it is `DONE`. What the remote side has is a `Remote`: the
outcome of every lookup by `GetFileInfo`. An entry of a listing comes with its type when
`TYPE` was asked for, else as the server likes.

`Walk` is what a traversal should do: it says in which order the entries below a directory
are processed, and where `Enter` and `Exit` stand. `finder_complete` says that the job does
this for each of its arguments, provided that

* no directory is overlooked because its type was not asked for: an unlimited `maxdepth` is
  `-1`, and `START_INFO` compares with it as if it were a bound;
* no entry that was listed as a directory turns out not to be one: such an entry is pushed
  without `Enter`, and `Up` calls `Exit` for it;
* in depth-first order, no argument with contents comes after one that could not be looked
  up: `depth_done` is still set from the error.
-/

namespace Lftp.Ports.FindJob

open Lftp.Verified
open Lftp.Ports.FileSets (FileInfo FileType bit slash)
open Lftp.Ports.TorrentPath (dirFile)

/-! ## Lookups -/

/-- An entry with all that the remote side knows of it. `shown` when listings give its type
also if they were not asked for it. -/
structure Entry where
  info : FileInfo
  shown : Bool

/-- The entry in a listing that was asked for `need`. -/
def Entry.report (need : Nat) (e : Entry) : FileInfo :=
  if bit need FileSets.Defined.type || e.shown then e.info
  else { e.info with
    filetype := .unknown, defined := e.info.defined.ldiff FileSets.Defined.type }

/-- How a `GetFileInfo` ends: `result` with `WasDirectory`. -/
inductive Found (α : Type)
  | error
  | result (wasDirectory : Bool) (files : List α)

def Found.map {α β : Type} (f : α → β) : Found α → Found β
  | .error => .error
  | .result wasDirectory files => .result wasDirectory (files.map f)

/-- The outcome of `GetFileInfo` for a name, in the session of a URL or the job's own, with
its directory, whether the name is an argument (then it shows directories and prepends the
path), and the need mask. -/
structure Remote where
  look : Option Bytes → Bytes → Bytes → Bool → Nat → Found Entry

/-! ## The job -/

/-- What does not change while the job runs. `processList` may sort; `home` is the directory
of a new session. -/
structure Job where
  fileInfoNeed : Nat
  validateArgs : Bool
  depthFirst : Bool
  maxdepth : Int
  exclude : Option (Bytes → Bool)
  processList : List FileInfo → List FileInfo
  processList_perm : ∀ l, (processList l).Perm l
  names : Url.Names
  home : Bytes → Bytes

inductive Phase
  | startInfo
  | info
  | loop
  | processing
  | wait
  | done
  /-- A null pointer is used. -/
  | crashed
deriving DecidableEq

structure Place where
  path : Bytes
  fset : List FileInfo
  ind : Nat

def Place.curr (p : Place) : Option FileInfo := p.fset[p.ind]?

def Place.next (p : Place) : Place :=
  if p.ind < p.fset.length then { p with ind := p.ind + 1 } else p

/-- `Enter` and `Exit`, and an entry with its directory whose processing is complete. -/
abbrev Event := Mark Bytes (Bytes × Bytes)

/-- `stack` starts with its top. `site` is the URL whose session is used, `cwd` the directory
the session was changed to from `init_dir`. -/
structure State where
  state : Phase
  dir : Bytes
  stack : List Place
  depthDone : Bool
  li : Option (Found FileInfo)
  errors : Nat
  site : Option Bytes
  cwd : Bytes
  args : List Bytes
  trace : List Event

inductive PrfRes
  | fatal
  | err
  | ok
  | wait
  | later
deriving DecidableEq

/-- What a call of `Do` finds: whether `li` is done, what `ProcessFile` returns, and whether
there is an awaited job that is done. -/
structure Input where
  liDone : Bool
  processFile : PrfRes
  jobDone : Bool

namespace Job

variable (job : Job) (w : Remote) (i : Input)

def stackPtr (s : State) : Int := s.stack.length - 1

/-- `maxdepth == -1 || stack_ptr+1 < maxdepth` -/
def goesDeeper (s : State) : Bool := job.maxdepth = -1 || stackPtr s + 1 < job.maxdepth

def down (p : Bytes) (s : State) : State := { s with dir := p, state := .startInfo }

def nextDir (d : Bytes) (s : State) : State := down d { s with site := none, cwd := [] }

/-- `Finish` of the jobs that have several arguments. -/
def finish (s : State) : State :=
  match s.args with
  | [] => s
  | d :: ds => nextDir d { s with args := ds }

def up (s : State) : State :=
  match s.stack with
  | [] => finish { s with state := .done }
  | [_] => finish { s with stack := [], state := .done }
  | _ :: below =>
    { s with trace := s.trace ++ [.exit], stack := below, depthDone := true, state := .loop }

def isDots (name : Bytes) : Bool := name = bytes "." || name = bytes ".."

/-- `do_exclude_match` with no prefix. -/
def excluded (f : FileInfo) : Bool :=
  match job.exclude with
  | none => false
  | some matchExclude => matchExclude (if f.typeIs .directory then f.name ++ [slash] else f.name)

/-- What `Push` leaves in a set; `deep` when it is not for an argument. -/
def keeps (deep : Bool) (f : FileInfo) : Bool := !(deep && isDots f.name) && !job.excluded f

def push (files : List FileInfo) (s : State) : State :=
  let newPath := match s.stack with
    | [] => []
    | top :: _ => dirFile top.path s.dir
  let fset := job.processList (files.filter (job.keeps (s.stack ≠ [])))
  { s with stack := ⟨newPath, fset, 0⟩ :: s.stack }

/-- `post_WAIT` -/
def postWait (s : State) : State :=
  match s.stack with
  | [] => { s with state := .loop }
  | top :: below =>
    match top.curr with
    | none => { s with state := .crashed }
    | some f =>
      let deeper := !job.depthFirst && job.goesDeeper s && f.typeIs .directory
      let s := { s with
        state := .loop, trace := s.trace ++ [.item (top.path, f.name)],
        stack := top.next :: below }
      if deeper then down f.name s else s

def doProcessing (s : State) : State :=
  match s.stack with
  | [] => { s with state := .crashed }
  | top :: _ =>
    match top.curr with
    | none => { s with state := .crashed }
    | some _ =>
      match i.processFile with
      | .later => s
      | .fatal => { s with depthDone := false, errors := s.errors + 1, state := .done }
      | .err => job.postWait { s with depthDone := false, errors := s.errors + 1 }
      | .wait => { s with depthDone := false, state := .wait }
      | .ok => job.postWait { s with depthDone := false }

def doLoop (s : State) : State :=
  match s.stack with
  | [] => up s
  | top :: _ =>
    match top.curr with
    | none => up s
    | some f =>
      let s := { s with cwd := top.path }
      if job.depthFirst && !s.depthDone && job.goesDeeper s && f.typeIs .directory then
        down f.name s
      else job.doProcessing i { s with state := .processing }

def doInfo (s : State) : State :=
  match s.li with
  | none => { s with state := .crashed }
  | some found =>
    if !i.liDone then s
    else
      match found with
      | .error => { s with li := none, errors := s.errors + 1, depthDone := true, state := .loop }
      | .result wasDirectory files =>
        let s := if s.stack ≠ [] && wasDirectory then
            { s with trace := s.trace ++ [.enter s.dir] }
          else s
        job.doLoop i { job.push files s with li := none, state := .loop }

/-- `new FileInfo(dir)` -/
def nameOnly (name : Bytes) : FileInfo :=
  { name := name, longname := none, symlink := none, mode := 2 ^ 32 - 1, date := ⟨-1, 0⟩,
    size := -1, user := none, group := none, nlinks := 0, filetype := .unknown,
    defined := FileSets.Defined.name, rank := 0 }

/-- The need mask with `depth` places on the stack. -/
def need (depth : Nat) : Nat :=
  let need := job.fileInfoNeed ||| FileSets.Defined.name
  if (depth : Int) < job.maxdepth then need ||| FileSets.Defined.type else need

/-- No lookup is made for an argument of which only the name is needed. -/
def pretends : Bool :=
  (job.fileInfoNeed ||| FileSets.Defined.name) = FileSets.Defined.name && !job.validateArgs

/-- The session and the path for an argument, which may be a URL. -/
def target (arg : Bytes) : Option Bytes × Bytes :=
  let u := Url.parse job.names true true arg
  if u.proto.isSome then (some arg, u.path.getD (job.home arg)) else (none, arg)

/-- The first lines of `START_INFO`. -/
def toTarget (s : State) : State :=
  if s.stack = [] then
    match job.target s.dir with
    | (some url, path) => { s with site := some url, cwd := [], dir := path }
    | (none, _) => s
  else s

def doStartInfo (s : State) : State :=
  let s := job.toTarget s
  if s.stack = [] && job.pretends then
    { job.push [nameOnly s.dir] s with state := .loop }
  else
    let need := job.need s.stack.length
    let found := w.look s.site s.cwd s.dir (s.stack = []) need
    job.doInfo i { s with li := some (found.map (Entry.report need)), state := .info }

/-- `FinderJob::Do` -/
def act (s : State) (i : Input) : State :=
  match s.state with
  | .startInfo => job.doStartInfo w i s
  | .info => job.doInfo i s
  | .loop => job.doLoop i s
  | .processing => job.doProcessing i s
  | .wait => if i.jobDone then job.postWait s else s
  | .done => s
  | .crashed => s

/-- The job before its first call. -/
def start (arg : Bytes) (args : List Bytes) : State :=
  nextDir arg ⟨.startInfo, [], [], false, none, 0, none, [], args, []⟩

end Job

/-! ## What a traversal should do -/

section Spec

variable (job : Job) (w : Remote) (site : Option Bytes)

/-- Directories with `depth` places below them on the stack are descended into. -/
def Deep (depth : Nat) : Prop := job.maxdepth = -1 ∨ (depth + 1 : Int) < job.maxdepth

/-- The lookup of an entry as a directory. -/
def contents (depth : Nat) (path : Bytes) (e : Entry) : Found Entry :=
  w.look site path e.info.name false (job.need (depth + 1))

/-- An entry within `maxdepth` below which others are to be found. -/
def Opens (depth : Nat) (path : Bytes) (e : Entry) (es : List Entry) : Prop :=
  Deep job depth ∧ e.info.typeIs .directory ∧ contents job w site depth path e = .result true es

/-- The entries of a listing that are neither excluded nor dots. -/
def kept (deep : Bool) (es : List Entry) : List Entry := es.filter fun e => job.keeps deep e.info

/-- An entry and what happens in it, in the order of the traversal. -/
def around (item : Event) (inner : List Event) : List Event :=
  if job.depthFirst then inner ++ [item] else item :: inner

/-- The entries `es` of the directory `path` are processed, each exactly once, with all that
is to be found in them. -/
inductive Walk : Nat → Bytes → List Entry → List Event → Prop
  | nil {depth : Nat} {path : Bytes} : Walk depth path [] []
  | leaf {depth : Nat} {path : Bytes} {e : Entry} {es : List Entry} {t : List Event}
      (h : ∀ fs, ¬Opens job w site depth path e fs) (ht : Walk depth path es t) :
      Walk depth path (e :: es) (.item (path, e.info.name) :: t)
  | opened {depth : Nat} {path : Bytes} {e : Entry} {es fs gs : List Entry}
      {s t : List Event} (h : Opens job w site depth path e fs)
      (hs : gs.Perm (kept job true fs))
      (hIn : Walk (depth + 1) (dirFile path e.info.name) gs s) (ht : Walk depth path es t) :
      Walk depth path (e :: es)
        (around job (.item (path, e.info.name)) (.enter e.info.name :: s ++ [.exit]) ++ t)

end Spec

/-! ## What the job sees -/

@[simp] theorem report_name (n : Nat) (e : Entry) : (e.report n).name = e.info.name := by
  unfold Entry.report
  split <;> rfl

/-- A type that is not given does not become that of a directory. -/
theorem typeIs_of_report {n : Nat} {e : Entry} (h : (e.report n).typeIs .directory = true) :
    e.info.typeIs .directory = true := by
  unfold Entry.report at h
  split at h
  · exact h
  · simp [FileInfo.typeIs] at h

theorem exists_perm_map {α β : Type} {f : α → β} {l : List β} {es : List α}
    (h : l.Perm (es.map f)) : ∃ gs : List α, gs.Perm es ∧ gs.map f = l := by
  have hSame : List.Forall₂ (fun b a => b = f a) (es.map f) es :=
    List.forall₂_map_left_iff.mpr (List.forall₂_same.mpr fun a _ => rfl)
  rcases List.perm_comp_forall₂ h hSame with ⟨gs, hgs, hPerm⟩
  exact ⟨gs, hPerm, (List.forall₂_eq_eq_eq ▸ List.forall₂_map_right_iff.mpr hgs).symm⟩

section Correct

variable (job : Job) (w : Remote) (site : Option Bytes)

/-- The directories below an entry come to an end: the remote tree is finite. -/
inductive Finite : Bytes → Bytes → Prop
  | mk {path name : Bytes}
      (h : ∀ need es, w.look site path name false need = .result true es →
        ∀ e ∈ es, Job.isDots e.info.name = false → e.info.typeIs .directory = true →
          Finite (dirFile path name) e.info.name) : Finite path name

/-- Nothing that follows from an entry's being a directory is missed or done in vain. -/
structure Good (depth : Nat) (path : Bytes) (e : Entry) : Prop where
  seen : ∀ fs, Opens job w site depth path e fs →
    (e.report (job.need depth)).typeIs .directory = true
  isDir : Deep job depth → (e.report (job.need depth)).typeIs .directory = true →
    ∀ fs, contents job w site depth path e ≠ .result false fs

/-- A listing that tells the job what it has to know. -/
structure Clear (depth : Nat) (path : Bytes) (es : List Entry) : Prop where
  excluded : ∀ e ∈ es, job.excluded (e.report (job.need depth)) = job.excluded e.info
  good : ∀ e ∈ kept job (depth ≠ 0) es, Good job w site depth path e

/-- The listings that a traversal comes to, from the entries `top` of an argument. -/
inductive Listed (top : List Entry) : Nat → Bytes → List Entry → Prop
  | arg : Listed top 0 [] top
  | inside {depth : Nat} {path : Bytes} {es fs : List Entry} {e : Entry}
      (h : Listed top depth path es) (he : e ∈ kept job (depth ≠ 0) es)
      (hOpens : Opens job w site depth path e fs) :
      Listed top (depth + 1) (dirFile path e.info.name) fs

/-- The output is not broken. -/
def Input.fine (i : Input) : Prop := i.processFile ≠ .fatal

/-- All that the job may wait for is there. -/
def Input.answers (i : Input) : Prop :=
  i.liDone = true ∧ i.processFile ≠ .later ∧ i.jobDone = true

/-- The job comes to a state in `Q`. -/
abbrev Goes (Q : State → Prop) (s : State) : Prop :=
  Leads (job.act w) Input.fine Input.answers Q s

/-- The place on top is `path`, with `fs` to come, and the events so far are `t`. -/
structure On (path : Bytes) (below : List Place) (fs : List FileInfo) (t : List Event)
    (args : List Bytes) (s : State) : Prop where
  stack : ∃ files ind, s.stack = ⟨path, files, ind⟩ :: below ∧ files.drop ind = fs
  trace : s.trace = t
  args : s.args = args
  site : s.site = site

/-- About to look at the next entry. -/
structure AtLoop (path : Bytes) (below : List Place) (fs : List FileInfo) (t : List Event)
    (args : List Bytes) (s : State) : Prop extends On site path below fs t args s where
  state : s.state = .loop

/-- About to look up the entry `name` as a directory. -/
structure AtStart (name path : Bytes) (below : List Place) (fs : List FileInfo)
    (t : List Event) (args : List Bytes) (s : State) : Prop
    extends On site path below fs t args s where
  state : s.state = .startInfo
  dir : s.dir = name
  cwd : s.cwd = path

end Correct

section Steps

variable {job : Job} {w : Remote} {site : Option Bytes} {Q : State → Prop} {path name : Bytes}
  {below : List Place} {f : FileInfo} {fs files : List FileInfo} {ind : Nat} {t : List Event}
  {args : List Bytes} {s : State} {es : List Entry} {e : Entry}

theorem curr_of_drop {p : Bytes} (h : files.drop ind = f :: fs) :
    Place.curr ⟨p, files, ind⟩ = some f := by
  unfold Place.curr
  rw [← List.head?_drop, h]
  rfl

theorem curr_of_drop_nil {p : Bytes} (h : files.drop ind = []) :
    Place.curr ⟨p, files, ind⟩ = none := by
  unfold Place.curr
  rw [← List.head?_drop, h]
  rfl

theorem next_of_drop {p : Bytes} (h : files.drop ind = f :: fs) :
    Place.next ⟨p, files, ind⟩ = ⟨p, files, ind + 1⟩ ∧ files.drop (ind + 1) = fs := by
  have hLess : ind < files.length := by
    by_contra hnot
    rw [List.drop_eq_nil_of_le (Nat.le_of_not_lt hnot)] at h
    cases h
  constructor
  · unfold Place.next
    rw [if_pos hLess]
  · rw [← List.tail_drop, h]
    rfl

theorem goesDeeper_iff (h : On site path below fs t args s) :
    job.goesDeeper s = true ↔ Deep job below.length := by
  rcases h.stack with ⟨files, ind, hStack, -⟩
  unfold Job.goesDeeper Job.stackPtr Deep
  rw [hStack]
  simp

/-! ### One entry -/

theorem postWait_on (h : On site path below (f :: fs) t args s)
    (hStay : (!job.depthFirst && job.goesDeeper s && f.typeIs .directory) = false) :
    AtLoop site path below fs (t ++ [.item (path, f.name)]) args (job.postWait s)
      ∧ (job.postWait s).depthDone = s.depthDone := by
  rcases h.stack with ⟨files, ind, hStack, hDrop⟩
  have hCurr := curr_of_drop (p := path) hDrop
  rcases next_of_drop (p := path) hDrop with ⟨hNext, hRest⟩
  unfold Job.postWait
  rw [hStack]
  dsimp only
  rw [hCurr]
  dsimp only
  rw [if_neg (by simp [hStay]), hNext, h.trace]
  exact ⟨⟨⟨⟨files, ind + 1, rfl, hRest⟩, rfl, h.args, h.site⟩, rfl⟩, rfl⟩

theorem postWait_down (h : On site path below (f :: fs) t args s) (hCwd : s.cwd = path)
    (hDown : (!job.depthFirst && job.goesDeeper s && f.typeIs .directory) = true) :
    AtStart site f.name path below fs (t ++ [.item (path, f.name)]) args (job.postWait s)
      ∧ (job.postWait s).depthDone = s.depthDone := by
  rcases h.stack with ⟨files, ind, hStack, hDrop⟩
  have hCurr := curr_of_drop (p := path) hDrop
  rcases next_of_drop (p := path) hDrop with ⟨hNext, hRest⟩
  unfold Job.postWait
  rw [hStack]
  dsimp only
  rw [hCurr]
  dsimp only
  rw [if_pos hDown, hNext, h.trace]
  exact ⟨⟨⟨⟨files, ind + 1, rfl, hRest⟩, rfl, h.args, h.site⟩, rfl, rfl, hCwd⟩, rfl⟩

theorem doLoop_eq {top : Place} {i : Input} (hStack : s.stack = top :: below)
    (hCurr : top.curr = some f) : job.doLoop i s
      = if job.depthFirst && !s.depthDone && job.goesDeeper s && f.typeIs .directory then
          Job.down f.name { s with cwd := top.path }
        else job.doProcessing i { s with cwd := top.path, state := .processing } := by
  cases s with
  | mk =>
      cases hStack
      unfold Job.doLoop
      simp only [hCurr]
      rfl

/-- An entry that is not descended into first is processed. -/
theorem treat (h : AtLoop site path below (f :: fs) t args s)
    (hStay : (job.depthFirst && !s.depthDone && job.goesDeeper s && f.typeIs .directory) = false)
    (hNext : ∀ s', On site path below (f :: fs) t args s' → s'.cwd = path →
      s'.depthDone = false → Goes job w Q (job.postWait s')) : Goes job w Q s := by
  rcases h.stack with ⟨files, ind, hStack, hDrop⟩
  have hCurr := curr_of_drop (p := path) hDrop
  have hPost : ∀ n state, Goes job w Q (job.postWait
      { s with cwd := path, depthDone := false, errors := n, state := state }) := fun n state =>
    hNext _ ⟨⟨files, ind, hStack, hDrop⟩, h.trace, h.args, h.site⟩ rfl rfl
  have hWait : Goes job w Q { s with cwd := path, depthDone := false, state := .wait } := by
    apply Leads.intro
    intro i _
    by_cases hJob : i.jobDone = true
    · have hAct : job.act w { s with cwd := path, depthDone := false, state := .wait } i
          = job.postWait { s with cwd := path, depthDone := false, state := .wait } := by
        simp [Job.act, hJob]
      rw [hAct]
      exact .inr (.inr (hPost s.errors .wait))
    · refine .inl ⟨fun hAll => hJob hAll.2.2, ?_⟩
      simp [Job.act, hJob]
  have hProcess : Goes job w Q { s with cwd := path, state := .processing } := by
    apply Leads.intro
    intro i hFine
    have hAct : job.act w { s with cwd := path, state := .processing } i
        = job.doProcessing i { s with cwd := path, state := .processing } := rfl
    rw [hAct]
    unfold Job.doProcessing
    simp only [hStack, hCurr]
    cases hRes : i.processFile with
    | later => exact .inl ⟨fun hAll => hAll.2.1 hRes, by simp⟩
    | fatal => exact absurd hRes hFine
    | err => exact .inr (.inr (hStack ▸ hPost (s.errors + 1) .processing))
    | wait => exact .inr (.inr (hStack ▸ hWait))
    | ok => exact .inr (.inr (hStack ▸ hPost s.errors .processing))
  apply hProcess.via
  intro i _
  right
  right
  have hLoop : job.act w s i = job.doLoop i s := by simp [Job.act, h.state]
  rw [hLoop, doLoop_eq hStack hCurr, if_neg (by simp [hStay])]
  rfl

/-- In depth-first order a directory is descended into when it is met. -/
theorem descend_first (h : AtLoop site path below (f :: fs) t args s)
    (hDown : (job.depthFirst && !s.depthDone && job.goesDeeper s && f.typeIs .directory) = true)
    (hNext : ∀ s', AtStart site f.name path below (f :: fs) t args s' →
      s'.depthDone = s.depthDone → Goes job w Q s') : Goes job w Q s := by
  rcases h.stack with ⟨files, ind, hStack, hDrop⟩
  have hCurr := curr_of_drop (p := path) hDrop
  have hTo : Goes job w Q (Job.down f.name { s with cwd := path }) :=
    hNext _ ⟨⟨⟨files, ind, hStack, hDrop⟩, h.trace, h.args, h.site⟩, rfl, rfl, rfl⟩ rfl
  apply hTo.via
  intro i _
  right
  left
  have hLoop : job.act w s i = job.doLoop i s := by simp [Job.act, h.state]
  rw [hLoop, doLoop_eq hStack hCurr, if_pos hDown]

/-! ### One directory -/

theorem act_start {i : Input} (h : AtStart site name path below fs t args s) :
    job.act w s i = job.doInfo i { s with
      li := some ((w.look site path name false (job.need (below.length + 1))).map
        (Entry.report (job.need (below.length + 1)))),
      state := .info } := by
  rcases h.stack with ⟨files, ind, hStack, -⟩
  have hStart : job.act w s i = job.doStartInfo w i s := by simp [Job.act, h.state]
  rw [hStart]
  have hSame : job.toTarget s = s := by
    unfold Job.toTarget
    rw [if_neg (by simp [hStack])]
  unfold Job.doStartInfo
  rw [hSame]
  simp [hStack, h.site, h.cwd, h.dir]

theorem lookup_error (h : AtStart site name path below fs t args s)
    (hLook : w.look site path name false (job.need (below.length + 1)) = .error)
    (hNext : ∀ s', AtLoop site path below fs t args s' → s'.depthDone = true →
      Goes job w Q s') : Goes job w Q s := by
  rcases h.stack with ⟨files, ind, hStack, hDrop⟩
  have hBack : Goes job w Q { s with
      li := none, errors := s.errors + 1, depthDone := true, state := .loop } :=
    hNext _ ⟨⟨⟨files, ind, hStack, hDrop⟩, h.trace, h.args, h.site⟩, rfl⟩ rfl
  have hInfo : Goes job w Q { s with li := some .error, state := .info } := by
    apply hBack.via
    intro i _
    by_cases hDone : i.liDone = true
    · right
      left
      simp [Job.act, Job.doInfo, hDone]
    · exact .inl ⟨fun hAll => hDone hAll.1, by simp [Job.act, Job.doInfo, hDone]⟩
  apply hInfo.via
  intro i _
  right
  right
  rw [act_start h, hLook]
  rfl

/-- What `Push` puts on the stack is what is kept of the listing, in some order. -/
theorem exists_kept {d : Bool} {n : Nat}
    (h : ∀ e ∈ es, job.excluded (e.report n) = job.excluded e.info) :
    ∃ gs : List Entry, gs.Perm (kept job d es) ∧ gs.map (Entry.report n)
      = job.processList ((es.map (Entry.report n)).filter (job.keeps d)) := by
  have hFilter : (es.map (Entry.report n)).filter (job.keeps d)
      = (kept job d es).map (Entry.report n) := by
    unfold kept
    rw [List.filter_map]
    congr 1
    apply List.filter_congr
    intro e he
    show job.keeps d (e.report n) = job.keeps d e.info
    unfold Job.keeps
    rw [report_name, h e he]
  rw [hFilter]
  exact exists_perm_map (job.processList_perm _)

theorem doInfo_result {i : Input} (hDone : i.liDone = true)
    (hStack : s.stack = ⟨path, files, ind⟩ :: below) (hLi : s.li = some (.result true fs)) :
    job.doInfo i s = job.doLoop i { s with
      li := none, state := .loop, trace := s.trace ++ [.enter s.dir]
      stack := ⟨dirFile path s.dir, job.processList (fs.filter (job.keeps true)), 0⟩ ::
        ⟨path, files, ind⟩ :: below } := by
  cases s with
  | mk =>
      cases hStack
      cases hLi
      simp [Job.doInfo, Job.push, hDone]

theorem lookup_result (h : AtStart site name path below fs t args s)
    (hLook : w.look site path name false (job.need (below.length + 1)) = .result true es)
    (hExcluded : ∀ e ∈ es, job.excluded (e.report (job.need (below.length + 1)))
      = job.excluded e.info)
    (hNext : ∀ (s' : State) (gs : List Entry) (files : List FileInfo) (ind : Nat),
      files.drop ind = fs → gs.Perm (kept job true es) →
      AtLoop site (dirFile path name) (⟨path, files, ind⟩ :: below)
        (gs.map (Entry.report (job.need (below.length + 1)))) (t ++ [.enter name]) args s' →
      s'.depthDone = s.depthDone → Goes job w Q s') : Goes job w Q s := by
  rcases h.stack with ⟨files, ind, hStack, hDrop⟩
  rcases exists_kept (d := true) hExcluded with ⟨gs, hPerm, hMap⟩
  let found := es.map (Entry.report (job.need (below.length + 1)))
  have hIn : Goes job w Q { s with
      li := none, state := .loop, trace := s.trace ++ [.enter s.dir]
      stack := ⟨dirFile path s.dir, job.processList (found.filter (job.keeps true)), 0⟩ ::
        ⟨path, files, ind⟩ :: below } := by
    refine hNext _ gs files ind hDrop hPerm ⟨⟨⟨_, 0, ?_, hMap.symm⟩, ?_, h.args, h.site⟩, rfl⟩ rfl
    · rw [h.dir]
    · rw [h.dir, h.trace]
  have hInfo : Goes job w Q { s with li := some (.result true found), state := .info } := by
    apply hIn.via
    intro i _
    have hAct : job.act w { s with li := some (.result true found), state := .info } i
        = job.doInfo i { s with li := some (.result true found), state := .info } := rfl
    by_cases hDone : i.liDone = true
    · right
      right
      rw [hAct, doInfo_result hDone (by exact hStack) rfl]
      rfl
    · left
      rw [hAct]
      exact ⟨fun hAll => hDone hAll.1, by simp [Job.doInfo, hDone]⟩
  apply hInfo.via
  intro i _
  right
  right
  rw [act_start h, hLook]
  rfl

/-- The end of a directory. -/
theorem leave (h : AtLoop site name (⟨path, files, ind⟩ :: below) [] t args s)
    (hNext : ∀ s', AtLoop site path below (files.drop ind) (t ++ [.exit]) args s' →
      s'.depthDone = true → Goes job w Q s') : Goes job w Q s := by
  rcases h.stack with ⟨files', ind', hStack, hDrop⟩
  have hCurr := curr_of_drop_nil (p := name) hDrop
  have hUp : Goes job w Q { s with
      trace := s.trace ++ [.exit], stack := ⟨path, files, ind⟩ :: below, depthDone := true,
      state := .loop } :=
    hNext _ ⟨⟨⟨files, ind, rfl, rfl⟩, congrArg (· ++ _) h.trace, h.args, h.site⟩, rfl⟩ rfl
  apply hUp.via
  intro i _
  right
  left
  simp [Job.act, h.state, Job.doLoop, Job.up, hStack, hCurr]

/-! ### The entries of a directory -/

/-- The events inside an entry. -/
def Visited (job : Job) (w : Remote) (site : Option Bytes) (depth : Nat) (path : Bytes)
    (e : Entry) (u : List Event) : Prop :=
  (∀ fs, ¬Opens job w site depth path e fs) ∧ u = []
    ∨ ∃ fs gs v, Opens job w site depth path e fs ∧ gs.Perm (kept job true fs)
      ∧ Walk job w site (depth + 1) (dirFile path e.info.name) gs v
      ∧ u = .enter e.info.name :: v ++ [.exit]

theorem Visited.cons {depth : Nat} {u v : List Event}
    (hu : Visited job w site depth path e u) (hv : Walk job w site depth path es v) :
    Walk job w site depth path (e :: es) (around job (.item (path, e.info.name)) u ++ v) := by
  rcases hu with ⟨hLeaf, hNil⟩ | ⟨fs, gs, v', hOpens, hPerm, hIn, hu⟩
  · have hAround : around job (.item (path, e.info.name)) u = [.item (path, e.info.name)] := by
      rw [hNil]
      unfold around
      split <;> rfl
    rw [hAround]
    exact .leaf hLeaf hv
  · rw [hu]
    exact .opened hOpens hPerm hIn hv

/-- From the start of the lookup of an entry the job comes back to the loop, with what
happens inside the entry behind it. -/
def Inside (job : Job) (w : Remote) (site : Option Bytes) (Q : State → Prop) (depth : Nat)
    (path : Bytes) (e : Entry) : Prop :=
  ∀ {below rest t args s}, below.length = depth →
    AtStart site e.info.name path below rest t args s →
    (job.depthFirst = true → s.depthDone = false) →
    (∀ s' u, Visited job w site depth path e u →
      AtLoop site path below rest (t ++ u) args s' → s'.depthDone = true → Goes job w Q s') →
    Goes job w Q s

theorem goes_deeper {depth : Nat} (hDepth : below.length = depth)
    (h : On site path below fs t args s) : job.goesDeeper s = true ↔ Deep job depth := by
  rw [← hDepth]
  exact goesDeeper_iff h

/-- An entry that the job does not descend into has nothing inside. -/
theorem visited_nil {depth : Nat} (hGood : Good job w site depth path e)
    (hNot : ¬(Deep job depth ∧ (e.report (job.need depth)).typeIs .directory = true)) :
    Visited job w site depth path e [] := by
  left
  refine ⟨fun fs hOpens => ?_, rfl⟩
  exact hNot ⟨hOpens.1, hGood.seen fs hOpens⟩

/-- The entries `es` of a directory, one after another. -/
theorem entries_lead {depth : Nat} (hGood : ∀ e ∈ es, Good job w site depth path e)
    (hInside : ∀ e ∈ es, Deep job depth → (e.report (job.need depth)).typeIs .directory = true →
      Inside job w site Q depth path e)
    (hDepth : below.length = depth)
    (h : AtLoop site path below (es.map (Entry.report (job.need depth))) t args s)
    (hDone : ∀ e ∈ es.head?, job.depthFirst = true → s.depthDone = true →
      ∀ fs, ¬Opens job w site depth path e fs)
    (hNext : ∀ s' u, Walk job w site depth path es u →
      AtLoop site path below [] (t ++ u) args s' →
      (job.depthFirst = true → s'.depthDone = (s.depthDone && es.isEmpty)) → Goes job w Q s') :
    Goes job w Q s := by
  induction es generalizing s t with
  | nil =>
      apply hNext s [] .nil
      · rw [List.append_nil]
        exact h
      · simp
  | cons e es ih =>
      have hGoodE := hGood e List.mem_cons_self
      have hGoodTail := fun e' he' => hGood e' (List.mem_cons_of_mem e he')
      have hInsideTail := fun e' he' => hInside e' (List.mem_cons_of_mem e he')
      -- what is left to do when the entry and its inside are done
      have hRest : ∀ s' u, Visited job w site depth path e u →
          AtLoop site path below (es.map (Entry.report (job.need depth)))
            (t ++ around job (.item (path, e.info.name)) u) args s' →
          (job.depthFirst = true → s'.depthDone = false) → Goes job w Q s' := by
        intro s' u hu hs' hClean
        apply ih hGoodTail hInsideTail hs'
        · intro e' _ hFirst hSet
          rw [hClean hFirst] at hSet
          cases hSet
        · intro s'' v hv hs'' hDone''
          apply hNext s'' (around job (.item (path, e.info.name)) u ++ v) (hu.cons hv)
          · rw [← List.append_assoc]
            exact hs''
          · intro hFirst
            rw [hDone'' hFirst, hClean hFirst]
            simp
      by_cases hFirst : job.depthFirst = true
      · -- depth first: the entry is processed when its inside is done
        have hTreat : ∀ s' u, Visited job w site depth path e u →
            AtLoop site path below ((e :: es).map (Entry.report (job.need depth))) (t ++ u) args
              s' →
            (job.depthFirst && !s'.depthDone && job.goesDeeper s'
              && (e.report (job.need depth)).typeIs .directory) = false → Goes job w Q s' := by
          intro s' u hu hs' hStay
          apply treat hs' hStay
          intro s'' hs'' _ hClean
          have hOver : (!job.depthFirst && job.goesDeeper s''
              && (e.report (job.need depth)).typeIs .directory) = false := by
            simp [hFirst]
          rcases postWait_on hs'' hOver with ⟨hLoop, hSame⟩
          apply hRest _ u hu
          · unfold around
            rw [if_pos hFirst, ← List.append_assoc]
            rw [report_name] at hLoop
            exact hLoop
          · intro _
            rw [hSame, hClean]
        by_cases hDown : (job.depthFirst && !s.depthDone && job.goesDeeper s
            && (e.report (job.need depth)).typeIs .directory) = true
        · have hParts : s.depthDone = false ∧ job.goesDeeper s = true
              ∧ (e.report (job.need depth)).typeIs .directory = true := by
            simpa [hFirst, and_assoc] using hDown
          apply descend_first h hDown
          intro s' hs' hSame
          rw [report_name] at hs'
          apply hInside e List.mem_cons_self ((goes_deeper hDepth h.toOn).mp hParts.2.1)
            hParts.2.2 hDepth hs'
          · intro _
            rw [hSame, hParts.1]
          · intro s'' u hu hs'' hSet
            exact hTreat s'' u hu hs'' (by simp [hSet])
        · have hStay := eq_false_of_ne_true hDown
          apply hTreat s [] _ (by rw [List.append_nil]; exact h) hStay
          by_cases hSet : s.depthDone = true
          · exact .inl ⟨hDone e rfl hFirst hSet, rfl⟩
          · apply visited_nil hGoodE
            rintro ⟨hDeep, hDir⟩
            rw [← goes_deeper hDepth h.toOn] at hDeep
            simp [hFirst, hSet, hDeep, hDir] at hStay
      · -- normal order: the entry is processed, then what is inside
        have hAround : ∀ u, around job (.item (path, e.info.name)) u
            = .item (path, e.info.name) :: u := fun u => if_neg hFirst
        have hPlain : job.depthFirst = false := eq_false_of_ne_true hFirst
        apply treat h (by simp [hPlain])
        intro s' hs' hCwd _
        by_cases hDown : (!job.depthFirst && job.goesDeeper s'
            && (e.report (job.need depth)).typeIs .directory) = true
        · have hParts : job.goesDeeper s' = true
              ∧ (e.report (job.need depth)).typeIs .directory = true := by
            simpa [hPlain] using hDown
          rcases postWait_down hs' hCwd hDown with ⟨hStart, _⟩
          rw [report_name] at hStart
          apply hInside e List.mem_cons_self ((goes_deeper hDepth hs').mp hParts.1) hParts.2
            hDepth hStart (fun hFirst' => absurd hFirst' hFirst)
          intro s'' u hu hs'' _
          apply hRest s'' u hu _ (fun hFirst' => absurd hFirst' hFirst)
          rw [hAround]
          rw [List.append_assoc] at hs''
          exact hs''
        · have hStay := eq_false_of_ne_true hDown
          rcases postWait_on hs' hStay with ⟨hLoop, _⟩
          rw [report_name] at hLoop
          apply hRest _ [] _ _ (fun hFirst' => absurd hFirst' hFirst)
          · apply visited_nil hGoodE
            rintro ⟨hDeep, hDir⟩
            rw [← goes_deeper hDepth hs'] at hDeep
            simp [hPlain, hDeep, hDir] at hStay
          · rw [hAround]
            exact hLoop

/-! ### The whole tree -/

/-- Every directory below an entry is visited, by induction on the tree. -/
theorem inside_lead {top : List Entry} (hClear : ∀ depth path es,
      Listed job w site top depth path es → Clear job w site depth path es)
    (hFinite : Finite w site path name) :
    ∀ {depth es e}, Listed job w site top depth path es → e ∈ kept job (depth ≠ 0) es →
      e.info.name = name → Deep job depth →
      (e.report (job.need depth)).typeIs .directory = true →
      Inside job w site Q depth path e := by
  induction hFinite with
  | @mk path name _ ih =>
      intro depth es e hListed he hName hDeep hDir below rest t args s hDepth hStart hClean hNext
      subst hName
      have hGood := (hClear depth path es hListed).good e he
      cases hLook : contents job w site depth path e with
      | error =>
          have hError := hLook
          unfold contents at hError
          rw [← hDepth] at hError
          apply lookup_error hStart hError
          intro s' hs' hSet
          apply hNext s' [] _ (by rw [List.append_nil]; exact hs') hSet
          left
          refine ⟨fun fs hOpens => ?_, rfl⟩
          have hBoth := hLook.symm.trans hOpens.2.2
          cases hBoth
      | result wasDirectory fs =>
          cases wasDirectory with
          | false => exact absurd hLook (hGood.isDir hDeep hDir fs)
          | true =>
              have hOpens : Opens job w site depth path e fs :=
                ⟨hDeep, typeIs_of_report hDir, hLook⟩
              have hBelow := Listed.inside hListed he hOpens
              have hResult := hLook
              unfold contents at hResult
              rw [← hDepth] at hResult
              have hInner := hClear _ _ _ hBelow
              apply lookup_result hStart hResult (by rw [hDepth]; exact hInner.excluded)
              intro s' gs files ind hDrop hPerm hs' hSame
              have hKept : ∀ e' ∈ gs, e' ∈ kept job (depth + 1 ≠ 0) fs := by
                intro e' he'
                have hMem := hPerm.mem_iff.mp he'
                simpa using hMem
              rw [hDepth] at hs'
              apply entries_lead (fun e' he' => hInner.good e' (hKept e' he')) _
                (by rw [List.length_cons, hDepth]) hs'
              · intro e' _ hFirst hSet
                rw [hSame, hClean hFirst] at hSet
                cases hSet
              · intro s'' u hu hs'' _
                apply leave hs''
                intro s₃ hs₃ hSet
                rw [hDrop, List.append_assoc, List.append_assoc] at hs₃
                apply hNext s₃ _ _ hs₃ hSet
                right
                exact ⟨fs, gs, u, hOpens, hPerm, hu, rfl⟩
              · intro e' he' hDeep' hDir'
                have hMem := hKept e' he'
                have hKeeps : job.keeps (decide (depth + 1 ≠ 0)) e'.info = true :=
                  (List.mem_filter.mp hMem).2
                have hDots : Job.isDots e'.info.name = false := by
                  unfold Job.keeps at hKeeps
                  simp at hKeeps
                  exact hKeeps.1
                intro _ _ _ _ _
                exact ih _ fs hLook e' (List.mem_filter.mp hMem).1 hDots
                  (typeIs_of_report hDir') hBelow hMem rfl hDeep' hDir'

end Steps

/-! ## The arguments -/

section Arguments

variable (job : Job) (w : Remote)

/-- The entries of an argument. -/
def argFound (arg : Bytes) : Found Entry :=
  if job.pretends then .result false [⟨Job.nameOnly (job.target arg).2, true⟩]
  else w.look (job.target arg).1 [] (job.target arg).2 true (job.need 0)

/-- The traversal of an argument. -/
def ArgWalk (arg : Bytes) (t : List Event) : Prop :=
  match argFound job w arg with
  | .error => t = []
  | .result _ es =>
    ∃ gs : List Entry, gs.Perm (kept job false es) ∧ Walk job w (job.target arg).1 0 [] gs t

/-- The tree below an argument is finite. -/
def ArgFinite (arg : Bytes) : Prop :=
  ∀ wasDirectory es, argFound job w arg = .result wasDirectory es → ∀ e ∈ es,
    e.info.typeIs .directory = true → Finite w (job.target arg).1 [] e.info.name

/-- All listings below an argument tell the job what it has to know. -/
def ArgClear (arg : Bytes) : Prop :=
  ∀ wasDirectory top, argFound job w arg = .result wasDirectory top →
    ∀ depth path es, Listed job w (job.target arg).1 top depth path es →
      Clear job w (job.target arg).1 depth path es

/-- Whether `depth_done` is set when an argument is done, from whether it was before. -/
def staleAfter (stale : Bool) (arg : Bytes) : Bool :=
  match argFound job w arg with
  | .error => true
  | .result _ es => stale && (kept job false es).isEmpty

/-- In depth-first order no argument with contents is met with `depth_done` set. -/
def NotStale : Bool → List Bytes → Prop
  | _, [] => True
  | stale, arg :: args =>
    (stale = true → job.depthFirst = true → ∀ wasDirectory es,
      argFound job w arg = .result wasDirectory es →
        ∀ e ∈ kept job false es, ∀ fs, ¬Opens job w (job.target arg).1 0 [] e fs)
    ∧ NotStale (staleAfter job w stale arg) args

/-- The job is done, with a traversal for each argument. -/
def Complete (args : List Bytes) (s : State) : Prop :=
  s.state = .done ∧ s.args = [] ∧
    ∃ ts : List (List Event), List.Forall₂ (ArgWalk job w) args ts ∧ s.trace = ts.flatten

/-- About to look up an argument. -/
structure AtArg (arg : Bytes) (args : List Bytes) (t : List Event) (s : State) : Prop where
  state : s.state = .startInfo
  dir : s.dir = arg
  stack : s.stack = []
  site : s.site = none
  cwd : s.cwd = []
  args : s.args = args
  trace : s.trace = t

/-- The argument is done: a call finishes it. -/
structure AtEnd (args : List Bytes) (t : List Event) (s : State) : Prop where
  act : ∀ i, job.act w s i = Job.finish { s with stack := [], state := .done }
  args : s.args = args
  trace : s.trace = t

end Arguments

section Complete

variable {job : Job} {w : Remote} {Q : State → Prop} {arg : Bytes} {args : List Bytes}
  {t : List Event} {s : State} {i : Input}

theorem toTarget_arg (h : AtArg arg args t s) : job.toTarget s
    = { s with site := (job.target arg).1, dir := (job.target arg).2 } := by
  have hOwn : (job.target arg).1 = none → (job.target arg).2 = arg := by
    unfold Job.target
    dsimp only
    split <;> simp
  unfold Job.toTarget
  rw [if_pos h.stack, h.dir]
  cases s with
  | mk =>
      cases h.dir
      cases h.site
      cases h.cwd
      rcases hTarget : job.target _ with ⟨site, path⟩
      rw [hTarget] at hOwn
      cases site with
      | some url => rfl
      | none =>
          have hPath := hOwn rfl
          dsimp only at hPath ⊢
          rw [hPath]

theorem act_arg (h : AtArg arg args t s) :
    job.act w s i =
      if job.pretends then
        { job.push [Job.nameOnly (job.target arg).2]
            { s with site := (job.target arg).1, dir := (job.target arg).2 } with state := .loop }
      else job.doInfo i { s with
        site := (job.target arg).1, dir := (job.target arg).2, state := .info
        li := some ((w.look (job.target arg).1 [] (job.target arg).2 true (job.need 0)).map
          (Entry.report (job.need 0))) } := by
  have hStart : job.act w s i = job.doStartInfo w i s := by simp [Job.act, h.state]
  rw [hStart]
  unfold Job.doStartInfo
  rw [toTarget_arg h]
  simp [h.stack, h.cwd]

/-- The entries of an argument that was found, from the first of them to the end. -/
theorem found_lead {es : List Entry} {wasDirectory : Bool}
    (hFound : argFound job w arg = .result wasDirectory es) (hFinite : ArgFinite job w arg)
    (hClear : ArgClear job w arg) {stale : Bool} (hNotStale : NotStale job w stale (arg :: args))
    {files : List FileInfo} (hFiles : files = job.processList
      ((es.map (Entry.report (job.need 0))).filter (job.keeps false)))
    (h : AtLoop (job.target arg).1 [] [] files t args s)
    (hStale : job.depthFirst = true → s.depthDone = stale)
    (hEnd : ∀ s' u, ArgWalk job w arg u → AtEnd job w args (t ++ u) s' →
      (job.depthFirst = true → s'.depthDone = staleAfter job w stale arg) → Goes job w Q s') :
    Goes job w Q s := by
  have hAll := hClear _ _ hFound
  have hTop := hAll 0 [] es .arg
  rcases exists_kept (d := false) hTop.excluded with ⟨gs, hPerm, hMap⟩
  have hKept : ∀ e ∈ gs, e ∈ kept job (decide (0 ≠ 0)) es := by
    intro e he
    simpa using hPerm.mem_iff.mp he
  rw [hFiles, ← hMap] at h
  apply entries_lead (fun e he => hTop.good e (hKept e he)) _ rfl h
  · intro e he hFirst hSet
    rw [hStale hFirst] at hSet
    have hMem : e ∈ gs := List.mem_of_mem_head? he
    exact hNotStale.1 hSet hFirst _ es hFound e (hPerm.mem_iff.mp hMem)
  · intro s' u hu hs' hDone
    apply hEnd s' u
    · unfold ArgWalk
      rw [hFound]
      exact ⟨gs, hPerm, hu⟩
    · rcases hs'.stack with ⟨files', ind', hStack, hDrop⟩
      have hCurr := curr_of_drop_nil (p := []) hDrop
      refine ⟨fun i => ?_, hs'.args, hs'.trace⟩
      simp [Job.act, hs'.state, Job.doLoop, Job.up, hStack, hCurr]
    · intro hFirst
      rw [hDone hFirst, hStale hFirst]
      unfold staleAfter
      rw [hFound]
      dsimp only
      rw [Bool.eq_iff_iff]
      simp [hPerm.isEmpty_eq]
  · intro e he hDeep hDir
    have hMem := hKept e he
    have hTree := hFinite _ _ hFound e (List.mem_filter.mp hMem).1 (typeIs_of_report hDir)
    intro _ _ _ _ _
    exact inside_lead hAll hTree .arg hMem rfl hDeep hDir

theorem act_info (h : s.state = .info) : job.act w s i = job.doInfo i s := by
  simp [Job.act, h]

theorem doInfo_arg {wasDirectory : Bool} {fs : List FileInfo} (hDone : i.liDone = true)
    (hStack : s.stack = []) (hLi : s.li = some (.result wasDirectory fs)) :
    job.doInfo i s = job.doLoop i { s with
      li := none, state := .loop
      stack := [⟨[], job.processList (fs.filter (job.keeps false)), 0⟩] } := by
  cases s with
  | mk =>
      cases hStack
      cases hLi
      simp [Job.doInfo, Job.push, hDone]

/-- One argument. -/
theorem arg_lead (h : AtArg arg args t s) (hFinite : ArgFinite job w arg)
    (hClear : ArgClear job w arg) {stale : Bool} (hNotStale : NotStale job w stale (arg :: args))
    (hStale : job.depthFirst = true → s.depthDone = stale)
    (hEnd : ∀ s' u, ArgWalk job w arg u → AtEnd job w args (t ++ u) s' →
      (job.depthFirst = true → s'.depthDone = staleAfter job w stale arg) → Goes job w Q s') :
    Goes job w Q s := by
  by_cases hPretends : job.pretends = true
  · -- the argument is taken as it is
    have hFound : argFound job w arg
        = .result false [⟨Job.nameOnly (job.target arg).2, true⟩] := if_pos hPretends
    have hLoop : Goes job w Q { job.push [Job.nameOnly (job.target arg).2]
        { s with site := (job.target arg).1, dir := (job.target arg).2 } with
          state := .loop } := by
      refine found_lead hFound hFinite hClear hNotStale rfl ?_ ?_ hEnd
      · refine ⟨⟨⟨job.processList ([Job.nameOnly (job.target arg).2].filter (job.keeps false)), 0,
          ?_, ?_⟩, h.trace, h.args, rfl⟩, rfl⟩
        · simp [Job.push, h.stack]
        · simp [Entry.report]
      · exact hStale
    apply hLoop.via
    intro i _
    right
    left
    rw [act_arg h, if_pos hPretends]
  · have hFound : argFound job w arg
        = w.look (job.target arg).1 [] (job.target arg).2 true (job.need 0) := if_neg hPretends
    have hAct : ∀ i, job.act w s i = job.doInfo i { s with
        site := (job.target arg).1, dir := (job.target arg).2, state := .info
        li := some ((argFound job w arg).map (Entry.report (job.need 0))) } := by
      intro i
      rw [act_arg h, if_neg hPretends, hFound]
    suffices hInfo : Goes job w Q { s with
        site := (job.target arg).1, dir := (job.target arg).2, state := .info
        li := some ((argFound job w arg).map (Entry.report (job.need 0))) } from
      hInfo.via fun i _ => .inr (.inr (hAct i))
    cases hOutcome : argFound job w arg with
    | error =>
        -- nothing on the stack: the next call goes up
        have hBack : Goes job w Q { s with
            site := (job.target arg).1, dir := (job.target arg).2, li := none,
            errors := s.errors + 1, depthDone := true, state := .loop } := by
          apply hEnd _ []
          · unfold ArgWalk
            rw [hOutcome]
          · refine ⟨fun i => ?_, h.args, ?_⟩
            · simp [Job.act, Job.doLoop, Job.up, h.stack]
            · rw [List.append_nil]
              exact h.trace
          · intro _
            unfold staleAfter
            rw [hOutcome]
        apply hBack.via
        intro i _
        by_cases hDone : i.liDone = true
        · right
          left
          simp [Job.act, Job.doInfo, Found.map, hDone]
        · exact .inl ⟨fun hAll => hDone hAll.1, by simp [Job.act, Job.doInfo, hDone]⟩
    | result wasDirectory es =>
        have hLoop : Goes job w Q { s with
            site := (job.target arg).1, dir := (job.target arg).2, li := none, state := .loop
            stack := [⟨[], job.processList ((es.map (Entry.report (job.need 0))).filter
              (job.keeps false)), 0⟩] } := by
          refine found_lead hOutcome hFinite hClear hNotStale rfl ?_ ?_ hEnd
          · exact ⟨⟨⟨_, 0, rfl, rfl⟩, h.trace, h.args, rfl⟩, rfl⟩
          · exact hStale
        apply hLoop.via
        intro i _
        by_cases hDone : i.liDone = true
        · right
          right
          rw [act_info rfl, doInfo_arg hDone (by exact h.stack) rfl]
          rfl
        · exact .inl ⟨fun hAll => hDone hAll.1, by simp [Job.act, Job.doInfo, hDone]⟩

/-- All arguments, one after another. -/
theorem args_lead {stale : Bool} {ts : List (List Event)} {before : List Bytes}
    (hBefore : List.Forall₂ (ArgWalk job w) before ts)
    (h : AtArg arg args ts.flatten s)
    (hFinite : ∀ a ∈ arg :: args, ArgFinite job w a)
    (hClear : ∀ a ∈ arg :: args, ArgClear job w a)
    (hNotStale : NotStale job w stale (arg :: args))
    (hStale : job.depthFirst = true → s.depthDone = stale) :
    Goes job w (Complete job w (before ++ arg :: args)) s := by
  induction args generalizing arg stale ts before s with
  | nil =>
      apply arg_lead h (hFinite arg List.mem_cons_self) (hClear arg List.mem_cons_self) hNotStale
        hStale
      intro s' u hu hs' _
      apply Leads.intro
      intro i _
      right
      left
      rw [hs'.act i]
      unfold Job.finish
      dsimp only
      rw [hs'.args]
      refine ⟨rfl, rfl, ts ++ [u], List.rel_append hBefore (.cons hu .nil), ?_⟩
      rw [List.flatten_append]
      simpa using hs'.trace
  | cons next args ih =>
      apply arg_lead h (hFinite arg List.mem_cons_self) (hClear arg List.mem_cons_self) hNotStale
        hStale
      intro s' u hu hs' hDone
      have hStart : AtArg next args (ts ++ [u]).flatten (Job.nextDir next
          { s' with stack := [], state := .done, args := args }) := by
        refine ⟨rfl, rfl, rfl, rfl, rfl, rfl, ?_⟩
        rw [List.flatten_append]
        show s'.trace = _
        simpa using hs'.trace
      have hRest := ih (List.rel_append hBefore (.cons hu .nil)) hStart
        (fun a ha => hFinite a (List.mem_cons_of_mem arg ha))
        (fun a ha => hClear a (List.mem_cons_of_mem arg ha)) hNotStale.2 hDone
      rw [List.append_assoc] at hRest
      apply hRest.via
      intro i _
      right
      left
      rw [hs'.act i]
      unfold Job.finish
      dsimp only
      rw [hs'.args]

theorem Walk.nested {site : Option Bytes} {depth : Nat} {path : Bytes} {es : List Entry}
    (h : Walk job w site depth path es t) : Nested t := by
  induction h with
  | nil => exact .nil
  | leaf _ _ ih => exact .item _ ih
  | @opened _ _ e _ _ _ s t _ _ _ _ ihIn ih =>
      have hBlock : Nested (.enter e.info.name :: s ++ [.exit] : List Event) := .block _ ihIn .nil
      unfold around
      split
      · exact (hBlock.append (.item _ .nil)).append ih
      · exact .item _ (hBlock.append ih)

theorem Complete.nested (h : Complete job w args s) : Nested s.trace := by
  rcases h with ⟨-, -, ts, hWalks, hTrace⟩
  rw [hTrace]
  apply Nested.flatten
  intro t ht
  rcases List.forall₂_iff_get.mp hWalks with ⟨hLength, hGet⟩
  rcases List.mem_iff_get.mp ht with ⟨⟨n, hn⟩, rfl⟩
  have hWalk := hGet n (hLength ▸ hn) hn
  unfold ArgWalk at hWalk
  split at hWalk
  · rw [hWalk]
    exact .nil
  · rcases hWalk with ⟨gs, -, hWalk⟩
    exact hWalk.nested

/-- `FinderJob_Du::MakeFileName` -/
def makeFileName (sizeStack : List Bytes) (n : Bytes) : Bytes :=
  match sizeStack with
  | [] => n
  | dir :: _ => dirFile dir n

/-- The directories of `size_stack`: `Enter` pushes and `Exit` pops; `none` when `Pop` fails its
assertion. -/
def sizeStack (t : List Event) : Option (List Bytes) := stackRun makeFileName [] t

/-- The job is done with all its arguments, and its traversal of each is complete; `du` has
popped what it pushed. -/
theorem finder_complete (job : Job) (w : Remote) (arg : Bytes) (args : List Bytes)
    (hFinite : ∀ a ∈ arg :: args, ArgFinite job w a)
    (hClear : ∀ a ∈ arg :: args, ArgClear job w a)
    (hNotStale : NotStale job w false (arg :: args)) (input : Nat → Input)
    (hFine : ∀ n, (input n).fine) (hAnswers : ∀ n, ∃ m, n ≤ m ∧ (input m).answers) :
    ∃ n, Complete job w (arg :: args) (stateAt (job.act w) (Job.start arg args) input n)
      ∧ Nested (stateAt (job.act w) (Job.start arg args) input n).trace
      ∧ sizeStack (stateAt (job.act w) (Job.start arg args) input n).trace = some [] := by
  have hStart : AtArg arg args [] (Job.start arg args) :=
    ⟨rfl, rfl, rfl, rfl, rfl, rfl, rfl⟩
  have hGoes : Goes job w (Complete job w (arg :: args)) (Job.start arg args) :=
    args_lead .nil hStart hFinite hClear hNotStale fun _ => rfl
  rcases hGoes.eventually hFine hAnswers (n := 0) rfl with ⟨n, -, hn⟩
  exact ⟨n, hn, hn.nested, hn.nested.stackRun_eq []⟩

end Complete

/-! ## A directory that is overlooked -/

/-- A job without options but for these. -/
def plainJob (need : Nat) (depthFirst : Bool) : Job :=
  { fileInfoNeed := need, validateArgs := true, depthFirst := depthFirst, maxdepth := -1,
    exclude := none, processList := id, processList_perm := fun _ => .refl _,
    names := ⟨fun _ => false, fun _ => false, fun _ => false, fun _ => false⟩,
    home := fun _ => [] }

def dirEntry (name : Bytes) : Entry := ⟨(Job.nameOnly name).setType .directory, false⟩

def fileEntry (name : Bytes) : Entry := ⟨(Job.nameOnly name).setType .normal, false⟩

/-- A directory `d` with a file `x`. Types are given when they are asked for. -/
def smallTree : Remote :=
  ⟨fun _ cwd dir showdir _ =>
    if showdir then .result true [dirEntry (bytes "d")]
    else if cwd = [] ∧ dir = bytes "d" then .result true [fileEntry (bytes "x")] else .error⟩

/-- All is there at once. -/
def readyInput : Input := ⟨true, .ok, true⟩

/-- The run of `find d` or the like. -/
def smallRun (need : Nat) (depthFirst : Bool) : Nat → State :=
  stateAt ((plainJob need depthFirst).act smallTree) (Job.start (bytes "d") []) fun _ => readyInput

section Small

variable {n : Nat} {depthFirst : Bool}

theorem target_small : (plainJob n depthFirst).target (bytes "d") = (none, bytes "d") := by
  rfl

theorem argFound_small :
    argFound (plainJob n depthFirst) smallTree (bytes "d")
      = .result true [dirEntry (bytes "d")] := by
  unfold argFound
  rw [if_neg (by simp [Job.pretends, plainJob])]
  rfl

theorem look_small {site : Option Bytes} {cwd dir : Bytes} {need : Nat} {es : List Entry} {b : Bool}
    (h : smallTree.look site cwd dir false need = .result b es) :
    b = true ∧ es = [fileEntry (bytes "x")] := by
  by_cases hDir : cwd = [] ∧ dir = bytes "d"
  · simp [smallTree, hDir] at h
    exact ⟨h.1, h.2.symm⟩
  · simp [smallTree, hDir] at h

theorem argFinite_small : ArgFinite (plainJob n depthFirst) smallTree (bytes "d") := by
  intro b es hFound e he hDir
  refine .mk fun need es hLook e he _ hDir => ?_
  rw [(look_small hLook).2, List.mem_singleton] at he
  rw [he] at hDir
  exact absurd hDir (by decide)

theorem fine_readyInput : readyInput.fine ∧ readyInput.answers :=
  ⟨PrfRes.noConfusion, rfl, PrfRes.noConfusion, rfl⟩

end Small

/-- `find d` asks for no types, and so does not see that `d` is a directory. -/
theorem find_overlooks :
    ArgFinite (plainJob 0 false) smallTree (bytes "d") ∧ readyInput.fine ∧ readyInput.answers ∧
      ∀ n, ¬Complete (plainJob 0 false) smallTree [bytes "d"] (smallRun 0 false n) := by
  refine ⟨argFinite_small, fine_readyInput.1, fine_readyInput.2, ?_⟩
  intro n hComplete
  have hDone : (smallRun 0 false 2).state = .done := by decide +kernel
  have hTrace : (smallRun 0 false 2).trace = [.item ([], bytes "d")] := by decide +kernel
  have hStays : ∀ m, smallRun 0 false (m + 2) = smallRun 0 false 2 := by
    intro m
    induction m with
    | zero => rfl
    | succ m ih =>
        show Job.act _ _ (smallRun 0 false (m + 2)) _ = _
        rw [ih]
        simp [Job.act, hDone]
  match n, hComplete with
  | 0, hComplete => exact absurd hComplete.1 (by decide +kernel)
  | 1, hComplete => exact absurd hComplete.1 (by decide +kernel)
  | m + 2, ⟨_, _, ts, hWalks, hEvents⟩ =>
      rw [hStays, hTrace] at hEvents
      cases hWalks with
      | @cons _ t _ ts hWalk hNone =>
          cases hNone
          unfold ArgWalk at hWalk
          rw [argFound_small, target_small] at hWalk
          rcases hWalk with ⟨gs, hPerm, hWalk⟩
          have hKept : kept (plainJob 0 false) false [dirEntry (bytes "d")]
              = [dirEntry (bytes "d")] := rfl
          rw [hKept, List.perm_singleton] at hPerm
          subst hPerm
          rw [List.flatten_cons, List.flatten_nil, List.append_nil] at hEvents
          subst hEvents
          cases hWalk with
          | leaf hLeaf =>
              exact hLeaf [fileEntry (bytes "x")] ⟨.inl rfl, rfl, rfl⟩

theorem finder_complete_small :
    ∃ n, Complete (plainJob FileSets.Defined.type true) smallTree [bytes "d"]
        (smallRun FileSets.Defined.type true n)
      ∧ Nested (smallRun FileSets.Defined.type true n).trace
      ∧ sizeStack (smallRun FileSets.Defined.type true n).trace = some [] := by
  refine finder_complete (plainJob FileSets.Defined.type true) smallTree (bytes "d") [] ?_ ?_ ?_
    (fun _ => readyInput) (fun _ => fine_readyInput.1)
    fun n => ⟨n, Nat.le_refl n, fine_readyInput.2⟩
  · intro a ha
    rw [List.mem_singleton.mp ha]
    exact argFinite_small
  · intro a ha
    rw [List.mem_singleton.mp ha]
    intro b top _ depth path es _
    have hReport : ∀ e : Entry,
        e.report ((plainJob FileSets.Defined.type true).need depth) = e.info := by
      intro e
      unfold Entry.report
      rw [if_pos]
      have hNeed : (plainJob FileSets.Defined.type true).need depth = 9 := by
        have hNot : ¬((depth : Int) < -1) := by omega
        unfold Job.need plainJob
        dsimp only
        rw [if_neg hNot]
        rfl
      rw [hNeed]
      rfl
    refine ⟨fun e _ => by rw [hReport], fun e _ => ⟨fun fs hOpens => ?_, fun _ _ fs hLook => ?_⟩⟩
    · rw [hReport]
      exact hOpens.2.1
    · have hFalse := (look_small hLook).1
      cases hFalse
  · exact ⟨fun h => absurd h Bool.false_ne_true, trivial⟩

end Lftp.Ports.FindJob
