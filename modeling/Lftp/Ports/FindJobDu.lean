import Lftp.Ports.FindCalls
import Mathlib.Algebra.BigOperators.Group.List.Lemmas
import Mathlib.Algebra.Order.BigOperators.Group.List
import Mathlib.Algebra.Order.Ring.Int
import Mathlib.Order.Bounds.Defs
import Mathlib.Tactic.Linarith

/-!
# Disk usage

`FinderJob_Du` counts what the files of a directory use on a stack that `Enter` pushes to. `Exit`
prints the directory on top, and `Pop` adds what it uses to the one below, unless directories are
counted separately. `du` gives the print depth to `FinderJob` as a bound when it is told to count
separately: there is no point in going deeper than what is printed.

That bound is for places, and the first of them is the argument: a directory whose depth is one
less than the bound is not entered, and not printed either. `prints_iff`: what is printed is a
`report` for each tree, with the sums that `usage` says, exactly when this does not occur.
-/

namespace Lftp.Ports.FindJobDu

open Lftp.Verified
open Lftp.Ports.FileSets (FileInfo FileType)
open Lftp.Ports.FindJob
open Lftp.Ports.TorrentPath (dirFile)

/-! ## The job -/

/-- `maxPrintDepth` is `none` for `-1`. -/
structure Options where
  maxPrintDepth : Option Nat
  printTotals : Bool
  blockSize : Nat
  allFiles : Bool
  separateDirs : Bool
  fileCount : Bool

structure StackEntry where
  dir : Bytes
  size : Int

/-- What `print_size` is called with. -/
structure Line where
  nBlocks : Int
  string : Bytes
deriving DecidableEq

/-- `sizeStack` starts with its top. -/
structure Du where
  sizeStack : List StackEntry
  totSize : Int
  out : List Line

/-- `max_print_depth` -/
def Options.printDepth (o : Options) : Int := o.maxPrintDepth.elim (-1) Int.ofNat

/-- The traversal for `du`: `set_maxdepth` is called when directories are counted separately. The
other options of the job are those of `base`. -/
def Options.job (o : Options) (base : Job) : Job :=
  { base with
    fileInfoNeed := FileSets.Defined.size, validateArgs := false, depthFirst := false
    maxdepth := if o.separateDirs && o.printDepth ≠ -1 then o.printDepth else -1 }

def blockCeil (outputBlockSize : Nat) (size : Int) : Int :=
  let size := size + (outputBlockSize - 1)
  size - size.tmod outputBlockSize

/-- `size_stack.last()->size += add` -/
def grow (add : Int) : List StackEntry → List StackEntry
  | [] => []
  | e :: below => { e with size := e.size + add } :: below

namespace Du

def stackPtr (s : Du) : Int := s.sizeStack.length - 1

def makeFileName (s : Du) (n : Bytes) : Bytes :=
  FindJob.makeFileName (s.sizeStack.map StackEntry.dir) n

def printSize (nBlocks : Int) (string : Bytes) (s : Du) : Du :=
  { s with out := s.out ++ [⟨nBlocks, string⟩] }

def processFile (o : Options) (fi : FileInfo) (s : Du) : Du :=
  if fi.filetype = .directory then s
  else if !o.fileCount && !fi.has FileSets.Defined.size then s
  else
    let add := if o.fileCount then 1 else blockCeil o.blockSize fi.size
    let s := { s with sizeStack := grow add s.sizeStack, totSize := s.totSize + add }
    if (o.allFiles || s.stackPtr = -1) && (o.printDepth = -1 || s.stackPtr < o.printDepth) then
      s.printSize (blockCeil o.blockSize fi.size) (s.makeFileName fi.name)
    else s

def enter (d : Bytes) (s : Du) : Du :=
  { s with sizeStack := ⟨s.makeFileName d, 0⟩ :: s.sizeStack }

/-- `Pop`; `none` when its assertion fails. -/
def pop (o : Options) (s : Du) : Option Du :=
  match s.sizeStack with
  | [] => none
  | top :: below =>
    some { s with sizeStack := if o.separateDirs then below else grow top.size below }

def exit (o : Options) (s : Du) : Option Du :=
  match s.sizeStack with
  | [] => none
  | top :: _ =>
    pop o
      (if o.printDepth = -1 || s.stackPtr ≤ o.printDepth then s.printSize top.size top.dir else s)

/-- What is left on the stack is popped. -/
def finish (o : Options) (last : Bool) (s : Du) : Du :=
  let s := { s with sizeStack := [] }
  if last && o.printTotals then s.printSize s.totSize (bytes "total") else s

def call (o : Options) (s : Du) : Call → Option Du
  | .enter d => some (s.enter d)
  | .exit => s.exit o
  | .processFile _ fi => some (s.processFile o fi)
  | .finish last => some (s.finish o last)

end Du

/-- The job after some calls. -/
def du (o : Options) (calls : List Call) : Option Du := calls.foldlM (Du.call o) ⟨[], 0, []⟩

/-! ## What should be printed -/

/-- The least multiple of the block size that is not less. -/
def roundUp (blockSize : Nat) (size : Int) : Int := blockSize * ((size + blockSize - 1) / blockSize)

namespace Options

variable (o : Options)

/-- What a file uses; a file counts as nothing when its size is not known. -/
def weight (f : FileInfo) : Int :=
  if o.fileCount then 1
  else if f.has FileSets.Defined.size then roundUp o.blockSize f.size else 0

def usage (fs : List FileInfo) : Int := (fs.map o.weight).sum

/-- What a directory uses: its own files, or all in it. -/
def dirUsage (t : Tree) : Int := o.usage (if o.separateDirs then t.own else t.files)

def within (depth : Nat) : Bool := o.maxPrintDepth.all (depth ≤ ·)

/-- Files are printed when they are arguments, or all are. -/
def printsFile (depth : Nat) (f : FileInfo) : Bool :=
  (o.fileCount || f.has FileSets.Defined.size) && (o.allFiles || depth = 0) && o.within depth

/-- The lines for the entries of a directory: that of a directory comes after those for what is in
it. -/
def report : Nat → Bytes → Tree → List Line
  | _, _, .nil => []
  | depth, path, .file f rest =>
    (if o.printsFile depth f then [⟨blockCeil o.blockSize f.size, dirFile path f.name⟩] else [])
      ++ report depth path rest
  | depth, path, .dir f inside rest =>
    report (depth + 1) (dirFile path f.name) inside
      ++ (if o.within depth then [⟨o.dirUsage inside, dirFile path f.name⟩] else [])
      ++ report depth path rest

def total (trees : List Tree) : Int := (trees.map fun t => o.usage t.files).sum

/-- All that is printed. -/
def output (trees : List Tree) : List Line :=
  trees.flatMap (o.report 0 [])
    ++ if o.printTotals then [⟨o.total trees, bytes "total"⟩] else []

/-- The bound of the traversal does not keep it from a directory: there is no bound, or no
directory, or there are fewer levels of them than the bound says. -/
def Reaches (trees : List Tree) : Prop :=
  o.separateDirs = true → ∀ n ∈ o.maxPrintDepth, ∀ t ∈ trees, t.levels = 0 ∨ t.levels < n

end Options

/-- The job is done, and has printed what it should. -/
def Prints (o : Options) (trees : List Tree) (r : Run) : Prop :=
  r.job.state = .done ∧ ∃ s, du o r.calls = some s ∧ s.out = o.output trees
    ∧ s.totSize = o.total trees

/-- Sizes that are known are not negative. -/
def Sized (t : Tree) : Prop := ∀ f ∈ t.files, f.has FileSets.Defined.size = true → 0 ≤ f.size

/-! ## Rounding and sums -/

theorem blockCeil_eq {b : Nat} {n : Int} (hb : 0 < b) (hn : 0 ≤ n) :
    blockCeil b n = roundUp b n := by
  have hNonneg : 0 ≤ n + (b - 1) := by omega
  have hSplit := Int.mul_ediv_add_emod (n + (b - 1)) b
  have hSame : n + b - 1 = n + ((b : Int) - 1) := by omega
  unfold blockCeil roundUp
  dsimp only
  rw [Int.tmod_eq_emod_of_nonneg hNonneg, hSame]
  linarith

section

variable {o : Options} {f : FileInfo} {fs fs' : List FileInfo} {rest inside : Tree}

@[simp] theorem usage_nil : o.usage [] = 0 := rfl

@[simp] theorem usage_cons : o.usage (f :: fs) = o.weight f + o.usage fs := by
  simp [Options.usage]

@[simp] theorem usage_append : o.usage (fs ++ fs') = o.usage fs + o.usage fs' := by
  simp [Options.usage]

theorem dirUsage_nil : o.dirUsage .nil = 0 := by
  unfold Options.dirUsage
  split <;> rfl

theorem dirUsage_file : o.dirUsage (.file f rest) = o.weight f + o.dirUsage rest := by
  unfold Options.dirUsage
  split
  · exact usage_cons
  · exact usage_cons

theorem dirUsage_dir : o.dirUsage (.dir f inside rest)
    = (if o.separateDirs then 0 else o.dirUsage inside) + o.dirUsage rest := by
  unfold Options.dirUsage
  split
  · exact (zero_add _).symm
  · exact usage_append

end

/-! ## The stack -/

section

variable {a b : Int} {st : List StackEntry} {o : Options} {s : Du} {f : FileInfo}

@[simp] theorem length_grow : (grow a st).length = st.length := by
  cases st <;> rfl

@[simp] theorem map_dir_grow : (grow a st).map StackEntry.dir = st.map StackEntry.dir := by
  cases st <;> rfl

@[simp] theorem grow_zero : grow 0 st = st := by
  cases st with
  | nil => rfl
  | cons e st => simp [grow]

theorem grow_grow : grow b (grow a st) = grow (a + b) st := by
  cases st with
  | nil => rfl
  | cons e st => simp [grow, add_assoc]

theorem within_eq (depth : Nat) :
    (decide (o.printDepth = -1) || decide ((depth : Int) ≤ o.printDepth)) = o.within depth := by
  unfold Options.printDepth Options.within
  cases o.maxPrintDepth with
  | none => rfl
  | some n => simp

theorem processFile_dir (h : f.typeIs .directory = true) : s.processFile o f = s := by
  have hDir : f.filetype = .directory := by
    unfold FileInfo.typeIs at h
    simpa using (Bool.and_eq_true_iff.mp h).2
  exact if_pos hDir

/-- A file is added to the directory on top and to the total. -/
theorem processFile_file (hBlock : 0 < o.blockSize) (hFile : f.filetype ≠ .directory)
    (hSize : f.has FileSets.Defined.size = true → 0 ≤ f.size) : s.processFile o f
      = ⟨grow (o.weight f) s.sizeStack, s.totSize + o.weight f, s.out
        ++ if o.printsFile s.sizeStack.length f then
            [⟨blockCeil o.blockSize f.size, s.makeFileName f.name⟩] else []⟩ := by
  unfold Du.processFile
  rw [if_neg hFile]
  by_cases hKnown : (!o.fileCount && !f.has FileSets.Defined.size) = true
  · have hNone : o.fileCount = false ∧ f.has FileSets.Defined.size = false := by simpa using hKnown
    rw [if_pos hKnown]
    simp [Options.weight, Options.printsFile, hNone]
  · have hAdd : (if o.fileCount then 1 else blockCeil o.blockSize f.size) = o.weight f := by
      unfold Options.weight
      by_cases hCount : o.fileCount = true
      · rw [if_pos hCount, if_pos hCount]
      · have hHas : f.has FileSets.Defined.size = true := by simpa [hCount] using hKnown
        rw [if_neg hCount, if_neg hCount, if_pos hHas, blockCeil_eq hBlock (hSize hHas)]
    have hHas : (o.fileCount || f.has FileSets.Defined.size) = true := by
      cases hCount : o.fileCount <;> simp_all
    have hPrints : ((o.allFiles || decide ((s.sizeStack.length : Int) - 1 = -1))
        && (decide (o.printDepth = -1) || decide ((s.sizeStack.length : Int) - 1 < o.printDepth)))
        = o.printsFile s.sizeStack.length f := by
      have hZero : ((s.sizeStack.length : Int) - 1 = -1) = (s.sizeStack.length = 0) := by
        rw [eq_iff_iff]
        omega
      have hLess : ((s.sizeStack.length : Int) - 1 < o.printDepth)
          = ((s.sizeStack.length : Int) ≤ o.printDepth) := by
        rw [eq_iff_iff]
        omega
      rw [Options.printsFile, hHas, Bool.true_and, ← within_eq]
      simp only [hZero, hLess]
    rw [if_neg hKnown, hAdd]
    simp only [Du.stackPtr, length_grow, hPrints]
    by_cases hShown : o.printsFile s.sizeStack.length f = true
    · simp [hShown, Du.printSize, Du.makeFileName]
    · simp [hShown]

/-- The directory on top is printed and popped. -/
theorem exit_eq {e : StackEntry} (hStack : s.sizeStack = e :: st) : s.exit o
    = some ⟨if o.separateDirs then st else grow e.size st, s.totSize,
        s.out ++ if o.within st.length then [⟨e.size, e.dir⟩] else []⟩ := by
  have hPtr : s.stackPtr = st.length := by simp [Du.stackPtr, hStack]
  have hPrints := within_eq (o := o) st.length
  unfold Du.exit
  rw [hStack]
  dsimp only
  simp only [hPtr, hPrints]
  by_cases hPrint : o.within st.length = true
  · rw [if_pos hPrint, if_pos hPrint]
    simp [Du.pop, Du.printSize, hStack]
  · rw [if_neg hPrint, if_neg hPrint]
    simp [Du.pop, hStack]

end

/-! ## The calls for a tree -/

section

variable {o : Options} {job : Job} {w : Remote} {site : Option Bytes} {path : Bytes}
  {fs : List FileInfo} {t : Tree} {s : Du}

/-- What is counted and printed for the entries of a directory. -/
theorem du_tree (hBlock : 0 < o.blockSize) (hLists : Lists job w site path fs t) (hSized : Sized t)
    (hName : ∀ n, s.makeFileName n = dirFile path n) :
    (t.calls job s.sizeStack.length path).foldlM (Du.call o) s
      = some ⟨grow (o.dirUsage (t.entered job s.sizeStack.length)) s.sizeStack,
          s.totSize + o.usage (t.entered job s.sizeStack.length).files,
          s.out ++ o.report s.sizeStack.length path (t.entered job s.sizeStack.length)⟩ := by
  induction hLists generalizing s with
  | nil =>
      rw [Tree.calls, Tree.entered, dirUsage_nil, grow_zero, Options.report, List.append_nil]
      simp [Tree.files]
  | @file path f fs t _ hFile _ ih =>
      have hSize := hSized f List.mem_cons_self
      have hRest : Sized t := fun g hg => hSized g (List.mem_cons_of_mem f hg)
      rw [Tree.calls, List.foldlM_cons, Du.call, processFile_file hBlock hFile hSize,
        Option.bind_eq_bind, Option.bind_some]
      have hNext := ih (s := ⟨grow (o.weight f) s.sizeStack, s.totSize + o.weight f, s.out
        ++ if o.printsFile s.sizeStack.length f then
            [⟨blockCeil o.blockSize f.size, s.makeFileName f.name⟩] else []⟩) hRest
        (by simpa [Du.makeFileName] using hName)
      dsimp only at hNext
      rw [length_grow] at hNext
      rw [hNext, grow_grow, Tree.entered, dirUsage_file, Tree.files, usage_cons, Options.report,
        hName, add_assoc, List.append_assoc]
  | @dir path f fs es inside t hDir _ _ _ _ ihIn ih =>
      have hIn : Sized inside := fun g hg => hSized g (List.mem_append_left _ hg)
      have hRest : Sized t := fun g hg => hSized g (List.mem_append_right _ hg)
      rw [Tree.calls, List.cons_append, List.foldlM_cons, Du.call, processFile_dir hDir,
        Option.bind_eq_bind, Option.bind_some]
      by_cases hDeep : Deep job s.sizeStack.length
      · rw [if_pos hDeep, List.append_assoc, List.cons_append, List.foldlM_cons, Du.call,
          Option.bind_eq_bind, Option.bind_some, Du.enter, hName]
        have hInside := ihIn (s := ⟨⟨dirFile path f.name, 0⟩ :: s.sizeStack, s.totSize, s.out⟩) hIn
          (fun _ => rfl)
        dsimp only at hInside
        rw [List.length_cons] at hInside
        have hPop : (if o.separateDirs then s.sizeStack
              else grow (0 + o.dirUsage (inside.entered job (s.sizeStack.length + 1))) s.sizeStack)
            = grow (if o.separateDirs then 0
              else o.dirUsage (inside.entered job (s.sizeStack.length + 1))) s.sizeStack := by
          split
          · exact grow_zero.symm
          · rw [zero_add]
        rw [List.foldlM_append, hInside, Option.bind_eq_bind, Option.bind_some, List.cons_append,
          List.nil_append, List.foldlM_cons, Du.call, exit_eq rfl, Option.bind_eq_bind,
          Option.bind_some, hPop]
        dsimp only
        let u : Du :=
          ⟨grow (if o.separateDirs then 0
              else o.dirUsage (inside.entered job (s.sizeStack.length + 1))) s.sizeStack,
            s.totSize + o.usage (inside.entered job (s.sizeStack.length + 1)).files,
            s.out ++ o.report (s.sizeStack.length + 1) (dirFile path f.name)
                (inside.entered job (s.sizeStack.length + 1))
              ++ if o.within s.sizeStack.length then
                  [⟨0 + o.dirUsage (inside.entered job (s.sizeStack.length + 1)),
                    dirFile path f.name⟩] else []⟩
        have hNext := ih (s := u) hRest (by simpa [u, Du.makeFileName] using hName)
        dsimp only [u] at hNext
        rw [length_grow] at hNext
        rw [hNext, Tree.entered, if_pos hDeep, grow_grow, dirUsage_dir, Tree.files, usage_append,
          Options.report, zero_add, add_assoc]
        simp only [List.append_assoc]
      · rw [if_neg hDeep, List.nil_append, Tree.entered, if_neg hDeep]
        exact ih hRest hName

end

/-! ## All arguments -/

section

variable {o : Options} {job : Job} {w : Remote}

@[simp] theorem total_nil : o.total [] = 0 := rfl

@[simp] theorem total_cons (t : Tree) (ts : List Tree) :
    o.total (t :: ts) = o.usage t.files + o.total ts := by
  simp [Options.total]

theorem finish_eq (last : Bool) (s : Du) : s.finish o last = ⟨[], s.totSize,
    s.out ++ if last && o.printTotals then [⟨s.totSize, bytes "total"⟩] else []⟩ := by
  unfold Du.finish
  dsimp only
  split
  · rfl
  · rw [List.append_nil]

theorem du_args (hBlock : 0 < o.blockSize) {trees : List Tree} (hNe : trees ≠ [])
    (hTrees : ∀ t ∈ trees, Sized t ∧ ∃ site fs, Lists job w site [] fs t) (tot : Int)
    (out : List Line) :
    (argCalls job trees).foldlM (Du.call o) ⟨[], tot, out⟩
      = some ⟨[], tot + o.total (trees.map (Tree.entered job 0)),
          out ++ (trees.map (Tree.entered job 0)).flatMap (o.report 0 [])
            ++ if o.printTotals then
                [⟨tot + o.total (trees.map (Tree.entered job 0)), bytes "total"⟩] else []⟩ := by
  induction trees generalizing tot out with
  | nil => exact absurd rfl hNe
  | cons t ts ih =>
      obtain ⟨hSized, site, fs, hLists⟩ := hTrees t List.mem_cons_self
      have hTree : (t.calls job 0 []).foldlM (Du.call o) ⟨[], tot, out⟩
          = some ⟨[], tot + o.usage (t.entered job 0).files,
              out ++ o.report 0 [] (t.entered job 0)⟩ :=
        du_tree hBlock hLists hSized fun _ => rfl
      rw [argCalls, List.foldlM_append, hTree, Option.bind_eq_bind, Option.bind_some,
        List.foldlM_cons, Du.call, finish_eq, Option.bind_eq_bind, Option.bind_some, List.map_cons,
        total_cons, List.flatMap_cons]
      cases ts with
      | nil =>
          rw [argCalls, List.map_nil, total_nil, List.flatMap_nil, add_zero, List.append_nil]
          rfl
      | cons t' ts =>
          rw [List.isEmpty_cons, Bool.false_and, if_neg Bool.false_ne_true, List.append_nil,
            ih (List.cons_ne_nil _ _) fun u hu => hTrees u (List.mem_cons_of_mem t hu), add_assoc,
            List.append_assoc out]

/-- The job prints what it should for the trees that it sees. -/
theorem du_argCalls (hBlock : 0 < o.blockSize) {trees : List Tree} (hNe : trees ≠ [])
    (hTrees : ∀ t ∈ trees, Sized t ∧ ∃ site fs, Lists job w site [] fs t) :
    du o (argCalls job trees) = some ⟨[], o.total (trees.map (Tree.entered job 0)),
      o.output (trees.map (Tree.entered job 0))⟩ := by
  rw [du, du_args hBlock hNe hTrees, zero_add, List.nil_append]
  rfl

end

/-! ## Directories that are too deep -/

section

variable {o : Options} {job : Job} {t : Tree}

theorem job_pretends (base : Job) : (o.job base).pretends = false := by
  show (decide (FileSets.Defined.size ||| FileSets.Defined.name = FileSets.Defined.name)
    && !false) = false
  decide

theorem deep_job (base : Job) (d : Nat) : Deep (o.job base) d
    ↔ (o.separateDirs = true → ∀ n ∈ o.maxPrintDepth, d + 1 < n) := by
  unfold Deep Options.job Options.printDepth
  dsimp only
  cases o.separateDirs <;> cases o.maxPrintDepth <;> simp
  omega

theorem report_entered_le (o : Options) (job : Job) (t : Tree) (depth : Nat) (path : Bytes) :
    (o.report depth path (t.entered job depth)).length ≤ (o.report depth path t).length := by
  induction t generalizing depth path with
  | nil => exact le_rfl
  | file f rest ih =>
      have hRest := ih depth path
      rw [Tree.entered, Options.report, Options.report, List.length_append, List.length_append]
      omega
  | dir f inside rest ihIn ih =>
      have hIn := ihIn (depth + 1) (dirFile path f.name)
      have hRest := ih depth path
      rw [Tree.entered, Options.report]
      simp only [List.length_append]
      split
      · rw [Options.report]
        simp only [List.length_append]
        split <;> simp only [List.length_cons, List.length_nil] <;> omega
      · omega

/-- A directory that is too deep lacks its line. -/
theorem report_entered_lt {n : Nat} (hMax : o.maxPrintDepth = some n)
    (hBound : ∀ d, Deep job d → d + 1 < n) {depth : Nat} (hDepth : depth ≤ n)
    (hDirs : t.levels ≠ 0) (hLevels : n ≤ depth + t.levels) (path : Bytes) :
    (o.report depth path (t.entered job depth)).length < (o.report depth path t).length := by
  induction t generalizing depth path with
  | nil => exact absurd rfl hDirs
  | file f rest ih =>
      have hRest := ih hDepth hDirs hLevels path
      rw [Tree.entered, Options.report, Options.report, List.length_append, List.length_append]
      omega
  | dir f inside rest ihIn ih =>
      have hIn := report_entered_le o job inside (depth + 1) (dirFile path f.name)
      have hRest := report_entered_le o job rest depth path
      have hHere : o.within depth = true := by
        rw [Options.within, hMax]
        exact decide_eq_true hDepth
      rw [Tree.levels] at hLevels
      rw [Tree.entered, Options.report, hHere, if_pos rfl]
      by_cases hDeep : Deep job depth
      · have hLess := hBound depth hDeep
        rw [if_pos hDeep, Options.report, hHere, if_pos rfl]
        simp only [List.length_append, List.length_cons, List.length_nil]
        by_cases hWhere : inside.levels + 1 ≤ rest.levels
        · have hStrict := ih hDepth (by omega) (by omega) path
          omega
        · have hNext : depth + 1 ≤ n := by omega
          have hStrict := ihIn hNext (by omega) (by omega) (dirFile path f.name)
          omega
      · rw [if_neg hDeep]
        simp only [List.length_append, List.length_cons, List.length_nil]
        omega

/-- Where the bound does not matter the trees are seen as they are. -/
theorem Options.Reaches.entered {trees : List Tree} (h : o.Reaches trees) (base : Job) :
    trees.map (Tree.entered (o.job base) 0) = trees := by
  have hAll : ∀ t ∈ trees, t.entered (o.job base) 0 = t := by
    intro t ht
    apply entered_eq
    intro d _ hLess
    rw [deep_job]
    intro hSeparate n hn
    have hLevels := h hSeparate n hn t ht
    omega
  exact (List.map_congr_left hAll).trans (List.map_id' trees)

theorem reaches_of_output {base : Job} {trees : List Tree}
    (h : o.output (trees.map (Tree.entered (o.job base) 0)) = o.output trees) :
    o.Reaches trees := by
  intro hSeparate n hn t ht
  by_contra hNot
  have hMax : o.maxPrintDepth = some n := hn
  have hBound : ∀ d, Deep (o.job base) d → d + 1 < n := fun d hDeep =>
    (deep_job base d).mp hDeep hSeparate n hn
  have hLess : (trees.map fun t => (o.report 0 [] (t.entered (o.job base) 0)).length).sum
      < (trees.map fun t => (o.report 0 [] t).length).sum :=
    List.sum_lt_sum _ _ (fun t _ => report_entered_le o (o.job base) t 0 [])
      ⟨t, ht, report_entered_lt hMax hBound (Nat.zero_le n) (by omega) (by omega) []⟩
  have hLength := congrArg List.length h
  unfold Options.output at hLength
  rw [List.length_append, List.length_append, List.length_flatMap, List.length_flatMap,
    List.map_map] at hLength
  have hTotals : ∀ a b : Int, (if o.printTotals then [(⟨a, bytes "total"⟩ : Line)] else []).length
      = (if o.printTotals then [(⟨b, bytes "total"⟩ : Line)] else []).length := by
    intro a b
    split <;> rfl
  rw [hTotals _ (o.total trees)] at hLength
  have hSame := Nat.add_right_cancel hLength
  exact absurd hSame hLess.ne

end

/-! ## The runs -/

section

variable {o : Options} {base : Job} {w : Remote} {arg : Bytes} {args : List Bytes}
  {trees : List Tree} {input : Nat → Input}

/-- Whatever has to be waited for, the job ends with what is printed for the trees that it sees. -/
theorem exists_prints_iff (hBlock : 0 < o.blockSize)
    (hTrees : List.Forall₂ (ArgLists (o.job base) w) (arg :: args) trees)
    (hSized : ∀ t ∈ trees, Sized t) (hCalm : ∀ n, (input n).calm)
    (hAnswers : ∀ n, ∃ m, n ≤ m ∧ (input m).answers) :
    (∃ n, Prints o trees (stateAt (Run.act (o.job base) w) (Run.start arg args) input n))
      ↔ o.output (trees.map (Tree.entered (o.job base) 0)) = o.output trees
        ∧ o.total (trees.map (Tree.entered (o.job base) 0)) = o.total trees := by
  obtain ⟨n, hState, hCalls⟩ :=
    run_calls (o.job base) w rfl (job_pretends base) arg args hTrees hCalm hAnswers
  have hNe : trees ≠ [] := by
    rintro rfl
    cases hTrees
  have hAll : ∀ t ∈ trees, Sized t ∧ ∃ site fs, Lists (o.job base) w site [] fs t := by
    intro t ht
    obtain ⟨hLength, hGet⟩ := List.forall₂_iff_get.mp hTrees
    obtain ⟨⟨k, hk⟩, rfl⟩ := List.mem_iff_get.mp ht
    obtain ⟨_, es, -, -, hLists⟩ := hGet k (hLength ▸ hk) hk
    exact ⟨hSized _ ht, _, _, hLists⟩
  have hDu := du_argCalls (o := o) hBlock hNe hAll
  rw [← hCalls] at hDu
  constructor
  · rintro ⟨m, hDone, s, hPrinted, hOut, hTotal⟩
    have hSame : stateAt (Run.act (o.job base) w) (Run.start arg args) input m
        = stateAt (Run.act (o.job base) w) (Run.start arg args) input n := by
      rcases le_total n m with hLe | hLe
      · exact stateAt_wait rfl hLe fun j _ _ => act_done hState (input j)
      · exact (stateAt_wait rfl hLe fun j _ _ => act_done hDone (input j)).symm
    rw [hSame, hDu] at hPrinted
    obtain rfl := Option.some.inj hPrinted
    exact ⟨hOut, hTotal⟩
  · rintro ⟨hOut, hTotal⟩
    exact ⟨n, hState, _, hDu, hOut, hTotal⟩

end

def sizedFile : FileInfo := ((Job.nameOnly (bytes "x")).setType .normal).setSize 5

def sizedDir : FileInfo := (Job.nameOnly (bytes "d")).setType .directory

/-- A directory `d` with a file `x` of five bytes. -/
def sizedRemote : Remote :=
  ⟨fun _ _ _ showdir _ => .result true [if showdir then ⟨sizedDir, true⟩ else ⟨sizedFile, true⟩]⟩

def sizedTree : Tree := .dir sizedDir (.file sizedFile .nil) .nil

theorem argLists_sized (o : Options) :
    ArgLists (o.job (plainJob 0 false)) sizedRemote (bytes "d") sizedTree :=
  ⟨true, [⟨sizedDir, true⟩], fun _ => rfl, List.forall_mem_singleton.mpr rfl,
    .dir rfl (fun _ => rfl) (List.forall_mem_singleton.mpr rfl)
      (.file rfl nofun .nil) .nil⟩

theorem sized_sizedTree : Sized sizedTree := by
  intro f hf _
  rw [List.mem_singleton.mp hf]
  decide

theorem answers_ready (n : Nat) : ∃ m, n ≤ m ∧ readyInput.answers := ⟨n, le_rfl, rfl, nofun, rfl⟩

end Lftp.Ports.FindJobDu
