import Lftp.Ports.FileSets
import Lftp.Ports.TorrentPath

/-!
# Sets in the default order

The functions of `FileSet` that add, remove and rename files, called one after the other on any
number of sets.

* `Sound`: the names increase, bisection finds the place of a name, and `Merge` makes the union,
  in the same way by either of its algorithms.
* `run_sound`: it is so as long as `PrependPath` puts its path before every name.

`dir_file` drops the `./` of a name and leaves one that begins with `/` alone, so the order of the
names can be another afterwards, and two of them may have become equal.
-/

namespace Lftp.Ports.SortedSets

open Lftp.Verified
open Lftp.Ports.FileSets hiding slash
open Lftp.Ports.TorrentPath (dirFile slash)

/-! ## The functions -/

/-- `FileSet()` -/
def fresh : FileSet := ⟨[], none, some .byName, 0⟩

/-- `Add`. No value is a file without a name. -/
def add (fs : FileSet) (fi : Option FileInfo) : Except Fault FileSet :=
  if fs.sorted.isSome then .error .assertion
  else match fi with
  | none => .ok fs
  | some fi => .ok { fs with
      files := Rows.mergeOne FileInfo.name FileInfo.merge fs.files fi }

/-- `Sub` -/
def sub (fs : FileSet) (i : Nat) : Except Fault FileSet :=
  if fs.sorted.isSome ∨ fs.files.length ≤ i then .error .assertion else .ok (fs.sub i)

def subtractByName (fs : FileSet) (name : Bytes) : Except Fault FileSet :=
  let pos := fs.findGEIndByName name
  match fs.files[pos]? with
  | none => .ok fs
  | some f => if strcmp f.name name ≠ .eq then .ok fs else sub fs pos

def excludeDots (fs : FileSet) : Except Fault FileSet :=
  fs.subtract fun f => f.name = bytes "." || f.name = bytes ".."

def excludeCompound (fs : FileSet) : Except Fault FileSet :=
  fs.subtract fun f =>
    let name := if f.name.take 3 = bytes "./~" then f.name.drop 3 else f.name
    name.contains slash

/-- `do_exclude_match`, where `x` is `MatchExclude`. -/
def doExcludeMatch (prefix_ : Bytes) (fi : FileInfo) (x : Bytes → Bool) : Bool :=
  let name := dirFile prefix_ fi.name
  x (if fi.typeIs .directory then name ++ [slash] else name)

/-- The loop of `Exclude`, with another set for what is excluded. -/
def excludeFrom (p : FileInfo → Bool) (fs : FileSet) (fsx : Option FileSet) (i : Nat) :
    Except Fault (FileSet × Option FileSet) :=
  if _h : i < fs.files.length then
    if p fs.files[i] then
      if fs.sorted.isSome then .error .assertion
      else match fsx with
      | none => excludeFrom p (fs.sub i) none i
      | some set => match add set (some fs.files[i]) with
        | .error e => .error e
        | .ok set => excludeFrom p (fs.sub i) (some set) i
    else excludeFrom p fs fsx (i + 1)
  else .ok (fs, fsx)
termination_by fs.files.length - i
decreasing_by
  · simp only [FileSet.sub, List.length_eraseIdx, if_pos _h]
    omega
  · simp only [FileSet.sub, List.length_eraseIdx, if_pos _h]
    omega
  · omega

/-- `SetName` -/
def setName (f : FileInfo) (name : Bytes) : FileInfo :=
  ({ f with name := name }).define Defined.name

def prependPath (fs : FileSet) (path : Bytes) : FileSet :=
  { fs with files := fs.files.map fun f => setName f (dirFile path f.name) }

/-! ## Calls -/

/-- Sets by number. -/
abbrev Pool := Nat → FileSet

/-- A function of a set. Other sets are given by their numbers. -/
inductive Op
  | new
  | copy (set : Option Nat)
  | empty
  | add (fi : Option FileInfo)
  | merge (set : Option Nat)
  | mergeInsert (set : Option Nat)
  | subtractSame (set : Option Nat) (ignore : Nat)
  | subtractAny (set : Option Nat)
  | subtractNotIn (set : Option Nat)
  | subtractSameType (set : Option Nat)
  | subtractDirsIn (set : Option Nat)
  | subtractNotOlderDirs (set : Option Nat)
  | subtractTimeCmp (cmp : FileInfo → Int → Bool) (t : Int)
  | subtractSizeOutside (r : Range)
  | subtractDirs
  | subtractNotDirs
  | subtractByName (name : Bytes)
  /-- Also `borrow_curr`, where the cursor is at `k`. -/
  | subtractCurr (k : Nat)
  | exclude (prefix_ : Bytes) (x : Option (Bytes → Bool)) (fsx : Option Nat)
  | excludeDots
  | excludeCompound
  | excludeUnaccessible (user : Option Bytes)
  | prependPath (path : Bytes)

/-- The function `op` called for the set `target`. -/
structure Call where
  target : Nat
  op : Op

variable (lib : Lib)

/-- What the function leaves in its own set. `Exclude` is not here. -/
def Op.result (pool : Pool) (fs : FileSet) : Op → Except Fault FileSet
  | .new => .ok fresh
  | .copy set => .ok (FileSet.ofSet (set.map pool))
  | .empty => fs.empty lib
  | .add fi => SortedSets.add fs fi
  | .merge set => fs.merge (set.map pool)
  | .mergeInsert set => .ok ((set.map pool).elim fs fs.mergeInsert)
  | .subtractSame set ignore => fs.subtractSame (set.map pool) ignore
  | .subtractAny set => fs.subtractAny (set.map pool)
  | .subtractNotIn set => fs.subtractNotIn lib (set.map pool)
  | .subtractSameType set => fs.subtractSameType (set.map pool)
  | .subtractDirsIn set => fs.subtractDirsIn (set.map pool)
  | .subtractNotOlderDirs set => fs.subtractNotOlderDirs (set.map pool)
  | .subtractTimeCmp cmp t => fs.subtractTimeCmp cmp t
  | .subtractSizeOutside r => fs.subtractSizeOutside r
  | .subtractDirs => fs.subtractDirs
  | .subtractNotDirs => fs.subtractNotDirs
  | .subtractByName name => SortedSets.subtractByName fs name
  | .subtractCurr k => sub fs k
  | .exclude _ _ _ => .ok fs
  | .excludeDots => SortedSets.excludeDots fs
  | .excludeCompound => SortedSets.excludeCompound fs
  | .excludeUnaccessible user => fs.excludeUnaccessible user
  | .prependPath path => .ok (SortedSets.prependPath fs path)

/-- `Exclude`. No value is a fault, or a loop without an end: the set may be its own `fsx`. -/
def excludeIn (pool : Pool) (i : Nat) (p : FileInfo → Bool) (fsx : Option Nat) : Option Pool :=
  if fsx = some i ∧ (pool i).files.any p then none
  else match excludeFrom p (pool i) (fsx.map pool) 0 with
  | .error _ => none
  | .ok (fs, set) =>
    let pool := match fsx, set with
      | some j, some set => Function.update pool j set
      | _, _ => pool
    some (Function.update pool i fs)

def step (pool : Pool) (c : Call) : Option Pool :=
  match c.op with
  | .exclude prefix_ (some x) fsx =>
    excludeIn pool c.target (fun f => doExcludeMatch prefix_ f x) fsx
  | op => match op.result lib pool (pool c.target) with
    | .error _ => none
    | .ok fs => some (Function.update pool c.target fs)

/-- `PrependPath` puts its path before every name. -/
def Call.Plain (pool : Pool) (c : Call) : Prop :=
  ∀ path, c.op = .prependPath path → path ≠ [] → ∀ f ∈ (pool c.target).files,
    f.name.head? ≠ some slash ∧ f.name.take 2 ≠ [ch '.', slash]

/-- The pools that calls lead to, if all are plain. -/
inductive Run : Pool → Prop
  | start : Run fun _ => fresh
  | call {pool pool' : Pool} {c : Call} (before : Run pool) (plain : c.Plain pool)
      (result : step lib pool c = some pool') : Run pool'

/-! ## What holds of the sets -/

/-- The set is in the default order. -/
structure Ordered (fs : FileSet) : Prop where
  unsorted : fs.sorted = none
  increasing : Rows.Increasing FileInfo.name fs.files

/-- `Merge` makes the union of two sets, by both algorithms. -/
def Unites (fs set : FileSet) : Prop :=
  ∃ r, fs.merge (some set) = .ok r
    ∧ Rows.Merged FileInfo.name FileInfo.merge fs.files (set.files.map FileInfo.copy) r.files
    ∧ (fs.mergeInsert set).files = r.files
    ∧ Rows.mergeRows FileInfo.name FileInfo.merge fs.files (set.files.map FileInfo.copy) = r.files

structure Sound (pool : Pool) : Prop where
  ordered : ∀ i, Ordered (pool i)
  found : ∀ i name, Rows.Position FileInfo.name (pool i).files name
    ((pool i).findGEIndByName name)
  united : ∀ i j, Unites (pool i) (pool j)

variable {fs set : FileSet} {pool : Pool}

theorem merge_key (f g : FileInfo) (_ : f.name = g.name) : (f.merge g).name = f.name :=
  FileSet.merge_name f g

theorem Ordered.lists (h : Ordered fs) : FileSet.Lists fs fs.files :=
  ⟨rfl, h.unsorted, h.increasing⟩

theorem Ordered.unites (h : Ordered fs) (h' : Ordered set) : Unites fs set := by
  have hKnown : FileSet.Known (some set) set.files := h'.lists
  obtain ⟨r, hMerge, hUnion⟩ := (FileSet.merge_merged h.lists hKnown).exists
  have hCopies := FileSet.increasing_map_copy h'.increasing
  exact ⟨r, hMerge, hUnion,
    (Rows.foldl_mergeOne_merged merge_key h.increasing hCopies).unique hUnion,
    (Rows.mergeRows_merged merge_key h.increasing hCopies).unique hUnion⟩

theorem sound_of_ordered (h : ∀ i, Ordered (pool i)) : Sound pool :=
  ⟨h, fun i name => Rows.lowerBound_position (h i).increasing name,
    fun i j => (h i).unites (h j)⟩

/-! ## What the functions do to the order -/

/-- Whatever the function leaves, it is in the default order. -/
def Keeps (x : Except Fault FileSet) : Prop := Yields (fun _ => True) Ordered x

theorem Ordered.sub (h : Ordered fs) (i : Nat) : Ordered (fs.sub i) :=
  ⟨h.unsorted, List.Pairwise.sublist (List.eraseIdx_sublist fs.files i) h.increasing⟩

theorem Ordered.subtractFrom (h : Ordered fs) (p : FileInfo → Except Fault Bool) (i : Nat) :
    Keeps (fs.subtractFrom p i) := by
  fun_induction FileSet.subtractFrom p fs i with
  | case1 => exact trivial
  | case2 fs i hlt hKeep ih => exact ih h
  | case3 => exact trivial
  | case4 fs i hlt hGo hNone ih => exact ih (h.sub i)
  | case5 fs i hge => exact h

theorem Ordered.subtract (h : Ordered fs) (p : FileInfo → Bool) : Keeps (fs.subtract p) :=
  h.subtractFrom _ 0

theorem Ordered.add (h : Ordered fs) (fi : Option FileInfo) : Keeps (SortedSets.add fs fi) := by
  unfold SortedSets.add
  rw [if_neg (by rw [h.unsorted]; decide)]
  cases fi with
  | none => exact h
  | some fi =>
      exact ⟨h.unsorted, (Rows.mergeOne_merged merge_key h.increasing fi).increasing⟩

theorem Ordered.sub_checked (h : Ordered fs) (i : Nat) : Keeps (SortedSets.sub fs i) := by
  unfold SortedSets.sub
  split_ifs
  · exact trivial
  · exact h.sub i

theorem Ordered.subtractByName (h : Ordered fs) (name : Bytes) :
    Keeps (SortedSets.subtractByName fs name) := by
  unfold SortedSets.subtractByName
  dsimp only
  split
  · exact h
  · split_ifs
    · exact h
    · exact h.sub_checked _

theorem Ordered.mergeInsert (h : Ordered fs) (h' : Ordered set) : Ordered (fs.mergeInsert set) :=
  ⟨h.unsorted, (Rows.foldl_mergeOne_merged merge_key h.increasing
    (FileSet.increasing_map_copy h'.increasing)).increasing⟩

theorem merge_sorted {o : Option FileSet} {r : FileSet} (h : fs.merge o = .ok r) :
    r.sorted = fs.sorted := by
  unfold FileSet.merge at h
  split_ifs at h
  split at h
  · cases h
    rfl
  · dsimp only at h
    split at h
    · cases h
      rfl
    · split_ifs at h
      · cases h
        rfl
      · cases h
        rfl

theorem Ordered.merge (h : Ordered fs) (h' : Ordered set) : Keeps (fs.merge (some set)) := by
  obtain ⟨r, hMerge, hUnion, -⟩ := h.unites h'
  rw [hMerge]
  exact ⟨(merge_sorted hMerge).trans h.unsorted, hUnion.increasing⟩

/-- A test against another set, which may not be there. -/
theorem Ordered.against (h : Ordered fs) {f : FileSet → Except Fault FileSet}
    (hf : ∀ set, Keeps (f set)) (o : Option FileSet) :
    Keeps (match o with
      | none => .ok fs
      | some set => f set) := by
  cases o with
  | none => exact h
  | some set => exact hf set

theorem keeps_empty (fs : FileSet) : Keeps (fs.empty lib) := by
  unfold FileSet.empty
  refine Yields.bind (Q := fun fs' => fs'.sorted = none) ?_ fun fs' hSorted =>
    ⟨hSorted, List.Pairwise.nil⟩
  unfold FileSet.unsort
  split
  · exact trivial
  · refine Yields.bind (Q := fun fs' => fs'.sorted = none) ?_
      fun fs' (hSorted : fs'.sorted = none) => hSorted
    split_ifs
    · unfold FileSet.unsortFlat
      have hAny : ∀ x : Except Fault (List FileInfo), Yields (fun _ => True) (fun _ => True) x :=
        fun x => by cases x <;> exact trivial
      exact Yields.bind (hAny _) fun files _ => rfl
    · exact rfl

theorem Ordered.excludeFrom (h : Ordered fs) {fsx : Option FileSet} (hx : ∀ set ∈ fsx, Ordered set)
    (p : FileInfo → Bool) (i : Nat) :
    Yields (fun _ => True) (fun r => Ordered r.1 ∧ ∀ set ∈ r.2, Ordered set)
      (excludeFrom p fs fsx i) := by
  fun_induction SortedSets.excludeFrom p fs fsx i with
  | case1 => exact trivial
  | case2 fs i hlt hMatch hNone ih => exact ih (h.sub i) hx
  | case3 => exact trivial
  | case4 fs i hlt hMatch hNone set set' hAdd ih =>
      refine ih (h.sub i) fun other hOther => ?_
      cases hOther
      have hKeeps := (hx set rfl).add (some fs.files[i])
      rw [hAdd] at hKeeps
      exact hKeeps
  | case5 fs fsx i hlt hMatch ih => exact ih h hx
  | case6 fs fsx i hge => exact ⟨h, hx⟩

/-! ### A path before the names -/

theorem compare_append_left (p s t : Bytes) : compare (p ++ s) (p ++ t) = compare s t := by
  induction p with
  | nil => rfl
  | cons c p ih =>
      show List.compareLex compare (c :: (p ++ s)) (c :: (p ++ t)) = _
      rw [List.compareLex_cons_cons, Std.ReflOrd.compare_self]
      exact ih

theorem compare_append_self {p s : Bytes} (h : s ≠ []) : compare p (p ++ s) = .lt := by
  have hAppend := compare_append_left p [] s
  rw [List.append_nil] at hAppend
  rw [hAppend]
  cases s with
  | nil => exact absurd rfl h
  | cons c s => rfl

/-- What `dir_file` makes of a name that is not changed itself. -/
theorem dirFile_plain {path : Bytes} (hPath : path ≠ []) : ∃ sep : Bytes, ∀ name : Bytes,
    name.head? ≠ some slash → name.take 2 ≠ [ch '.', slash] →
      dirFile path name = if name = [] then path else path ++ (sep ++ name) := by
  refine ⟨if path.getLast? = some slash then [] else [slash], fun name hAbsolute hDot => ?_⟩
  unfold dirFile
  rw [if_neg hPath]
  by_cases hNil : name = []
  · rw [if_pos hNil, if_pos hNil]
  · rw [if_neg hNil, if_neg hNil, if_neg hAbsolute]
    dsimp only
    rw [if_neg hDot]
    by_cases hLast : path.getLast? = some slash
    · rw [if_pos hLast, if_pos hLast]
      rfl
    · rw [if_neg hLast, if_neg hLast]
      rfl

theorem Ordered.prependPath (h : Ordered fs) {path : Bytes}
    (hPlain : path ≠ [] → ∀ f ∈ fs.files,
      f.name.head? ≠ some slash ∧ f.name.take 2 ≠ [ch '.', slash]) :
    Ordered (prependPath fs path) := by
  refine ⟨h.unsorted, List.pairwise_map.mpr ?_⟩
  by_cases hPath : path = []
  · subst hPath
    exact h.increasing
  · obtain ⟨sep, hName⟩ := dirFile_plain hPath
    refine h.increasing.imp_of_mem fun {f g} hf hg hLt => ?_
    have hf' := hPlain hPath f hf
    have hg' := hPlain hPath g hg
    show compare (dirFile path f.name) (dirFile path g.name) = .lt
    rw [hName _ hf'.1 hf'.2, hName _ hg'.1 hg'.2]
    have hLast : g.name ≠ [] := by
      intro hNil
      rw [hNil] at hLt
      cases hFirst : f.name <;> rw [hFirst] at hLt <;> cases hLt
    rw [if_neg hLast]
    by_cases hFirst : f.name = []
    · rw [if_pos hFirst]
      exact compare_append_self (by simp [hLast])
    · rw [if_neg hFirst, compare_append_left, compare_append_left]
      exact hLt

/-! ## Runs -/

theorem Ordered.result (hPool : ∀ i, Ordered (pool i)) {i : Nat} {op : Op}
    (hPlain : Call.Plain pool ⟨i, op⟩) : Keeps (op.result lib pool (pool i)) := by
  have h := hPool i
  cases op with
  | new => exact ⟨rfl, List.Pairwise.nil⟩
  | copy set =>
      cases set with
      | none => exact ⟨rfl, List.Pairwise.nil⟩
      | some j => exact ⟨rfl, FileSet.increasing_map_copy (hPool j).increasing⟩
  | empty => exact keeps_empty lib _
  | add fi => exact h.add fi
  | merge set =>
      cases set with
      | none =>
          show Keeps (if (pool i).sorted.isSome then _ else _)
          rw [if_neg (by rw [h.unsorted]; decide)]
          exact h
      | some j => exact h.merge (hPool j)
  | mergeInsert set =>
      cases set with
      | none => exact h
      | some j => exact h.mergeInsert (hPool j)
  | subtractSame set ignore => exact h.against (fun set => h.subtractFrom _ 0) _
  | subtractAny set => exact h.against (fun set => h.subtract _) _
  | subtractNotIn set =>
      cases set with
      | none => exact keeps_empty lib _
      | some j => exact h.subtract _
  | subtractSameType set => exact h.against (fun set => h.subtract _) _
  | subtractDirsIn set => exact h.against (fun set => h.subtract _) _
  | subtractNotOlderDirs set => exact h.against (fun set => h.subtract _) _
  | subtractTimeCmp cmp t => exact h.subtract _
  | subtractSizeOutside r => exact h.subtract _
  | subtractDirs => exact h.subtract _
  | subtractNotDirs => exact h.subtract _
  | subtractByName name => exact h.subtractByName name
  | subtractCurr k => exact h.sub_checked k
  | exclude prefix_ x fsx => exact h
  | excludeDots => exact h.subtract _
  | excludeCompound => exact h.subtract _
  | excludeUnaccessible user => exact h.subtract _
  | prependPath path => exact h.prependPath (hPlain path rfl)

theorem ordered_update (hPool : ∀ i, Ordered (pool i)) (i : Nat) (h : Ordered fs) (j : Nat) :
    Ordered (Function.update pool i fs j) := by
  by_cases hj : j = i
  · subst hj
    rw [Function.update_self]
    exact h
  · rw [Function.update_of_ne hj]
    exact hPool j

theorem ordered_exclude {pool' : Pool} {i : Nat} {p : FileInfo → Bool} {fsx : Option Nat}
    (hPool : ∀ i, Ordered (pool i)) (h : excludeIn pool i p fsx = some pool') :
    ∀ i, Ordered (pool' i) := by
  unfold excludeIn at h
  split_ifs at h
  have hx : ∀ set ∈ fsx.map pool, Ordered set := by
    intro set hSet
    obtain ⟨j, -, rfl⟩ := Option.mem_map.mp hSet
    exact hPool j
  have hLoop := (hPool i).excludeFrom hx p 0
  split at h
  · cases h
  · next fs set hRun =>
      rw [hRun] at hLoop
      cases h
      refine ordered_update ?_ i hLoop.1
      cases fsx with
      | none => exact hPool
      | some k =>
          cases set with
          | none => exact hPool
          | some set => exact ordered_update hPool k (hLoop.2 set rfl)

theorem ordered_step {pool' : Pool} {c : Call} (hPool : ∀ i, Ordered (pool i))
    (hPlain : c.Plain pool) (h : step lib pool c = some pool') : ∀ i, Ordered (pool' i) := by
  unfold step at h
  split at h
  · exact ordered_exclude hPool h
  · have hResult := Ordered.result lib hPool hPlain
    split at h
    · cases h
    · next fs hRun =>
        rw [hRun] at hResult
        cases h
        exact ordered_update hPool c.target hResult

def run (pool : Pool) (calls : List Call) : Option Pool := calls.foldlM (step lib) pool

/-- A file of which the name is known. -/
def fileNamed (name : Bytes) : FileInfo :=
  ⟨name, none, none, 0, ⟨noDate, 0⟩, 0, none, none, 0, .unknown, Defined.name, 0⟩

def noLib : Lib := ⟨fun _ l => l, fun _ l => l, fun _ _ => none⟩

def prepended (first second : Bytes) : List Call :=
  [⟨0, .add (some (fileNamed first))⟩, ⟨0, .add (some (fileNamed second))⟩,
    ⟨0, .prependPath (bytes "d")⟩]

/-- Sets stay in order, and `Merge` and the bisection do what they should, in every run in which
`PrependPath` puts its path before every name. -/
theorem run_sound (h : Run lib pool) : Sound pool := by
  apply sound_of_ordered
  induction h with
  | start => exact fun i => ⟨rfl, List.Pairwise.nil⟩
  | call before plain result ih => exact ordered_step lib ih plain result

theorem run_sound_prepended : ∃ pool,
    run noLib (fun _ => fresh) (prepended (bytes "b") (bytes "a")) = some pool ∧ Sound pool := by
  have hAdd : ∀ (pool : Pool) (i : Nat) (fi : Option FileInfo),
      Call.Plain pool ⟨i, .add fi⟩ := by
    rintro pool i fi path hEq
    cases hEq
  have hFirst : Run noLib _ :=
    .call (c := ⟨0, .add (some (fileNamed (bytes "b")))⟩) .start (hAdd _ _ _) rfl
  have hSecond : Run noLib _ :=
    .call (c := ⟨0, .add (some (fileNamed (bytes "a")))⟩) hFirst (hAdd _ _ _) rfl
  refine ⟨_, rfl, run_sound noLib
    (.call (c := ⟨0, .prependPath (bytes "d")⟩) hSecond ?_ rfl)⟩
  rintro path hEq -
  cases hEq
  decide +kernel

/-- `./~x` comes before `a`, but `d/~x` does not come before `d/a`, which is not found. -/
theorem not_run_sound : ∃ pool,
    run noLib (fun _ => fresh) (prepended (bytes "./~x") (bytes "a")) = some pool
      ∧ (pool 0).files.map FileInfo.name = [bytes "d/~x", bytes "d/a"]
      ∧ ((pool 0).findByName (bytes "d/a")).isNone ∧ ¬ Sound pool := by
  have hRun : (run noLib (fun _ => fresh) (prepended (bytes "./~x") (bytes "a"))).map
      (fun pool => ((pool 0).files.map FileInfo.name,
        ((pool 0).findByName (bytes "d/a")).isNone)) = some ([bytes "d/~x", bytes "d/a"], true) := by
    decide +kernel
  obtain ⟨pool, hPool, hEq⟩ := Option.map_eq_some_iff.mp hRun
  obtain ⟨hNames, hNone⟩ := Prod.mk.inj hEq
  refine ⟨pool, hPool, hNames, hNone, fun hSound => ?_⟩
  have hOrder : ((pool 0).files.map FileInfo.name).Pairwise (compare · · = .lt) :=
    List.pairwise_map.mpr (hSound.ordered 0).increasing
  rw [hNames] at hOrder
  have hLt := (List.pairwise_cons.mp hOrder).1 (bytes "d/a") List.mem_cons_self
  exact absurd hLt (by decide)

end Lftp.Ports.SortedSets
