import Lftp.Verified.Decimal
import Lftp.Verified.Outcome
import Lftp.Verified.Rows
import Mathlib.Data.List.DropRight

/-!
# Sets of files

`FileSet` keeps its files in the order of their names, and `FindByName` searches it by
bisection. `Listed` is that order; under it the set is known from what is found in it, and
the functions that subtract from a set are filters.

A copy of a set does not have its `sort_mode`: that field stays as it was allocated, and so
reading it is a fault here, like the other things that C++ leaves undefined.
-/

namespace Lftp.Ports.FileSets

open Lftp.Verified

/-- What must not happen. -/
inductive Fault
  | assertion
  | nullSet
  | nullString
  | uninitialised
  deriving DecidableEq

/-! ## Files -/

inductive FileType
  | unknown
  | directory
  | symlink
  | normal
  | redirect
  deriving DecidableEq

structure FileTimestamp where
  ts : Int
  tsPrec : Int

def noDate : Int := -1

namespace Defined

def name : Nat := 0o1
def mode : Nat := 0o2
def date : Nat := 0o4
def type : Nat := 0o10
def symlinkDef : Nat := 0o20
def size : Nat := 0o100
def user : Nat := 0o200
def group : Nat := 0o400
def nlinks : Nat := 0o1000
def ignoreSizeIfOlder : Nat := 0o2000
def ignoreDateIfOlder : Nat := 0o4000

end Defined

structure FileInfo where
  name : Bytes
  longname : Option Bytes
  symlink : Option Bytes
  mode : Nat
  date : FileTimestamp
  size : Int
  user : Option Bytes
  group : Option Bytes
  nlinks : Int
  filetype : FileType
  defined : Nat
  rank : Int

def slash : UInt8 := 47

/-- `basename_ptr` -/
def basenamePtr (s : Bytes) : Bytes :=
  let r := s.rdropWhile (· = slash)
  s.drop (r.length - (r.rtakeWhile (· ≠ slash)).length)

/-- `strcmp` of C strings; the sign alone matters. -/
def strcmp (s₁ s₂ : Bytes) : Ordering := compare s₁ s₂

/-- `strcmp(s1,s2)==0` of pointers. -/
def strcmpEq : Option Bytes → Option Bytes → Except Fault Bool
  | some s₁, some s₂ => .ok (s₁ = s₂)
  | _, _ => .error .nullString

/-- A bit of a mask. -/
def bit (mask m : Nat) : Bool := mask &&& m ≠ 0

namespace FileInfo

def has (f : FileInfo) (m : Nat) : Bool := bit f.defined m

def typeIs (f : FileInfo) (t : FileType) : Bool := f.has Defined.type && f.filetype = t

/-- The copy constructor. -/
def copy (f : FileInfo) : FileInfo := { f with rank := 0 }

/-- `def` -/
def define (f : FileInfo) (m : Nat) : FileInfo := { f with defined := f.defined ||| m }

def setMode (f : FileInfo) (m : Nat) : FileInfo := ({ f with mode := m }).define Defined.mode

def setDate (f : FileInfo) (t prec : Int) : FileInfo :=
  ({ f with date := ⟨t, prec⟩ }).define Defined.date

def setSize (f : FileInfo) (s : Int) : FileInfo := ({ f with size := s }).define Defined.size

def setType (f : FileInfo) (t : FileType) : FileInfo := ({ f with filetype := t }).define Defined.type

def setSymlink (f : FileInfo) (s : Option Bytes) : FileInfo :=
  ({ f with symlink := s, filetype := .symlink }).define (Defined.type ||| Defined.symlinkDef)

def setUser (f : FileInfo) (u : Option Bytes) : FileInfo :=
  if u = f.user then f else ({ f with user := u }).define Defined.user

def setGroup (f : FileInfo) (g : Option Bytes) : FileInfo :=
  if g = f.group then f else ({ f with group := g }).define Defined.group

def setNlink (f : FileInfo) (n : Int) : FileInfo := ({ f with nlinks := n }).define Defined.nlinks

/-- The mode is compared with the file types, and `SYMLINK` is tested as a bit: it is that of
the mode. -/
def mergeInfo (f g : FileInfo) (dif : Nat) : FileInfo :=
  let dif := dif &&& g.defined
  let f := if bit dif Defined.mode then
      let f := f.setMode g.mode
      if f.mode ≠ 2 ∧ f.mode ≠ 4 then { f with symlink := none } else f
    else f
  let f := if bit dif Defined.date || f.has Defined.date && g.has Defined.date
      && g.date.tsPrec < f.date.tsPrec then f.setDate g.date.ts g.date.tsPrec else f
  let f := if bit dif Defined.size then f.setSize g.size else f
  let f := if bit dif Defined.type then f.setType g.filetype else f
  let f := if bit dif 2 then f.setSymlink g.symlink else f
  let f := if bit dif Defined.user then f.setUser g.user else f
  let f := if bit dif Defined.group then f.setGroup g.group else f
  if bit dif Defined.nlinks then f.setNlink g.nlinks else f

def merge (f g : FileInfo) : FileInfo :=
  if strcmp (basenamePtr f.name) (basenamePtr g.name) ≠ .eq then f
  else f.mergeInfo g (f.defined ^^^ 0xffffffff)

/-- The dates differ by more than the precision, and the mask does not say to ignore it. -/
def dateDiffers (f fi : FileInfo) (ignore : Nat) : Bool :=
  f.has Defined.date && fi.has Defined.date && !bit ignore Defined.date
    && !(bit ignore Defined.ignoreDateIfOlder && f.date.ts < fi.date.ts)
    && max f.date.tsPrec fi.date.tsPrec < (f.date.ts - fi.date.ts).natAbs

def sizeDiffers (f fi : FileInfo) (ignore : Nat) : Bool :=
  f.has Defined.size && fi.has Defined.size && !bit ignore Defined.size
    && !(bit ignore Defined.ignoreSizeIfOlder && f.has Defined.date && fi.has Defined.date
      && f.date.ts < fi.date.ts)
    && f.size ≠ fi.size

def sameAs (f fi : FileInfo) (ignore : Nat) : Except Fault Bool :=
  if f.has Defined.name && fi.has Defined.name && strcmp f.name fi.name ≠ .eq then .ok false
  else if f.has Defined.type && fi.has Defined.type && f.filetype ≠ fi.filetype then .ok false
  else if f.typeIs .directory || fi.typeIs .directory then .ok false
  else if f.has Defined.symlinkDef && fi.has Defined.symlinkDef then strcmpEq f.symlink fi.symlink
  else .ok (!f.dateDiffers fi ignore && !f.sizeDiffers fi ignore)

def notOlderThan (f : FileInfo) (t : Int) : Bool := f.has Defined.date && t ≤ f.date.ts

def notNewerThan (f : FileInfo) (t : Int) : Bool := f.has Defined.date && f.date.ts ≤ t

end FileInfo

/-- `Range` -/
structure Range where
  n1 : Option Int
  n2 : Option Int

/-- `Range::Match` -/
def Range.matches (r : Range) (n : Int) : Bool :=
  r.n1.all (fun n1 => n1 ≤ n) && r.n2.all fun n2 => n ≤ n2

def FileInfo.sizeOutside (f : FileInfo) (r : Range) : Bool :=
  f.has Defined.size && !r.matches f.size

/-! ## Sets -/

inductive SortMode
  | byName
  | bySize
  | dirsFirst
  | byRank
  | byDate
  | byNameFlat
  deriving DecidableEq

/-- What is used of the C library. -/
structure Lib where
  qsortFiles : (FileInfo → FileInfo → Ordering) → List FileInfo → List FileInfo
  qsortInd : (Nat → Nat → Ordering) → List Nat → List Nat
  /-- Whether `fnmatch` found a match; no value is an error. -/
  fnmatch : Bytes → Bytes → Option Bool

structure FileSet where
  files : List FileInfo
  /-- No value is a null buffer. -/
  sorted : Option (List Nat)
  /-- No value is a field that was never set. -/
  sortMode : Option SortMode
  ind : Nat

namespace FileSet

/-- `FileSet(const FileSet *)` -/
def ofSet : Option FileSet → FileSet
  | none => ⟨[], none, none, 0⟩
  | some set => ⟨set.files.map FileInfo.copy, none, none, set.ind⟩

/-- `Sub`, where the set is not sorted. -/
def sub (fs : FileSet) (i : Nat) : FileSet :=
  { fs with
    files := fs.files.eraseIdx i
    ind := if i < fs.ind then fs.ind - 1 else fs.ind }

def findGEIndByName (fs : FileSet) (name : Bytes) : Nat :=
  Rows.lowerBound FileInfo.name fs.files name

def findByName (fs : FileSet) (name : Bytes) : Option FileInfo :=
  (fs.files[fs.findGEIndByName name]?).filter fun f => strcmp f.name name = .eq

/-- The loop of the functions that subtract. -/
def subtractFrom (p : FileInfo → Except Fault Bool) (fs : FileSet) (i : Nat) :
    Except Fault FileSet :=
  if _h : i < fs.files.length then
    match p fs.files[i] with
    | .error e => .error e
    | .ok false => subtractFrom p fs (i + 1)
    | .ok true => if fs.sorted.isSome then .error .assertion else subtractFrom p (fs.sub i) i
  else .ok fs
termination_by fs.files.length - i
decreasing_by
  · omega
  · simp only [sub, List.length_eraseIdx, if_pos _h]
    omega

def subtract (p : FileInfo → Bool) (fs : FileSet) : Except Fault FileSet :=
  fs.subtractFrom (fun f => .ok (p f)) 0

/-- What one file of the set says of the file with the same name in another. -/
def against (set : FileSet) (p : FileInfo → FileInfo → Bool) (file : FileInfo) : Bool :=
  (set.findByName file.name).any (p file)

def subtractSame (fs : FileSet) (set : Option FileSet) (ignore : Nat) : Except Fault FileSet :=
  match set with
  | none => .ok fs
  | some set => fs.subtractFrom (fun file => match set.findByName file.name with
    | some f => file.sameAs f ignore
    | none => .ok false) 0

def subtractAny (fs : FileSet) (set : Option FileSet) : Except Fault FileSet :=
  match set with
  | none => .ok fs
  | some set => fs.subtract (set.against fun _ _ => true)

def subtractSameType (fs : FileSet) (set : Option FileSet) : Except Fault FileSet :=
  match set with
  | none => .ok fs
  | some set => fs.subtract (set.against fun file f =>
      file.has Defined.type && f.has Defined.type && file.filetype = f.filetype)

/-- `SubtractDirs(const FileSet *)` -/
def subtractDirsIn (fs : FileSet) (set : Option FileSet) : Except Fault FileSet :=
  match set with
  | none => .ok fs
  | some set => fs.subtract (fun file => file.typeIs .directory
      && set.against (fun _ f => f.typeIs .directory) file)

def subtractNotOlderDirs (fs : FileSet) (set : Option FileSet) : Except Fault FileSet :=
  match set with
  | none => .ok fs
  | some set => fs.subtract (fun file => file.typeIs .directory && file.has Defined.date
      && set.against (fun file f => f.typeIs .directory && f.notOlderThan file.date.ts) file)

/-- A file that is known to be no regular file is not tested. -/
def maybeNormal (file : FileInfo) : Bool :=
  !(file.has Defined.type && file.filetype ≠ .normal)

def subtractTimeCmp (fs : FileSet) (cmp : FileInfo → Int → Bool) (t : Int) :
    Except Fault FileSet :=
  fs.subtract fun file => maybeNormal file && cmp file t

def subtractSizeOutside (fs : FileSet) (r : Range) : Except Fault FileSet :=
  fs.subtract fun file => maybeNormal file && file.sizeOutside r

def subtractDirs (fs : FileSet) : Except Fault FileSet := fs.subtract (·.typeIs .directory)

def subtractNotDirs (fs : FileSet) : Except Fault FileSet :=
  fs.subtract fun file => !file.typeIs .directory

/-- What the bits of the mode forbid to `user`. -/
def unaccessible (user : Option Bytes) (file : FileInfo) : Bool :=
  let mask := if user.isSome && file.has Defined.user then
      if file.user = user then 0o400 else 0o044
    else 0o444
  file.has Defined.mode && file.has Defined.type
    && (file.typeIs .normal && file.mode &&& mask = 0
      || file.typeIs .directory && file.mode &&& mask &&& (file.mode <<< 2) = 0)

def excludeUnaccessible (fs : FileSet) (user : Option Bytes) : Except Fault FileSet :=
  fs.subtract (unaccessible user)

/-- `UnsortFlat` -/
def unsortFlat (lib : Lib) (fs : FileSet) : Except Fault FileSet := do
  let files ← fs.files.mapM fun f => match f.longname with
    | some longname => .ok { f with name := longname, longname := none }
    | none => .error Fault.assertion
  .ok { fs with files := lib.qsortFiles (fun f g => strcmp f.name g.name) files }

/-- `Unsort` -/
def unsort (lib : Lib) (fs : FileSet) : Except Fault FileSet :=
  match fs.sortMode with
  | none => .error .uninitialised
  | some sortMode => do
    let fs := { fs with sorted := none }
    let fs ← (if sortMode = .byNameFlat then fs.unsortFlat lib else .ok fs)
    .ok { fs with sortMode := some .byName }

/-- `Empty` -/
def empty (lib : Lib) (fs : FileSet) : Except Fault FileSet := do
  let fs ← fs.unsort lib
  .ok { fs with files := [], ind := 0 }

def subtractNotIn (lib : Lib) (fs : FileSet) (set : Option FileSet) : Except Fault FileSet :=
  match set with
  | none => fs.empty lib
  | some set => fs.subtract fun file => !set.against (fun _ _ => true) file

/-- `Merge_insert` -/
def mergeInsert (fs set : FileSet) : FileSet :=
  let merged := (set.files.map FileInfo.copy).foldl
    (Rows.mergeOne FileInfo.name FileInfo.merge) fs.files
  { fs with files := merged }

/-- `Merge` -/
def merge (fs : FileSet) (set : Option FileSet) : Except Fault FileSet :=
  if fs.sorted.isSome then .error .assertion
  else match set with
  | none => .ok fs
  | some set => match set.files with
    | [] => .ok fs
    | first :: _ =>
      let pos := fs.findGEIndByName first.name
      if fs.files.length - pos < fs.files.length * 2 / set.files.length then
        .ok (fs.mergeInsert set)
      else
        let merged := Rows.mergeRows FileInfo.name FileInfo.merge fs.files
          (set.files.map FileInfo.copy)
        .ok { fs with files := merged }

/-! ## Sorting -/

/-- `strcasecmp` -/
def strcasecmp (s₁ s₂ : Bytes) : Ordering :=
  let lower (c : UInt8) : UInt8 := if 65 ≤ c ∧ c ≤ 90 then c + 32 else c
  strcmp (s₁.map lower) (s₂.map lower)

/-- The functions that `Sort` sorts with. -/
def sortCmp (mode : SortMode) (casefold reverse : Bool) (p₁ p₂ : FileInfo) : Ordering :=
  let rev (o : Ordering) : Ordering := if reverse then o.swap else o
  let name := rev (if casefold then strcasecmp p₁.name p₂.name else strcmp p₁.name p₂.name)
  match mode with
  | .byName | .byNameFlat => name
  | .bySize => rev (compare p₂.size p₁.size)
  | .dirsFirst =>
    if p₁.filetype = .directory ∧ p₂.filetype ≠ .directory then rev .lt
    else if p₁.filetype ≠ .directory ∧ p₂.filetype = .directory then rev .gt
    else .eq
  | .byRank => if p₁.rank = p₂.rank then name else rev (compare p₁.rank p₂.rank)
  | .byDate => if p₁.date.ts = p₂.date.ts then name else rev (compare p₂.date.ts p₁.date.ts)

/-- The indexes of the files whose name has not come before. -/
def firstIndexes (files : List FileInfo) : List Nat :=
  (List.range files.length).filter fun i =>
    (files.take i).all fun f => f.name ≠ ((files[i]?.map FileInfo.name).getD [])

/-- `Sort` -/
def sort (lib : Lib) (fs : FileSet) (newsort : SortMode) (casefold reverse : Bool) :
    Except Fault FileSet :=
  if newsort = .byName ∧ !casefold ∧ !reverse then fs.unsort lib
  else do
    let flat ← (if newsort = .byNameFlat then
        match fs.sortMode with
        | none => .error Fault.uninitialised
        | some sortMode => .ok (sortMode ≠ .byNameFlat : Bool)
      else .ok false)
    let files := if flat then
        lib.qsortFiles (fun f g => strcmp f.name g.name)
          (fs.files.map fun f => { f with longname := some f.name, name := basenamePtr f.name })
      else fs.files
    let indexes := if flat then firstIndexes files else List.range files.length
    let sorted := if indexes = [] then fs.sorted.map fun _ => [] else some indexes
    let cmp (i j : Nat) : Ordering := match files[i]?, files[j]? with
      | some p₁, some p₂ => sortCmp newsort casefold reverse p₁ p₂
      | _, _ => .eq
    .ok { fs with
      files := files, sorted := sorted.map (lib.qsortInd cmp), sortMode := some newsort }

/-- `ReverseSort` -/
def reverseSort (lib : Lib) (fs : FileSet) : Except Fault FileSet :=
  match fs.sorted with
  | none => fs.sort lib .byName false true
  | some sorted => .ok { fs with sorted := some sorted.reverse }

/-- `!fnmatch_dir(pattern,file)` -/
def fnmatchDir (lib : Lib) (pattern : Bytes) (file : FileInfo) : Bool :=
  let inverted : Bool := pattern.head? = some 33
  let pattern := if inverted || pattern.take 2 = [92, 33] then pattern.drop 1 else pattern
  let name := if file.typeIs .directory then file.name ++ [slash] else file.name
  (lib.fnmatch pattern name).any fun found => found ≠ inverted

def maxRank : Int := 1000000

/-- `SortByPatternList` -/
def sortByPatternList (lib : Lib) (fs : FileSet) (list : Bytes) : Except Fault FileSet :=
  let patterns := (list.splitOn 32).filter (· ≠ [])
  let ranked := patterns.zipIdx.foldl (fun files (p, rank) => files.map fun (f : FileInfo) =>
    if f.rank = maxRank ∧ fnmatchDir lib p f then { f with rank := rank } else f)
    (fs.files.map fun f => { f with rank := maxRank })
  { fs with files := ranked }.sort lib .byRank false false

/-- The number of files of the types that `Count` is asked for. -/
def count (fs : FileSet) (types : List FileType) : Nat :=
  fs.files.countP fun f => f.filetype ∈ types

/-! ## What the functions do -/

/-- The file of the list with the name. -/
def named (l : List FileInfo) (name : Bytes) : Option FileInfo := Rows.lookup FileInfo.name l name

/-- The set consists of the files `l`, in the order of their names. -/
structure Lists (fs : FileSet) (l : List FileInfo) : Prop where
  files : fs.files = l
  unsorted : fs.sorted = none
  increasing : Rows.Increasing FileInfo.name l

/-- Whether another set does not know of a file. -/
def absent (l : List FileInfo) (file : FileInfo) : Bool := (named l file.name).isNone

variable {fs set : FileSet} {l l' : List FileInfo}

theorem Lists.findByName (h : Lists fs l) (name : Bytes) : fs.findByName name = named l name := by
  have hPos := Rows.lowerBound_position h.increasing name
  have hPlace := Rows.lookup_place h.increasing hPos
  unfold FileSet.findByName findGEIndByName named strcmp
  rw [h.files, hPlace]
  congr 1

theorem Lists.against (h : Lists set l) (p : FileInfo → FileInfo → Bool) (file : FileInfo) :
    set.against p file = (named l file.name).any (p file) := by
  unfold FileSet.against
  rw [h.findByName]

/-- A file of the list is the one with its name, if it is still there. -/
theorem named_filter (h : Rows.Increasing FileInfo.name l) {f : FileInfo} (hf : f ∈ l)
    (p : FileInfo → Bool) : named (l.filter p) f.name = if p f then some f else none := by
  unfold named
  rw [Rows.lookup_filter h, Rows.lookup_mem h hf, Option.filter_some]

theorem named_copy (l : List FileInfo) (name : Bytes) :
    named (l.map FileInfo.copy) name = (named l name).map FileInfo.copy :=
  List.find?_map

theorem increasing_map_copy (h : Rows.Increasing FileInfo.name l) :
    Rows.Increasing FileInfo.name (l.map FileInfo.copy) :=
  List.pairwise_map.mpr h

theorem Lists.copy (h : Lists fs l) : Lists (ofSet (some fs)) (l.map FileInfo.copy) :=
  ⟨congrArg _ h.files, rfl, increasing_map_copy h.increasing⟩

/-- The loop keeps the files before it, and removes those that the test names. -/
theorem subtractFrom_files {p : FileInfo → Except Fault Bool} {q : FileInfo → Bool} {i : Nat}
    (hSorted : fs.sorted = none) (hp : ∀ f ∈ fs.files.drop i, p f = .ok (q f)) :
    Yields Never (fun r => r.files = fs.files.take i ++ (fs.files.drop i).filter (fun f => !q f)
      ∧ r.sorted = none) (fs.subtractFrom p i) := by
  fun_induction subtractFrom p fs i with
  | case1 fs i hlt e hError =>
      have hHead := hp fs.files[i] (by
        rw [List.drop_eq_getElem_cons hlt]
        exact List.mem_cons_self)
      rw [hError] at hHead
      cases hHead
  | case2 fs i hlt hKeep ih =>
      have hDrop := List.drop_eq_getElem_cons hlt
      have hHead := hp fs.files[i] (by rw [hDrop]; exact List.mem_cons_self)
      rw [hKeep] at hHead
      have hFalse : q fs.files[i] = false := (Except.ok.inj hHead).symm
      refine (ih hSorted fun f hf => hp f ?_).imp fun r hr => ?_
      · rw [hDrop]
        exact List.mem_cons_of_mem _ hf
      · refine ⟨?_, hr.2⟩
        rw [hr.1, hDrop, List.filter_cons_of_pos (by rw [hFalse]; rfl),
          List.take_succ_eq_append_getElem hlt, List.append_assoc]
        rfl
  | case3 fs i hlt hGo hSome =>
      rw [hSorted] at hSome
      cases hSome
  | case4 fs i hlt hGo hNone ih =>
      have hDrop := List.drop_eq_getElem_cons hlt
      have hHead := hp fs.files[i] (by rw [hDrop]; exact List.mem_cons_self)
      rw [hGo] at hHead
      have hTrue : q fs.files[i] = true := (Except.ok.inj hHead).symm
      have hFiles : (fs.sub i).files = fs.files.take i ++ fs.files.drop (i + 1) :=
        List.eraseIdx_eq_take_drop_succ fs.files i
      have hTake : (fs.sub i).files.take i = fs.files.take i := by
        rw [hFiles, List.take_left' (by rw [List.length_take]; omega)]
      have hRest : (fs.sub i).files.drop i = fs.files.drop (i + 1) := by
        rw [hFiles, List.drop_left' (by rw [List.length_take]; omega)]
      refine (ih hSorted fun f hf => hp f ?_).imp fun r hr => ?_
      · rw [hRest] at hf
        rw [hDrop]
        exact List.mem_cons_of_mem _ hf
      · refine ⟨?_, hr.2⟩
        rw [hr.1, hTake, hRest, hDrop, List.filter_cons_of_neg (by rw [hTrue]; decide)]
  | case5 fs i hge =>
      refine ⟨?_, hSorted⟩
      rw [List.drop_eq_nil_of_le (by omega), List.take_of_length_le (by omega)]
      simp

/-- Where the loop comes to an end, no test was a fault. -/
theorem subtractFrom_tested {p : FileInfo → Except Fault Bool} {i : Nat} {r : FileSet}
    (h : fs.subtractFrom p i = .ok r) : ∀ f ∈ fs.files.drop i, ∃ b, p f = .ok b := by
  fun_induction subtractFrom p fs i with
  | case1 => cases h
  | case2 fs i hlt hKeep ih =>
      intro f hf
      rw [List.drop_eq_getElem_cons hlt] at hf
      rcases List.mem_cons.mp hf with hHead | hTail
      · exact ⟨false, by rw [hHead]; exact hKeep⟩
      · exact ih h f hTail
  | case3 => cases h
  | case4 fs i hlt hGo hNone ih =>
      intro f hf
      rw [List.drop_eq_getElem_cons hlt] at hf
      rcases List.mem_cons.mp hf with hHead | hTail
      · exact ⟨true, by rw [hHead]; exact hGo⟩
      · apply ih h f
        show f ∈ (fs.files.eraseIdx i).drop i
        rw [List.eraseIdx_eq_take_drop_succ, List.drop_left' (by rw [List.length_take]; omega)]
        exact hTail
  | case5 fs i hge =>
      intro f hf
      rw [List.drop_eq_nil_of_le (by omega)] at hf
      cases hf

theorem subtract_lists (h : Lists fs l) (q : FileInfo → Bool) :
    Yields Never (Lists · (l.filter fun f => !q f)) (fs.subtract q) := by
  have hLoop := subtractFrom_files (p := fun f => .ok (q f)) (i := 0) h.unsorted
    (fun f _ => rfl)
  refine hLoop.imp fun r hr => ?_
  rw [h.files] at hr
  exact ⟨hr.1, hr.2, h.increasing.filter _⟩

/-- The file is known to be the same in the other set. -/
def sameIn (l : List FileInfo) (ignore : Nat) (file : FileInfo) : Bool :=
  (named l file.name).any fun f => match file.sameAs f ignore with
    | .ok same => same
    | .error _ => false

/-- No pair of files with the same name has a null pointer for a link that is compared. -/
def Comparable (l l' : List FileInfo) (ignore : Nat) : Prop :=
  ∀ file ∈ l, ∀ f, named l' file.name = some f → ∃ b, file.sameAs f ignore = .ok b

/-- The test of `SubtractSame`. -/
theorem same_test (h' : Lists set l') (ignore : Nat) (file : FileInfo) :
    (match set.findByName file.name with
      | some f => file.sameAs f ignore
      | none => .ok false)
    = match named l' file.name with
      | some f => file.sameAs f ignore
      | none => .ok false := by
  rw [h'.findByName]

/-- The files of a set that may not be there. -/
def Known (set : Option FileSet) (l : List FileInfo) : Prop :=
  match set with
  | none => l = []
  | some set => Lists set l

theorem subtractSame_lists {set : Option FileSet} (h : Lists fs l) (h' : Known set l')
    {ignore : Nat} (hCompare : Comparable l l' ignore) :
    Yields Never (Lists · (l.filter fun f => !sameIn l' ignore f))
      (fs.subtractSame set ignore) := by
  cases set with
  | none =>
      have hNil : l' = [] := h'
      subst hNil
      have hAll : (l.filter fun f => !sameIn [] ignore f) = l :=
        List.filter_eq_self.mpr fun f _ => rfl
      rw [hAll]
      exact h
  | some set =>
      have hSet : Lists set l' := h'
      refine (subtractFrom_files (q := sameIn l' ignore) (i := 0) h.unsorted ?_).imp
        fun r hr => ?_
      · intro file hFile
        rw [List.drop_zero, h.files] at hFile
        rw [same_test hSet]
        unfold sameIn
        cases hFind : named l' file.name with
        | none => rfl
        | some f =>
            obtain ⟨b, hb⟩ := hCompare file hFile f hFind
            dsimp only
            rw [Option.any_some, hb]
      · rw [h.files] at hr
        exact ⟨hr.1, hr.2, h.increasing.filter _⟩

theorem subtractSame_comparable {set : Option FileSet} (h : Lists fs l) (h' : Known set l')
    {ignore : Nat} {r : FileSet} (hRun : fs.subtractSame set ignore = .ok r) :
    Comparable l l' ignore := by
  intro file hFile f hFind
  cases set with
  | none =>
      have hNil : l' = [] := h'
      subst hNil
      cases hFind
  | some set =>
      have hSet : Lists set l' := h'
      have hTested := subtractFrom_tested hRun file (by rw [List.drop_zero, h.files]; exact hFile)
      rw [same_test hSet, hFind] at hTested
      exact hTested

/-- A function that subtracts with a test against another set, which may not be there. -/
theorem against_lists {o : Option FileSet} (h : Lists fs l) (h' : Known o l')
    {p : FileInfo → FileInfo → Bool} {q : FileInfo → Bool → Bool} (hq : ∀ f, q f false = false) :
    Yields Never (Lists · (l.filter fun f => !q f ((named l' f.name).any (p f))))
      (match o with
        | none => .ok fs
        | some set => fs.subtract fun file => q file (set.against p file)) := by
  cases o with
  | none =>
      have hNil : l' = [] := h'
      subst hNil
      rw [List.filter_eq_self.mpr fun f _ => by
        show (!q f false) = true
        rw [hq]
        rfl]
      exact h
  | some set =>
      have hSet : Lists set l' := h'
      have hTest : (fun file => q file (set.against p file))
          = fun file => q file ((named l' file.name).any (p file)) :=
        funext fun file => congrArg (q file) (hSet.against p file)
      dsimp only
      rw [hTest]
      exact subtract_lists h _

theorem subtractAny_lists {o : Option FileSet} (h : Lists fs l) (h' : Known o l') :
    Yields Never (Lists · (l.filter fun f => (named l' f.name).isNone)) (fs.subtractAny o) := by
  have hTest : (fun f : FileInfo => (named l' f.name).isNone)
      = fun f => !(named l' f.name).any fun _ => true :=
    funext fun f => by cases named l' f.name <;> rfl
  rw [hTest]
  exact against_lists h h' (q := fun _ b => b) fun _ => rfl

theorem ofSet_lists {o : Option FileSet} (h : Known o l) :
    Lists (ofSet o) (l.map FileInfo.copy) := by
  cases o with
  | none =>
      have hNil : l = [] := h
      subst hNil
      exact ⟨rfl, rfl, List.Pairwise.nil⟩
  | some set => exact Lists.copy h

/-! ### Merging -/

theorem ite_name {b : Bool} {f g : FileInfo} {name : Bytes} (hf : f.name = name)
    (hg : g.name = name) : (if b = true then f else g).name = name := by
  cases b
  · exact hg
  · exact hf

theorem setUser_name (f : FileInfo) (u : Option Bytes) : (f.setUser u).name = f.name := by
  unfold FileInfo.setUser
  split <;> rfl

theorem setGroup_name (f : FileInfo) (g : Option Bytes) : (f.setGroup g).name = f.name := by
  unfold FileInfo.setGroup
  split <;> rfl

theorem mergeInfo_name (f g : FileInfo) (dif : Nat) : (f.mergeInfo g dif).name = f.name := by
  unfold FileInfo.mergeInfo
  extract_lets dif fMode f₁ f₂ f₃ f₄ f₅ f₆ f₇
  have h₁ : f₁.name = f.name := by
    apply ite_name
    · split <;> rfl
    · rfl
  have h₂ : f₂.name = f.name := ite_name h₁ h₁
  have h₃ : f₃.name = f.name := ite_name h₂ h₂
  have h₄ : f₄.name = f.name := ite_name h₃ h₃
  have h₅ : f₅.name = f.name := ite_name h₄ h₄
  have h₆ : f₆.name = f.name := ite_name ((setUser_name ..).trans h₅) h₅
  have h₇ : f₇.name = f.name := ite_name ((setGroup_name ..).trans h₆) h₆
  exact ite_name h₇ h₇

theorem merge_name (f g : FileInfo) : (f.merge g).name = f.name := by
  unfold FileInfo.merge
  split
  · rfl
  · exact mergeInfo_name ..

theorem merge_merged {set : Option FileSet} (h : Lists fs l) (h' : Known set l') :
    Yields Never (fun r => Rows.Merged FileInfo.name FileInfo.merge l (l'.map FileInfo.copy) r.files)
      (fs.merge set) := by
  have hNames : ∀ f g : FileInfo, f.name = g.name → (f.merge g).name = f.name :=
    fun f g _ => merge_name f g
  have hNothing : Rows.Merged FileInfo.name FileInfo.merge l [] fs.files := by
    rw [h.files]
    exact Rows.foldl_mergeOne_merged hNames h.increasing List.Pairwise.nil
  unfold FileSet.merge
  rw [h.unsorted, if_neg (by decide)]
  cases set with
  | none =>
      have hNil : l' = [] := h'
      subst hNil
      exact hNothing
  | some set =>
      have hSet : Lists set l' := h'
      have hCopies := increasing_map_copy hSet.increasing
      dsimp only
      cases hFiles : set.files with
      | nil =>
          rw [hSet.files] at hFiles
          subst hFiles
          exact hNothing
      | cons first rest =>
          dsimp only
          split
          · show Rows.Merged _ _ _ _ ((set.files.map FileInfo.copy).foldl _ fs.files)
            rw [hSet.files, h.files]
            exact Rows.foldl_mergeOne_merged hNames h.increasing hCopies
          · show Rows.Merged _ _ _ _ (Rows.mergeRows _ _ fs.files _)
            rw [← hFiles, hSet.files, h.files]
            exact Rows.mergeRows_merged hNames h.increasing hCopies

/-! ### Sorting -/

theorem subtractFrom_sortMode {p : FileInfo → Except Fault Bool} {i : Nat} {r : FileSet}
    (h : fs.subtractFrom p i = .ok r) : r.sortMode = fs.sortMode := by
  fun_induction subtractFrom p fs i with
  | case1 => cases h
  | case2 fs i hlt hKeep ih => exact ih h
  | case3 => cases h
  | case4 fs i hlt hGo hNone ih => exact ih h
  | case5 fs i hge =>
      cases h
      rfl

theorem subtractAny_sortMode {set : Option FileSet} {r : FileSet}
    (h : fs.subtractAny set = .ok r) : r.sortMode = fs.sortMode := by
  cases set with
  | none =>
      cases h
      rfl
  | some set => exact subtractFrom_sortMode h

/-- An order other than that of the short names leaves the files as they are. -/
theorem sort_files (lib : Lib) (fs : FileSet) {newsort : SortMode} {reverse : Bool}
    (hFlat : newsort ≠ .byNameFlat) (hSort : newsort ≠ .byName ∨ reverse = true) :
    Yields Never (fun r => r.files = fs.files) (fs.sort lib newsort false reverse) := by
  unfold FileSet.sort
  rw [if_neg (by
    rintro ⟨hName, -, hForward⟩
    rcases hSort with hOther | hReverse
    · exact hOther hName
    · rw [hReverse] at hForward
      cases hForward)]
  simp only [if_neg hFlat, ok_bind]
  exact rfl

theorem reverseSort_files (lib : Lib) (fs : FileSet) :
    Yields Never (fun r => r.files = fs.files) (fs.reverseSort lib) := by
  unfold FileSet.reverseSort
  split
  · exact sort_files lib fs (by decide) (.inr rfl)
  · exact rfl

theorem map_copy_ranked {g : FileInfo → FileInfo} (hg : ∀ f, (g f).copy = f.copy)
    (files : List FileInfo) : (files.map g).map FileInfo.copy = files.map FileInfo.copy := by
  rw [List.map_map]
  exact List.map_congr_left fun f _ => hg f

/-- The ranks are all that changes. -/
theorem sortByPatternList_files (lib : Lib) (fs : FileSet) (list : Bytes) :
    Yields Never (fun r => r.files.map FileInfo.copy = fs.files.map FileInfo.copy)
      (fs.sortByPatternList lib list) := by
  have hRanked : ∀ (patterns : List (Bytes × Nat)) (files : List FileInfo),
      (patterns.foldl (fun files (p, rank) => files.map fun (f : FileInfo) =>
        if f.rank = maxRank ∧ fnmatchDir lib p f then { f with rank := rank } else f)
        files).map FileInfo.copy = files.map FileInfo.copy := by
    intro patterns
    induction patterns with
    | nil => exact fun files => rfl
    | cons pattern patterns ih =>
        intro files
        rw [List.foldl_cons, ih]
        apply map_copy_ranked
        intro f
        split <;> rfl
  refine (sort_files lib _ (by decide) (.inl (by decide))).imp fun r hr => ?_
  rw [hr]
  dsimp only
  rw [hRanked]
  exact map_copy_ranked (g := fun f => { f with rank := maxRank }) (fun f => rfl) fs.files

end FileSet

end Lftp.Ports.FileSets
