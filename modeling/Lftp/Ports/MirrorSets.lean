import Mathlib.Data.Bool.Basic
import Mathlib.Data.List.Infix
import Lftp.Ports.FileSets

/-!
# The plan of a mirror

`InitSets` derives the sets of a mirror from the listings of the source and the target.
`Planned` says what they are for: which entries of the target are removed, which of the
source are the same, and which are transferred.

* `initSets_planned_iff` says when the sets are as planned.

With `--flat` they never are: `to_mkdir` is a copy of another set, and `Empty` reads the
`sort_mode` that a copy does not have.
-/

namespace Lftp.Ports.MirrorSets

open Lftp.Verified
open Lftp.Ports.FileSets
open Lftp.Ports.FileSets.FileSet (Lists Known named ofSet sameIn Comparable)

/-- The flags that `InitSets` reads, as the mirror command sets them. -/
structure Flags where
  delete : Bool
  onlyNewer : Bool
  ignoreTime : Bool
  ignoreSize : Bool
  scanAllFirst : Bool
  uploadOlder : Bool
  transferAll : Bool
  targetFlat : Bool
  deleteExcluded : Bool
  flat_scans : targetFlat = true → scanAllFirst = true

inductive RecursionMode
  | always
  | never
  | missing
  | newer
  deriving DecidableEq

/-- The files of a set that may not be there. -/
def files (set : Option FileSet) : List FileInfo := (set.map FileSet.files).getD []

/-- What `InitSets` starts from. -/
structure MirrorJob where
  lib : Lib
  sourceSet : FileSet
  targetSet : Option FileSet
  targetSetExcluded : Option FileSet
  /-- `same` and `to_mkdir` as they were before. -/
  same : Option FileSet
  toMkdir : Option FileSet
  flags : Flags
  recursionMode : RecursionMode
  newerThan : Int
  olderThan : Int
  sizeRange : Option Range
  skipNoaccess : Bool
  /-- `source_session->GetUser()` -/
  user : Option Bytes
  /-- `target_session->GetProto()` -/
  targetProto : Bytes
  /-- Whether there is a `parent_mirror`. -/
  parentMirror : Bool
  sortBy : Bytes
  order : Bytes
  totFiles : Nat
  totSymlinks : Nat
  source_listed : Lists sourceSet sourceSet.files
  target_listed : Known targetSet (files targetSet)
  excluded_listed : Known targetSetExcluded (files targetSetExcluded)

/-- The sets of the mirror afterwards. -/
structure Sets where
  sourceSet : FileSet
  toRm : FileSet
  toTransfer : FileSet
  same : Option FileSet
  toMkdir : Option FileSet
  newFilesSet : FileSet
  oldFilesSet : FileSet
  toRmMismatched : FileSet
  onlyDirs : Bool
  totFiles : Nat
  totSymlinks : Nat

namespace MirrorJob

/-- The names of the target are those of the files, without their directories. -/
def flat (job : MirrorJob) : Bool :=
  job.flags.targetFlat && !job.parentMirror && job.targetSet.isSome

def ignore (job : MirrorJob) : Nat :=
  let ignore := if job.flags.onlyNewer then
    Defined.ignoreSizeIfOlder ||| Defined.ignoreDateIfOlder else 0
  let ignore := if !job.flags.uploadOlder && job.targetProto ≠ bytes "file" then
    ignore ||| Defined.ignoreDateIfOlder else ignore
  let ignore := if job.flags.ignoreTime then ignore ||| Defined.date else ignore
  if job.flags.ignoreSize then ignore ||| Defined.size else ignore

def initRm (job : MirrorJob) (sourceSet : FileSet) : Except Fault FileSet := do
  let toRm ← (ofSet job.targetSet).subtractAny (some sourceSet)
  if job.flags.deleteExcluded && job.targetSetExcluded.isSome then
    toRm.merge job.targetSetExcluded
  else .ok toRm

/-- `to_transfer` and `same`, by comparison with the target. -/
def initSame (job : MirrorJob) (sourceSet : FileSet) :
    Except Fault (FileSet × Option FileSet) :=
  let toTransfer := ofSet (some sourceSet)
  if !job.flags.transferAll then do
    let same := ofSet (some sourceSet)
    let toTransfer ← toTransfer.subtractSame job.targetSet job.ignore
    let same ← same.subtractAny (some toTransfer)
    .ok (toTransfer, some same)
  else .ok (toTransfer, job.same)

def limitTimeSize (job : MirrorJob) (toTransfer : FileSet) : Except Fault FileSet := do
  let toTransfer ← (if job.newerThan ≠ noDate then
    toTransfer.subtractTimeCmp FileInfo.notNewerThan job.newerThan else .ok toTransfer)
  let toTransfer ← (if job.olderThan ≠ noDate then
    toTransfer.subtractTimeCmp FileInfo.notOlderThan job.olderThan else .ok toTransfer)
  match job.sizeRange with
  | some r => toTransfer.subtractSizeOutside r
  | none => .ok toTransfer

def initMkdir (job : MirrorJob) (toTransfer : FileSet) : Except Fault (Option FileSet) :=
  if job.flags.scanAllFirst then do
    let toMkdir ← (ofSet (some toTransfer)).subtractNotDirs
    let toMkdir ← toMkdir.subtractAny job.targetSet
    .ok (some toMkdir)
  else .ok job.toMkdir

def limitAccess (job : MirrorJob) (toTransfer : FileSet) : Except Fault FileSet := do
  let toTransfer ← (match job.recursionMode with
    | .never => toTransfer.subtractDirs
    | .missing => toTransfer.subtractDirsIn job.targetSet
    | .newer => toTransfer.subtractNotOlderDirs job.targetSet
    | .always => .ok toTransfer)
  if job.skipNoaccess then toTransfer.excludeUnaccessible job.user else .ok toTransfer

def initMismatched (oldFilesSet toTransfer : FileSet) : Except Fault FileSet := do
  let toRmMismatched ← (ofSet (some oldFilesSet)).subtractSameType (some toTransfer)
  toRmMismatched.subtractNotDirs

/-- The names get their directories back. -/
def unflatten (job : MirrorJob) (sets : Sets) : Except Fault Sets := do
  let sourceSet ← sets.sourceSet.unsort job.lib
  let toTransfer ← sets.toTransfer.unsortFlat job.lib
  let toTransfer ← toTransfer.subtractDirs
  let same ← (match sets.same with
    | some same => same.unsortFlat job.lib
    | none => .error .nullSet)
  let toMkdir ← (match sets.toMkdir with
    | some toMkdir => toMkdir.empty job.lib
    | none => .error .nullSet)
  let newFilesSet ← sets.newFilesSet.unsortFlat job.lib
  .ok { sets with
    sourceSet := sourceSet, toTransfer := toTransfer, same := some same,
    toMkdir := some toMkdir, newFilesSet := newFilesSet }

def sortTransfer (job : MirrorJob) (toTransfer : FileSet) : Except Fault FileSet := do
  let toTransfer ← (if job.sortBy.take 4 = bytes "name" then
      toTransfer.sortByPatternList job.lib job.order
    else if job.sortBy.take 4 = bytes "date" then toTransfer.sort job.lib .byDate false false
    else if job.sortBy.take 4 = bytes "size" then toTransfer.sort job.lib .bySize false true
    else .ok toTransfer)
  if bytes "-desc" <:+: job.sortBy then toTransfer.reverseSort job.lib else .ok toTransfer

def onlyDirs (toMkdir : Option FileSet) (toTransfer : FileSet) : Bool :=
  let set := toMkdir.getD toTransfer
  set.count [.directory] = set.files.length

def initSets (job : MirrorJob) : Except Fault Sets := do
  let sourceSet ← (if job.flat then job.sourceSet.sort job.lib .byNameFlat false false
    else .ok job.sourceSet)
  let toRm ← job.initRm sourceSet
  let (toTransfer, same) ← job.initSame sourceSet
  let toTransfer ← job.limitTimeSize toTransfer
  let toMkdir ← job.initMkdir toTransfer
  let toTransfer ← job.limitAccess toTransfer
  let newFilesSet ← (ofSet (some toTransfer)).subtractAny job.targetSet
  let oldFilesSet ← (ofSet job.targetSet).subtractNotIn job.lib (some toTransfer)
  let toRmMismatched ← initMismatched oldFilesSet toTransfer
  let toTransfer ← (if !job.flags.delete then toTransfer.subtractAny (some toRmMismatched)
    else .ok toTransfer)
  let sets : Sets :=
    { sourceSet := sourceSet, toRm := toRm, toTransfer := toTransfer, same := same,
      toMkdir := toMkdir, newFilesSet := newFilesSet, oldFilesSet := oldFilesSet,
      toRmMismatched := toRmMismatched, onlyDirs := false,
      totFiles := job.totFiles + sourceSet.count [.normal, .unknown, .redirect],
      totSymlinks := job.totSymlinks + sourceSet.count [.symlink] }
  let sets ← (if job.flat then job.unflatten sets else .ok sets)
  let toTransfer ← job.sortTransfer sets.toTransfer
  .ok { sets with toTransfer := toTransfer, onlyDirs := onlyDirs sets.toMkdir toTransfer }

/-! ## What the sets are for -/

/-- Not wanted by `--newer-than` or `--older-than`. -/
def byTime (job : MirrorJob) (f : FileInfo) : Bool :=
  FileSet.maybeNormal f && (job.newerThan ≠ noDate && f.notNewerThan job.newerThan
    || job.olderThan ≠ noDate && f.notOlderThan job.olderThan)

/-- Not wanted by `--size-range`. -/
def bySize (job : MirrorJob) (f : FileInfo) : Bool :=
  FileSet.maybeNormal f && job.sizeRange.any fun r => f.sizeOutside r

/-- The file of the target with the same name. -/
def counterpart (job : MirrorJob) (f : FileInfo) : Option FileInfo :=
  named (files job.targetSet) f.name

/-- A directory that is not entered. -/
def byRecursion (job : MirrorJob) (f : FileInfo) : Bool :=
  f.typeIs .directory && match job.recursionMode with
    | .always => false
    | .never => true
    | .missing => (job.counterpart f).any fun t => t.typeIs .directory
    | .newer => f.has Defined.date
      && (job.counterpart f).any fun t => t.typeIs .directory && t.notOlderThan f.date.ts

/-- Not readable, where that is asked for. -/
def byAccess (job : MirrorJob) (f : FileInfo) : Bool :=
  job.skipNoaccess && FileSet.unaccessible job.user f

/-- The target has the same file. -/
def isSame (job : MirrorJob) (f : FileInfo) : Bool := sameIn (files job.targetSet) job.ignore f

/-- The entries of the source, as a copy has them. -/
def source (job : MirrorJob) : List FileInfo := job.sourceSet.files.map FileInfo.copy

/-- The entries of the target whose name the source does not have. -/
def surplus (job : MirrorJob) : List FileInfo :=
  ((files job.targetSet).map FileInfo.copy).filter fun t => (named job.source t.name).isNone

/-- What is to be transferred, mismatched or not. -/
def wanted (job : MirrorJob) : List FileInfo :=
  job.source.filter fun f => (job.flags.transferAll || !job.isSame f)
    && !(job.byTime f || job.bySize f || job.byRecursion f || job.byAccess f)

/-- The entries of the target that what is wanted comes to stand for. -/
def replaced (job : MirrorJob) : List FileInfo :=
  ((files job.targetSet).map FileInfo.copy).filter fun t => (named job.wanted t.name).isSome

/-- Directories of the target that something else comes to stand for. -/
def mismatched (job : MirrorJob) : List FileInfo :=
  job.replaced.filter fun t =>
    t.typeIs .directory && !(named job.wanted t.name).any fun f => f.typeIs .directory

end MirrorJob

/-- The sets are what they are for. -/
structure Planned (job : MirrorJob) (sets : Sets) : Prop where
  toRm : Rows.Merged FileInfo.name FileInfo.merge job.surplus
    (if job.flags.deleteExcluded then (files job.targetSetExcluded).map FileInfo.copy else [])
    sets.toRm.files
  same : job.flags.transferAll = false →
    sets.same.map FileSet.files = some (job.source.filter job.isSame)
  toTransfer : sets.toTransfer.files.map FileInfo.copy = job.wanted.filter fun f =>
    job.flags.delete || (named job.mismatched f.name).isNone
  newFilesSet : sets.newFilesSet.files = job.wanted.filter fun f => (job.counterpart f).isNone
  oldFilesSet : sets.oldFilesSet.files = job.replaced
  toRmMismatched : sets.toRmMismatched.files = job.mismatched

namespace MirrorJob

/-- The condition: the names keep their directories, and no link without a text is compared. -/
def Plain (job : MirrorJob) : Prop :=
  job.flat = false
    ∧ (job.flags.transferAll = false → Comparable job.source (files job.targetSet) job.ignore)

variable {job : MirrorJob} {fs : FileSet} {l : List FileInfo}

/-- A function that subtracts where it is asked for. -/
theorem ite_lists (h : Lists fs l) (c : Prop) [Decidable c] {q : FileInfo → Bool}
    {x : Except Fault FileSet} (hx : Yields Never (Lists · (l.filter fun f => !q f)) x) :
    Yields Never (Lists · (l.filter fun f => !(decide c && q f))) (if c then x else .ok fs) := by
  by_cases hc : c
  · simp only [hc, if_true, decide_true, Bool.true_and]
    exact hx
  · simp only [hc, if_false, decide_false, Bool.false_and, Bool.not_false, List.filter_true]
    exact h

/-- A set may be described in another way. -/
theorem lists_filter {p q : FileInfo → Bool} (h : Lists fs (l.filter p)) (hpq : ∀ f, p f = q f) :
    Lists fs (l.filter q) := by
  rw [← funext hpq]
  exact h

theorem limitTimeSize_lists (job : MirrorJob) (h : Lists fs l) :
    Yields Never (Lists · (l.filter fun f => !(job.byTime f || job.bySize f)))
      (job.limitTimeSize fs) := by
  unfold limitTimeSize
  refine (ite_lists h _ (FileSet.subtract_lists h _)).bind fun fs₁ h₁ => ?_
  refine (ite_lists h₁ _ (FileSet.subtract_lists h₁ _)).bind fun fs₂ h₂ => ?_
  rw [List.filter_filter] at h₂
  unfold byTime bySize
  cases job.sizeRange with
  | none =>
      refine lists_filter h₂ fun f => ?_
      simp only [Option.any_none, Bool.and_false, Bool.or_false, ne_eq]
      grind
  | some r =>
      refine (FileSet.subtract_lists h₂ _).imp fun fs₃ h₃ => ?_
      rw [List.filter_filter] at h₃
      refine lists_filter h₃ fun f => ?_
      simp only [Option.any_some, ne_eq]
      grind

theorem limitAccess_lists (job : MirrorJob) (h : Lists fs l) :
    Yields Never (Lists · (l.filter fun f => !(job.byRecursion f || job.byAccess f)))
      (job.limitAccess fs) := by
  have hAccess : ∀ {fs₁ : FileSet}, Lists fs₁ (l.filter fun f => !job.byRecursion f) →
      Yields Never (Lists · (l.filter fun f => !(job.byRecursion f || job.byAccess f)))
        (if job.skipNoaccess then fs₁.excludeUnaccessible job.user else .ok fs₁) := by
    intro fs₁ h₁
    refine (ite_lists h₁ _ (FileSet.subtract_lists h₁ _)).imp fun fs₂ h₂ => ?_
    rw [List.filter_filter] at h₂
    refine lists_filter h₂ fun f => ?_
    unfold byAccess
    grind
  unfold limitAccess
  refine Yields.bind (Q := (Lists · (l.filter fun f => !job.byRecursion f))) ?_ fun fs₁ => hAccess
  unfold byRecursion
  cases job.recursionMode with
  | always => 
      simp only [Bool.and_false, Bool.not_false, List.filter_true]
      exact h
  | never =>
      simp only [Bool.and_true]
      exact FileSet.subtract_lists h _
  | missing => 
      exact FileSet.against_lists h job.target_listed (q := fun f b => f.typeIs .directory && b)
        fun f => Bool.and_false _
  | newer =>
      refine (FileSet.against_lists h job.target_listed
        (q := fun f b => f.typeIs .directory && f.has Defined.date && b)
        fun f => Bool.and_false _).imp fun fs₁ h₁ => ?_
      refine lists_filter h₁ fun f => ?_
      rw [Bool.and_assoc]
      rfl

/-- A part of the source is its own copy. -/
theorem source_copy (job : MirrorJob) (p : FileInfo → Bool) :
    (job.source.filter p).map FileInfo.copy = job.source.filter p := by
  have hFixed : ∀ f ∈ job.source.filter p, f.copy = f := by
    intro f hf
    obtain ⟨g, -, hg⟩ := List.mem_map.mp (List.mem_filter.mp hf).1
    rw [← hg]
    rfl
  rw [List.map_congr_left hFixed, List.map_id']

theorem source_lists (job : MirrorJob) : Lists (ofSet (some job.sourceSet)) job.source :=
  FileSet.ofSet_lists (o := some job.sourceSet) job.source_listed

theorem initSame_lists (job : MirrorJob) (hCompare : job.flags.transferAll = false →
      Comparable job.source (files job.targetSet) job.ignore) :
    Yields Never (fun r =>
        Lists r.1 (job.source.filter fun f => job.flags.transferAll || !job.isSame f)
        ∧ (job.flags.transferAll = false →
          r.2.map FileSet.files = some (job.source.filter job.isSame)))
      (job.initSame job.sourceSet) := by
  have hSource := job.source_lists
  unfold initSame
  cases hAll : job.flags.transferAll with
  | true =>
      refine ⟨?_, fun h => by cases h⟩
      simp only [Bool.true_or, List.filter_true]
      exact hSource
  | false =>
      refine (FileSet.subtractSame_lists hSource job.target_listed (hCompare hAll)).bind
        fun toTransfer hTransfer => ?_
      refine (FileSet.subtractAny_lists (o := some toTransfer) hSource hTransfer).bind
        fun same hSame => ?_
      refine ⟨hTransfer, fun _ => ?_⟩
      rw [Option.map_some, hSame.files]
      congr 1
      apply List.filter_congr
      intro f hf
      rw [FileSet.named_filter hSource.increasing hf]
      unfold isSame
      cases sameIn (files job.targetSet) job.ignore f <;> rfl

theorem initMkdir_yields (job : MirrorJob) (h : Lists fs l) :
    Yields Never (fun _ => True) (job.initMkdir fs) := by
  unfold initMkdir
  split
  · refine (FileSet.subtract_lists (FileSet.ofSet_lists (o := some fs) h) _).bind fun fs₁ h₁ => ?_
    exact (FileSet.subtractAny_lists h₁ job.target_listed).bind fun _ _ => trivial
  · exact trivial

theorem initRm_merged (job : MirrorJob) :
    Yields Never (fun r => Rows.Merged FileInfo.name FileInfo.merge job.surplus
        (if job.flags.deleteExcluded then (files job.targetSetExcluded).map FileInfo.copy else [])
        r.files) (job.initRm job.sourceSet) := by
  have hTarget := FileSet.ofSet_lists job.target_listed
  unfold initRm
  refine (FileSet.subtractAny_lists (o := some job.sourceSet) hTarget
    job.source_listed).bind fun toRm hRm => ?_
  have hSurplus : Lists toRm job.surplus := by
    refine lists_filter hRm fun f => ?_
    unfold source
    rw [FileSet.named_copy, Option.isNone_map]
  cases hExcluded : job.flags.deleteExcluded with
  | false =>
      rw [if_neg (by simp), if_neg (by simp)]
      show Rows.Merged _ _ _ _ toRm.files
      rw [hSurplus.files]
      exact Rows.foldl_mergeOne_merged (fun f g _ => FileSet.merge_name f g)
        hSurplus.increasing List.Pairwise.nil
  | true =>
      rw [if_pos rfl]
      have hMerge := FileSet.merge_merged hSurplus job.excluded_listed
      cases hSet : job.targetSetExcluded with
      | none =>
          rw [hSet] at hMerge
          rw [if_neg (by simp)]
          show Rows.Merged _ _ _ _ toRm.files
          rw [hSurplus.files]
          exact Rows.foldl_mergeOne_merged (fun f g _ => FileSet.merge_name f g)
            hSurplus.increasing List.Pairwise.nil
      | some set =>
          rw [hSet] at hMerge
          rw [if_pos (by simp)]
          exact hMerge

theorem sortTransfer_files (job : MirrorJob) (fs : FileSet) :
    Yields Never (fun r => r.files.map FileInfo.copy = fs.files.map FileInfo.copy)
      (job.sortTransfer fs) := by
  unfold sortTransfer
  have hFiles : ∀ {x : Except Fault FileSet}, Yields Never (fun r => r.files = fs.files) x →
      Yields Never (fun r => r.files.map FileInfo.copy = fs.files.map FileInfo.copy) x :=
    fun h => h.imp fun r hr => by rw [hr]
  refine Yields.bind (Q := fun r => r.files.map FileInfo.copy = fs.files.map FileInfo.copy)
    ?_ fun r hr => ?_
  · split
    · exact FileSet.sortByPatternList_files job.lib fs job.order
    · split
      · exact hFiles (FileSet.sort_files job.lib fs (by decide) (.inl (by decide)))
      · split
        · exact hFiles (FileSet.sort_files job.lib fs (by decide) (.inl (by decide)))
        · exact rfl
  · split
    · refine (FileSet.reverseSort_files job.lib r).imp fun r' hr' => ?_
      rw [hr', hr]
    · exact hr

/-- What is left after all limits. -/
theorem wanted_lists (job : MirrorJob) (h : Lists fs
      ((job.source.filter fun f => job.flags.transferAll || !job.isSame f).filter
        fun f => !(job.byTime f || job.bySize f))) :
    Yields Never (Lists · job.wanted) (job.limitAccess fs) := by
  refine (limitAccess_lists job h).imp fun r hr => ?_
  rw [List.filter_filter, List.filter_filter] at hr
  refine lists_filter hr fun f => ?_
  grind

/-- The directories that something else comes to stand for. -/
theorem initMismatched_lists (job : MirrorJob) {old : FileSet} (hOld : Lists old job.replaced)
    (h : Lists fs job.wanted) : Yields Never (Lists · job.mismatched) (initMismatched old fs) := by
  have hCopy : job.replaced.map FileInfo.copy = job.replaced := by
    have hFixed : ∀ f ∈ job.replaced, f.copy = f := by
      intro f hf
      obtain ⟨g, -, hg⟩ := List.mem_map.mp (List.mem_filter.mp hf).1
      rw [← hg]
      rfl
    rw [List.map_congr_left hFixed, List.map_id']
  have hStart := FileSet.ofSet_lists (o := some old) hOld
  rw [hCopy] at hStart
  refine (FileSet.against_lists (o := some fs) hStart h (q := fun _ b => b) fun _ => rfl).bind
    fun r hr => ?_
  refine (FileSet.subtract_lists hr _).imp fun r' hr' => ?_
  rw [List.filter_filter] at hr'
  refine lists_filter hr' fun f => ?_
  unfold FileInfo.typeIs
  cases named job.wanted f.name with
  | none => simp
  | some g =>
      simp only [Option.any_some]
      grind

theorem initSets_planned (job : MirrorJob) (h : job.Plain) :
    Yields Never (Planned job) job.initSets := by
  unfold initSets
  rw [h.1]
  simp only [Bool.false_eq_true, if_false, ok_bind]
  refine (initRm_merged job).bind fun toRm hRm => ?_
  refine (initSame_lists job h.2).bind fun ⟨toTransfer, same⟩ ⟨hTransfer, hSame⟩ => ?_
  refine (limitTimeSize_lists job hTransfer).bind fun limited hLimited => ?_
  refine (initMkdir_yields job hLimited).bind fun toMkdir _ => ?_
  refine (wanted_lists job hLimited).bind fun wanted hWanted => ?_
  have hNew := FileSet.ofSet_lists (o := some wanted) hWanted
  rw [show job.wanted.map FileInfo.copy = job.wanted from source_copy job _] at hNew
  refine (FileSet.subtractAny_lists hNew job.target_listed).bind fun newFiles hNewFiles => ?_
  have hOld : Yields Never (Lists · job.replaced)
      ((ofSet job.targetSet).subtractNotIn job.lib (some wanted)) := by
    refine (FileSet.subtract_lists (FileSet.ofSet_lists job.target_listed) _).imp fun r hr => ?_
    refine lists_filter hr fun f => ?_
    rw [hWanted.against]
    cases named job.wanted f.name <;> rfl
  refine hOld.bind fun oldFiles hOldFiles => ?_
  refine (initMismatched_lists job hOldFiles hWanted).bind fun mismatched hMismatched => ?_
  have hFinal : Yields Never
      (Lists · (job.wanted.filter fun f =>
        job.flags.delete || (named job.mismatched f.name).isNone))
      (if !job.flags.delete then wanted.subtractAny (some mismatched) else .ok wanted) := by
    cases job.flags.delete with
    | true =>
        simp only [Bool.true_or, List.filter_true]
        exact hWanted
    | false => exact FileSet.subtractAny_lists (o := some mismatched) hWanted hMismatched
  refine hFinal.bind fun final hFinal => ?_
  refine (sortTransfer_files job final).bind fun sorted hSorted => ?_
  constructor
  · exact hRm
  · exact hSame
  · show sorted.files.map FileInfo.copy = _
    rw [hSorted, hFinal.files]
    unfold MirrorJob.wanted
    rw [List.filter_filter, source_copy]
  · exact hNewFiles.files
  · exact hOldFiles.files
  · exact hMismatched.files

/-! ## When they are not -/

/-- With short names `to_mkdir` is emptied, and is a copy whose `sort_mode` was never set. -/
theorem unflatten_fails (job : MirrorJob) {sets r : Sets}
    (hMkdir : ∀ toMkdir, sets.toMkdir = some toMkdir → toMkdir.sortMode = none) :
    job.unflatten sets ≠ .ok r := by
  intro h
  unfold unflatten at h
  obtain ⟨sourceSet, -, h⟩ := exists_of_bind h
  obtain ⟨toTransfer, -, h⟩ := exists_of_bind h
  obtain ⟨toTransfer', -, h⟩ := exists_of_bind h
  obtain ⟨same, -, h⟩ := exists_of_bind h
  obtain ⟨toMkdir, hEmpty, h⟩ := exists_of_bind h
  cases hSet : sets.toMkdir with
  | none =>
      rw [hSet] at hEmpty
      cases hEmpty
  | some set =>
      rw [hSet] at hEmpty
      dsimp only at hEmpty
      unfold FileSet.empty FileSet.unsort at hEmpty
      rw [hMkdir set hSet] at hEmpty
      cases hEmpty

theorem initMkdir_sortMode (job : MirrorJob) (hScan : job.flags.scanAllFirst = true)
    {r : Option FileSet} (h : job.initMkdir fs = .ok r) :
    ∀ toMkdir, r = some toMkdir → toMkdir.sortMode = none := by
  unfold initMkdir at h
  rw [if_pos hScan] at h
  obtain ⟨dirs, hDirs, h⟩ := exists_of_bind h
  obtain ⟨new, hNew, h⟩ := exists_of_bind h
  cases h
  intro toMkdir hEq
  cases hEq
  rw [FileSet.subtractAny_sortMode hNew, FileSet.subtractFrom_sortMode hDirs]
  rfl

theorem flat_fails (job : MirrorJob) (hFlat : job.flat = true) (r : Sets) :
    job.initSets ≠ .ok r := by
  intro h
  have hScan : job.flags.scanAllFirst = true := by
    unfold flat at hFlat
    exact job.flags.flat_scans (by simp_all)
  unfold initSets at h
  obtain ⟨sourceSet, -, h⟩ := exists_of_bind h
  obtain ⟨toRm, -, h⟩ := exists_of_bind h
  obtain ⟨⟨toTransfer, same⟩, -, h⟩ := exists_of_bind h
  obtain ⟨limited, -, h⟩ := exists_of_bind h
  obtain ⟨toMkdir, hMkdir, h⟩ := exists_of_bind h
  obtain ⟨wanted, -, h⟩ := exists_of_bind h
  obtain ⟨newFiles, -, h⟩ := exists_of_bind h
  obtain ⟨oldFiles, -, h⟩ := exists_of_bind h
  obtain ⟨mismatched, -, h⟩ := exists_of_bind h
  obtain ⟨final, -, h⟩ := exists_of_bind h
  obtain ⟨sets, hSets, h⟩ := exists_of_bind h
  rw [if_pos hFlat] at hSets
  exact unflatten_fails job (initMkdir_sortMode job hScan hMkdir) hSets

/-- Where the sets come out, all links that were compared had a text. -/
theorem comparable_of_run (job : MirrorJob) (hFlat : job.flat = false) {r : Sets}
    (h : job.initSets = .ok r) (hAll : job.flags.transferAll = false) :
    Comparable job.source (files job.targetSet) job.ignore := by
  unfold initSets at h
  obtain ⟨sourceSet, hSource, h⟩ := exists_of_bind h
  obtain ⟨toRm, -, h⟩ := exists_of_bind h
  obtain ⟨⟨toTransfer, same⟩, hSame, h⟩ := exists_of_bind h
  rw [hFlat, if_neg (by decide)] at hSource
  cases hSource
  unfold initSame at hSame
  rw [hAll, if_pos (by decide)] at hSame
  obtain ⟨left, hLeft, -⟩ := exists_of_bind hSame
  exact FileSet.subtractSame_comparable job.source_lists job.target_listed hLeft

end MirrorJob

open MirrorJob in
/-- The sets come out as planned exactly when the names keep their directories, and no link
without a text is compared. -/
theorem initSets_planned_iff (job : MirrorJob) :
    (∃ sets, job.initSets = .ok sets ∧ Planned job sets) ↔ job.Plain := by
  constructor
  · rintro ⟨sets, hRun, -⟩
    cases hFlat : job.flat with
    | true => exact absurd hRun (flat_fails job hFlat sets)
    | false => exact ⟨hFlat, comparable_of_run job hFlat hRun⟩
  · intro h
    exact (initSets_planned job h).exists

/-- A regular file of which nothing but the name and the type is known. -/
def plainFile (name : Bytes) : FileInfo :=
  { name := name, longname := none, symlink := none, mode := 0xffffffff, date := ⟨noDate, 0⟩,
    size := -1, user := none, group := none, nlinks := 0, filetype := .normal,
    defined := Defined.name ||| Defined.type, rank := 0 }

def oneFile (name : Bytes) : FileSet := ⟨[plainFile name], none, some .byName, 0⟩

theorem oneFile_listed (name : Bytes) : Lists (oneFile name) (oneFile name).files :=
  ⟨rfl, rfl, List.pairwise_singleton _ _⟩

/-- `mirror --flat` from a directory with the file `dir/a` to one with the file `b`. -/
def flatMirror : MirrorJob where
  lib := ⟨fun _ l => l, fun _ l => l, fun _ _ => some false⟩
  sourceSet := oneFile (bytes "dir/a")
  targetSet := some (oneFile (bytes "b"))
  targetSetExcluded := none
  same := none
  toMkdir := none
  flags :=
    { delete := false, onlyNewer := false, ignoreTime := false, ignoreSize := false,
      scanAllFirst := true, uploadOlder := false, transferAll := false, targetFlat := true,
      deleteExcluded := false, flat_scans := fun _ => rfl }
  recursionMode := .always
  newerThan := noDate
  olderThan := noDate
  sizeRange := none
  skipNoaccess := false
  user := none
  targetProto := bytes "file"
  parentMirror := false
  sortBy := bytes "name"
  order := bytes "*/"
  totFiles := 0
  totSymlinks := 0
  source_listed := oneFile_listed _
  target_listed := oneFile_listed _
  excluded_listed := rfl

theorem flat_unplanned : ¬ ∃ sets, flatMirror.initSets = .ok sets ∧ Planned flatMirror sets := by
  rintro ⟨sets, hRun, -⟩
  exact MirrorJob.flat_fails flatMirror rfl sets hRun

end Lftp.Ports.MirrorSets
