import Lftp.Ports.FileSets
import Lftp.Verified.Sorting

/-!
# Sets sorted by short names

`Sort(BYNAME_FLAT)` renames the files to the last components of their names and makes an array of
indexes, in which a name comes once. The set is then read with `operator []`, or with `rewind`,
`curr` and `next`, and these count to the number of files.

`Enumerates` says that all short names are read so, in their order, and that `Unsort` undoes it.
`sort_enumerates_iff`: it is so if no two files have the same short name.
-/

namespace Lftp.Ports.FlatSort

open Lftp.Verified
open Lftp.Ports.FileSets
open Lftp.Ports.FileSets.FileSet (sort unsort unsortFlat sortCmp firstIndexes)

/-! ## Reading a set -/

/-- `operator []`. The outer option has no value where it reads outside an array, and the inner
one is the pointer. -/
def opIndex (fs : FileSet) (i : Int) : Option (Option FileInfo) :=
  if (fs.files.length : Int) ≤ i ∨ i < 0 then some none
  else match fs.sorted with
    | none => fs.files[i.toNat]?.map some
    | some sorted => (sorted[i.toNat]?).bind fun k => fs.files[k]?.map some

def rewind (fs : FileSet) : FileSet := { fs with ind := 0 }

def curr (fs : FileSet) : Option (Option FileInfo) := opIndex fs fs.ind

def next (fs : FileSet) : FileSet × Option (Option FileInfo) :=
  if fs.ind < fs.files.length then
    let fs := { fs with ind := fs.ind + 1 }
    (fs, curr fs)
  else (fs, some none)

/-- The number of steps that the loop may still take. -/
def left (fs : FileSet) : Option (Option FileInfo) → Nat
  | some (some _) => fs.files.length - fs.ind + 1
  | _ => 0

theorem left_next (fs : FileSet) (f : FileInfo) :
    left (next fs).1 (next fs).2 < left fs (some (some f)) := by
  have hBound : ∀ (fs' : FileSet) fi, left fs' fi ≤ fs'.files.length - fs'.ind + 1 := by
    intro fs' fi
    unfold left
    split
    · exact Nat.le_refl _
    · exact Nat.zero_le _
  unfold next
  split
  · refine Nat.lt_of_le_of_lt (hBound _ _) ?_
    show fs.files.length - (fs.ind + 1) + 1 < fs.files.length - fs.ind + 1
    omega
  · exact Nat.succ_pos _

/-- The loop over the files of a set, from the pointer `fi` on. -/
def visitFrom (fs : FileSet) (fi : Option (Option FileInfo)) : Option (List FileInfo) :=
  match fi with
  | none => none
  | some none => some []
  | some (some f) => (visitFrom (next fs).1 (next fs).2).map (f :: ·)
termination_by left fs fi
decreasing_by exact left_next fs f

/-- `for(fi=curr(); fi; fi=next())`, after `rewind`. -/
def visited (fs : FileSet) : Option (List FileInfo) := visitFrom (rewind fs) (curr (rewind fs))

/-- What `Sort` does to the names. -/
def flatten (f : FileInfo) : FileInfo :=
  { f with longname := some f.name, name := basenamePtr f.name }

/-- The file has no name besides its own. -/
def plain (f : FileInfo) : FileInfo := { f with longname := none }

/-- The files are in the order of their names. -/
def InOrder (l : List FileInfo) : Prop := l.Pairwise fun f g => compare f.name g.name ≠ .gt

/-- The set consists of the files `l`, and the names may be the short ones. -/
inductive Holds (fs : FileSet) (l : List FileInfo) : Prop
  | long (notFlat : fs.sortMode ≠ some .byNameFlat) (files : fs.files = l)
  | short (isFlat : fs.sortMode = some .byNameFlat) (files : fs.files.Perm (l.map flatten))

/-- The short names are read in their order, each once, and then the names are as before. -/
def Enumerates (lib : Lib) (fs : FileSet) (l : List FileInfo) : Prop :=
  ∃ fs₁ v fs₂, fs.sort lib .byNameFlat false false = .ok fs₁
    ∧ visited fs₁ = some v ∧ (∀ i : Nat, opIndex fs₁ i = some v[i]?)
    ∧ (v.map FileInfo.name).Pairwise (compare · · = .lt)
    ∧ (∀ f ∈ v, f ∈ l.map flatten) ∧ (∀ f ∈ l, basenamePtr f.name ∈ v.map FileInfo.name)
    ∧ fs₁.unsort lib = .ok fs₂ ∧ fs₂.sorted = none ∧ fs₂.files = l.map plain

variable {lib : Lib} {fs : FileSet} {l v : List FileInfo}

theorem opIndex_end {i : Nat} (h : fs.files.length ≤ i) : opIndex fs i = some none := by
  unfold opIndex
  rw [if_pos (Or.inl (by omega))]

theorem opIndex_inside {i : Nat} (h : i < fs.files.length) : opIndex fs i ≠ some none := by
  unfold opIndex
  rw [if_neg (by omega)]
  cases fs.sorted with
  | none => simp
  | some sorted =>
      dsimp only
      cases sorted[(i : Int).toNat]? <;> simp

theorem visitFrom_eq (hIndex : ∀ i : Nat, opIndex fs i = some v[i]?) (k : Nat) :
    visitFrom { fs with ind := k } (curr { fs with ind := k }) = some (v.drop k) := by
  have hCurr : curr { fs with ind := k } = some v[k]? := hIndex k
  rw [hCurr]
  by_cases hk : k < v.length
  · have hInside : k < fs.files.length := by
      by_contra hNot
      have hEnd := opIndex_end (Nat.le_of_not_lt hNot)
      rw [hIndex, List.getElem?_eq_getElem hk] at hEnd
      cases hEnd
    have hNext : next { fs with ind := k }
        = ({ fs with ind := k + 1 }, curr { fs with ind := k + 1 }) := if_pos hInside
    rw [List.getElem?_eq_getElem hk, visitFrom, hNext, visitFrom_eq hIndex (k + 1),
      List.drop_eq_getElem_cons hk]
    rfl
  · rw [List.getElem?_eq_none (Nat.le_of_not_lt hk), visitFrom,
      List.drop_eq_nil_of_le (Nat.le_of_not_lt hk)]
termination_by v.length - k

theorem visited_eq (hIndex : ∀ i : Nat, opIndex fs i = some v[i]?) : visited fs = some v :=
  visitFrom_eq hIndex 0

/-! ## Sorting -/

/-- The comparison of the indexes. -/
def byName (files : List FileInfo) (i j : Nat) : Ordering :=
  match files[i]?, files[j]? with
  | some p₁, some p₂ => sortCmp .byNameFlat false false p₁ p₂
  | _, _ => .eq

theorem byName_eq {files : List FileInfo} {i j : Nat} (hi : i < files.length)
    (hj : j < files.length) :
    byName files i j = compare files[i].name files[j].name := by
  unfold byName
  rw [List.getElem?_eq_getElem hi, List.getElem?_eq_getElem hj]
  rfl

/-- The set that `Sort` makes. -/
structure Sorts (lib : Lib) (fs : FileSet) (l : List FileInfo) (fs₁ : FileSet) : Prop where
  result : fs.sort lib .byNameFlat false false = .ok fs₁
  isFlat : fs₁.sortMode = some .byNameFlat
  perm : fs₁.files.Perm (l.map flatten)
  sorted : ∃ indexes, (indexes = List.range fs₁.files.length ∨ indexes = firstIndexes fs₁.files)
    ∧ fs₁.sorted = (if indexes = [] then fs.sorted.map fun _ => [] else some indexes).map
      (lib.qsortInd (byName fs₁.files))

theorem inOrder_qsort (hFiles : Sorting.QSorts lib.qsortFiles) (l : List FileInfo) :
    InOrder (lib.qsortFiles (fun f g => strcmp f.name g.name) l) :=
  hFiles.sorted _ l (Sorting.consistent_of_key FileInfo.name fun _ _ _ _ => rfl)

/-- The set with these files and the indexes of them. -/
def indexed (lib : Lib) (fs : FileSet) (files : List FileInfo) (indexes : List Nat) : FileSet :=
  { fs with
    files := files
    sorted := (if indexes = [] then fs.sorted.map fun _ => [] else some indexes).map
      (lib.qsortInd (byName files))
    sortMode := some .byNameFlat }

theorem sort_sorts (hFiles : Sorting.QSorts lib.qsortFiles) (h : Holds fs l)
    (hMode : fs.sortMode ≠ none) : ∃ fs₁, Sorts lib fs l fs₁ := by
  obtain ⟨mode, hMode⟩ := Option.ne_none_iff_exists'.mp hMode
  cases h with
  | long notFlat files =>
      have hNot : mode ≠ .byNameFlat := fun hEq => notFlat (hMode.trans (congrArg some hEq))
      let files₁ := lib.qsortFiles (fun f g => strcmp f.name g.name) (l.map flatten)
      refine ⟨indexed lib fs files₁ (firstIndexes files₁), ?_, rfl, hFiles.perm _ _, _,
        .inr rfl, rfl⟩
      unfold FileSet.sort
      rw [if_neg (by decide), if_pos rfl, hMode, files]
      simp only [ok_bind, decide_eq_true hNot, if_true]
      rfl
  | short isFlat files =>
      refine ⟨indexed lib fs fs.files (List.range fs.files.length), ?_, rfl, files, _,
        .inl rfl, rfl⟩
      unfold FileSet.sort
      rw [if_neg (by decide), if_pos rfl, isFlat]
      rfl

/-- No name has come before, if they all differ. -/
theorem firstIndexes_eq {files : List FileInfo} (h : (files.map FileInfo.name).Nodup) :
    firstIndexes files = List.range files.length := by
  unfold firstIndexes
  apply List.filter_eq_self.mpr
  intro i hi
  have hLt : i < files.length := List.mem_range.mp hi
  rw [List.all_eq_true]
  intro f hf
  obtain ⟨j, hj, rfl⟩ := List.mem_iff_getElem.mp hf
  rw [List.length_take] at hj
  rw [List.getElem_take, List.getElem?_eq_getElem hLt, Option.map_some, Option.getD_some,
    decide_eq_true_eq]
  exact List.pairwise_iff_getElem.mp (List.pairwise_map.mp h) j i (by omega) hLt (by omega)

theorem mapM_ok {α β ε : Type} {f : α → Except ε β} {g : α → β} {l : List α}
    (h : ∀ a ∈ l, f a = .ok (g a)) : l.mapM f = .ok (l.map g) := by
  induction l with
  | nil => rfl
  | cons a l ih =>
      rw [List.mapM_cons, h a List.mem_cons_self,
        ih fun b hb => h b (List.mem_cons_of_mem a hb)]
      rfl

/-- What `UnsortFlat` does to the names. -/
def restored (f : FileInfo) : FileInfo := { f with name := f.longname.getD [], longname := none }

theorem unsortFlat_eq (h : fs.files.Perm (l.map flatten)) :
    fs.unsortFlat lib = .ok { fs with
      files := lib.qsortFiles (fun f g => strcmp f.name g.name) (fs.files.map restored) } := by
  unfold FileSet.unsortFlat
  rw [mapM_ok (g := restored)]
  · rfl
  · intro f hf
    obtain ⟨g, -, hEq⟩ := List.mem_map.mp (h.subset hf)
    rw [← hEq]
    rfl

/-- The long names are given back, and the files put in their order. -/
theorem unsort_flat (hFiles : Sorting.QSorts lib.qsortFiles) (hOrder : InOrder l)
    (hNodup : (l.map FileInfo.name).Nodup) (hMode : fs.sortMode = some .byNameFlat)
    (h : fs.files.Perm (l.map flatten)) : ∃ fs', fs.unsort lib = .ok fs' ∧ fs'.sorted = none
      ∧ fs'.files = l.map plain := by
  have hNames : (l.map plain).map FileInfo.name = l.map FileInfo.name := by
    rw [List.map_map]
    rfl
  have hPerm : (fs.files.map restored).Perm (l.map plain) := by
    have hMap := h.map restored
    rwa [List.map_map] at hMap
  have hPlain : InOrder (l.map plain) := List.pairwise_map.mpr hOrder
  have hUnsort : FileSet.unsortFlat lib { fs with sorted := none } = .ok { fs with
      sorted := none
      files := lib.qsortFiles (fun f g => strcmp f.name g.name) (fs.files.map restored) } :=
    unsortFlat_eq h
  unfold FileSet.unsort
  rw [hMode]
  simp only [if_true, hMode] at hUnsort ⊢
  rw [hUnsort]
  refine ⟨_, rfl, rfl, ?_⟩
  refine (Sorting.sorted_unique _ hPlain (inOrder_qsort hFiles _) ?_ ?_).symm
  · exact hPerm.symm.trans (hFiles.perm _ _).symm
  · rw [hNames]
    exact hNodup

/-- What the indexes stand for. -/
theorem exists_read {files : List FileInfo} {indexes : List Nat}
    (hNodup : (files.map FileInfo.name).Nodup) (hPerm : indexes.Perm (List.range files.length))
    (hSorted : indexes.Pairwise (byName files · · ≠ .gt)) :
    ∃ v : List FileInfo, v.length = files.length
      ∧ (∀ i : Nat, i < files.length →
        (indexes[i]?.bind fun k => files[k]?.map some) = some v[i]?)
      ∧ (v.map FileInfo.name).Pairwise (compare · · = .lt) ∧ ∀ f, f ∈ v ↔ f ∈ files := by
  have hLt : ∀ k ∈ indexes, k < files.length :=
    fun k hk => List.mem_range.mp (hPerm.subset hk)
  have hLength : indexes.length = files.length :=
    hPerm.length_eq.trans List.length_range
  refine ⟨indexes.pmap (fun k hk => files[k]) hLt, ?_, ?_, ?_, ?_⟩
  · rw [List.length_pmap, hLength]
  · intro i hi
    have hIndex : i < indexes.length := by omega
    have hInside : indexes[i] < files.length := hLt _ (List.getElem_mem hIndex)
    rw [List.getElem?_eq_getElem hIndex, Option.bind_some, List.getElem?_eq_getElem hInside,
      List.getElem?_eq_getElem (by rw [List.length_pmap]; exact hIndex), List.getElem_pmap]
    rfl
  · have hDistinct : indexes.Nodup := hPerm.symm.nodup List.nodup_range
    rw [List.pairwise_map]
    refine (hSorted.and hDistinct).pmap hLt fun i hi j hj hBoth => ?_
    have hNot := hBoth.1
    rw [byName_eq hi hj] at hNot
    cases hCmp : compare files[i].name files[j].name with
    | lt => rfl
    | eq =>
        have hEq : files[i] = files[j] := List.inj_on_of_nodup_map hNodup (List.getElem_mem hi)
          (List.getElem_mem hj) (Std.LawfulEqOrd.eq_of_compare hCmp)
        exact absurd (hNodup.of_map.getElem_inj_iff.mp hEq) hBoth.2
    | gt => exact absurd hCmp hNot
  · intro f
    rw [List.mem_pmap]
    constructor
    · rintro ⟨k, hk, rfl⟩
      exact List.getElem_mem _
    · intro hf
      obtain ⟨k, hk, hEq⟩ := List.mem_iff_getElem.mp hf
      exact ⟨k, hPerm.symm.subset (List.mem_range.mpr hk), hEq⟩

theorem opIndex_sorted (hInd : Sorting.QSorts lib.qsortInd) {sorted : Option (List Nat)}
    (hNodup : (fs.files.map FileInfo.name).Nodup)
    (hSorted : fs.sorted = (if List.range fs.files.length = [] then sorted.map fun _ => []
      else some (List.range fs.files.length)).map (lib.qsortInd (byName fs.files))) :
    ∃ v : List FileInfo, (∀ i : Nat, opIndex fs i = some v[i]?)
      ∧ (v.map FileInfo.name).Pairwise (compare · · = .lt) ∧ ∀ f, f ∈ v ↔ f ∈ fs.files := by
  have hConsistent : Sorting.Consistent (byName fs.files) (List.range fs.files.length) := by
    apply Sorting.consistent_of_key fun i => (fs.files[i]?.map FileInfo.name).getD []
    intro i hi j hj
    have hi' := List.mem_range.mp hi
    have hj' := List.mem_range.mp hj
    rw [byName_eq hi' hj', List.getElem?_eq_getElem hi', List.getElem?_eq_getElem hj']
    rfl
  obtain ⟨v, hLength, hRead, hAscending, hMem⟩ := exists_read hNodup
    (hInd.perm (byName fs.files) _) (hInd.sorted _ _ hConsistent)
  refine ⟨v, fun i => ?_, hAscending, hMem⟩
  by_cases hi : i < fs.files.length
  · have hSome : List.range fs.files.length ≠ [] := by
      intro hNil
      rw [List.range_eq_nil] at hNil
      omega
    rw [if_neg hSome, Option.map_some] at hSorted
    unfold opIndex
    rw [hSorted, if_neg (by omega)]
    exact hRead i hi
  · rw [List.getElem?_eq_none (by omega)]
    exact opIndex_end (by omega)

/-- The short names are enumerated if they differ, and the set was not copied from another. -/
theorem sort_enumerates_iff (hFiles : Sorting.QSorts lib.qsortFiles)
    (hInd : Sorting.QSorts lib.qsortInd) (hOrder : InOrder l) (h : Holds fs l) :
    Enumerates lib fs l
      ↔ fs.sortMode ≠ none ∧ (l.map fun f => basenamePtr f.name).Nodup := by
  have hShort : (l.map flatten).map FileInfo.name = l.map fun f => basenamePtr f.name := by
    rw [List.map_map]
    rfl
  constructor
  · rintro ⟨fs₁, v, fs₂, hSort, -, hIndex, hAscending, hFrom, -, -⟩
    have hMode : fs.sortMode ≠ none := by
      intro hNone
      unfold FileSet.sort at hSort
      rw [if_neg (by decide), if_pos rfl, hNone] at hSort
      cases hSort
    refine ⟨hMode, ?_⟩
    obtain ⟨_, hSorts⟩ := sort_sorts hFiles h hMode
    cases hSort.symm.trans hSorts.result
    -- every file of the set is read, so no name can be missing
    have hLength : l.length ≤ v.length := by
      by_contra hNot
      have hInside : v.length < fs₁.files.length := by
        rw [hSorts.perm.length_eq, List.length_map]
        omega
      apply opIndex_inside hInside
      rw [hIndex, List.getElem?_eq_none (Nat.le_refl _)]
    have hDistinct := Sorting.nodup_of_lt hAscending
    have hSubset : v.map FileInfo.name ⊆ l.map fun f => basenamePtr f.name := by
      rw [← hShort]
      exact List.map_subset _ hFrom
    have hPerm := (List.subperm_of_subset hDistinct hSubset).perm_of_length_le
      (by simpa using hLength)
    exact hPerm.nodup hDistinct
  · rintro ⟨hMode, hNodup⟩
    obtain ⟨fs₁, hSorts⟩ := sort_sorts hFiles h hMode
    have hNames : (fs₁.files.map FileInfo.name).Nodup := by
      refine (hSorts.perm.map _).symm.nodup ?_
      rw [hShort]
      exact hNodup
    obtain ⟨indexes, hIndexes, hSorted⟩ := hSorts.sorted
    have hAll : indexes = List.range fs₁.files.length := by
      rcases hIndexes with hRange | hFirst
      · exact hRange
      · rw [hFirst, firstIndexes_eq hNames]
    rw [hAll] at hSorted
    obtain ⟨v, hIndex, hAscending, hMem⟩ := opIndex_sorted hInd hNames hSorted
    have hLong : (l.map FileInfo.name).Nodup := by
      apply List.Nodup.of_map basenamePtr
      rw [List.map_map]
      exact hNodup
    obtain ⟨fs₂, hUnsort, hUnsorted, hPlain⟩ :=
      unsort_flat hFiles hOrder hLong hSorts.isFlat hSorts.perm
    refine ⟨fs₁, v, fs₂, hSorts.result, visited_eq hIndex, hIndex, hAscending, fun f hf => ?_,
      fun f hf => ?_, hUnsort, hUnsorted, hPlain⟩
    · exact hSorts.perm.subset ((hMem f).mp hf)
    · have hFlat := hSorts.perm.symm.subset (List.mem_map_of_mem hf)
      exact List.mem_map.mpr ⟨_, (hMem _).mpr hFlat, rfl⟩

/-- A file of which the name is known. -/
def fileNamed (name : Bytes) : FileInfo :=
  ⟨name, none, none, 0, ⟨noDate, 0⟩, 0, none, none, 0, .unknown, Defined.name, 0⟩

/-- A C library with insertion sort. -/
def insertionLib : Lib :=
  ⟨Sorting.insertionSorted, Sorting.insertionSorted, fun _ _ => none⟩

/-- A set with the files. -/
def setOf (files : List FileInfo) : FileSet := ⟨files, none, some .byName, 0⟩

/-- `a/x` and `b/y` -/
def twoShort : List FileInfo := [fileNamed [97, 47, 120], fileNamed [98, 47, 121]]

theorem sort_enumerates_two :
    InOrder twoShort ∧ Holds (setOf twoShort) twoShort
      ∧ Enumerates insertionLib (setOf twoShort) twoShort := by
  have hOrder : InOrder twoShort := by
    unfold InOrder
    decide +kernel
  have hHolds : Holds (setOf twoShort) twoShort := .long (by decide) rfl
  exact ⟨hOrder, hHolds, (sort_enumerates_iff Sorting.qsorts_insertionSorted
    Sorting.qsorts_insertionSorted hOrder hHolds).mpr ⟨by decide, by decide +kernel⟩⟩

/-- `a/x` and `b/x` -/
def sameShort : List FileInfo := [fileNamed [97, 47, 120], fileNamed [98, 47, 120]]

/-- Two files are counted, and there is one index. -/
theorem sort_reads_outside :
    InOrder sameShort ∧ Holds (setOf sameShort) sameShort
      ∧ (((setOf sameShort).sort insertionLib .byNameFlat false false).toOption.map fun fs₁ =>
        (fs₁.sorted, fs₁.files.length, (opIndex fs₁ 1).isSome, (visited fs₁).isSome))
        = some (some [0], 2, false, false)
      ∧ ¬ Enumerates insertionLib (setOf sameShort) sameShort := by
  have hRun : (((setOf sameShort).sort insertionLib .byNameFlat false false).toOption.map
      fun fs₁ => (fs₁.sorted, fs₁.files.length, (opIndex fs₁ 1).isSome, (visited fs₁).isSome))
      = some (some [0], 2, false, false) := by decide +kernel
  refine ⟨?_, .long (by decide) rfl, hRun, ?_⟩
  · unfold InOrder
    decide +kernel
  · rintro ⟨fs₁, v, fs₂, hSort, hVisited, -⟩
    rw [hSort] at hRun
    simp [Except.toOption, hVisited] at hRun

end Lftp.Ports.FlatSort
