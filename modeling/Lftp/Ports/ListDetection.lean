import Lftp.Ports.MlsdListing
import Mathlib.Data.Set.Finite.Lemmas

/-!
# Detecting a listing of MLSD lines

Which listings `ParseLongList` reads as they are meant. Ties favour the parsers before the one
for MLSD, and a line that such a parser ignores is no error; and lines with the same name make
one file, which keeps the type and the size of the first unless `MergeInfo` takes over a mode.

* `lookup_infos`: what is found under a name.
* `chosen_mlsd`: no parser but the one for MLSD keeps the longest name.
* `detection`: when every line becomes its file, and what becomes of all other listings.
-/

namespace Lftp.Ports.FtpListInfo

open Lftp.Verified Lftp.Ports.FileSets

/-! ## Merged files -/

/-- The size of a file, where it is known. -/
def SizeIs (fi : FileInfo) : Option Nat → Prop
  | none => fi.has Defined.size = false
  | some n => fi.has Defined.size = true ∧ fi.size = n

theorem SizeIs.unique {fi : FileInfo} {s s' : Option Nat} (h : SizeIs fi s) (h' : SizeIs fi s') :
    s = s' := by
  cases s with
  | none =>
      cases s' with
      | none => rfl
      | some n => exact absurd (h.symm.trans h'.1) nofun
  | some m =>
      cases s' with
      | none => exact absurd (h'.symm.trans h.1) nofun
      | some n => exact congrArg some (Int.ofNat.inj (h.2.symm.trans h'.2))

section
variable {a b : FileInfo}

/-- What a file with the same name does to the size, the type and the mode. -/
theorem merge_same (hName : b.name = a.name) (hType : a.knows .type = true) :
    (a.merge b).knows .size = (a.knows .size || b.knows .size)
      ∧ (a.merge b).size = (if a.newIn b .size then b.size else a.size)
      ∧ (a.merge b).knows .type = true
      ∧ (a.merge b).filetype = (if a.newIn b .mode then .symlink else a.filetype)
      ∧ (a.merge b).knows .mode = (a.knows .mode || b.knows .mode) := by
  have hNew : ∀ x, (a.knows x || a.newIn b x) = (a.knows x || b.knows x) := by
    intro x
    unfold FileInfo.newIn
    cases a.knows x <;> rfl
  rw [FileInfo.merge_eq (by rw [hName]), FileInfo.knows_mergeInfo, FileInfo.knows_mergeInfo,
    FileInfo.knows_mergeInfo, hType, hNew, hNew, FileInfo.mergeInfo_eq,
    FileInfo.newIn_of_known hType]
  exact ⟨rfl, rfl, rfl, rfl, rfl⟩

/-- Files with one size have it after they are merged. -/
theorem sizeIs_foldl {files : List FileInfo} {s : Option Nat}
    (hNames : ∀ b ∈ files, b.name = a.name) (hType : a.knows .type = true) (ha : SizeIs a s)
    (hSizes : ∀ b ∈ files, SizeIs b s) : SizeIs (files.foldl FileInfo.merge a) s := by
  induction files generalizing a with
  | nil => exact ha
  | cons b files ih =>
      rw [List.forall_mem_cons] at hNames hSizes
      obtain ⟨hKnows, hSame, hType', -⟩ := merge_same hNames.1 hType
      have hName : (a.merge b).name = a.name := FileSet.merge_name a b
      apply ih _ hType' _ hSizes.2
      · rw [hName]
        exact hNames.2
      · cases s with
        | none =>
            have hNone : a.knows .size = false := ha
            have hNone' : b.knows .size = false := hSizes.1
            rw [hNone, hNone'] at hKnows
            exact hKnows
        | some n =>
            have hSome : a.knows .size = true := ha.1
            rw [hSome, Bool.true_or] at hKnows
            rw [FileInfo.newIn_of_known hSome] at hSame
            exact ⟨hKnows, hSame.trans ha.2⟩

/-- A size comes from one of the files. -/
theorem size_foldl {files : List FileInfo} {n : Int}
    (hNames : ∀ b ∈ files, b.name = a.name) (hType : a.knows .type = true) (ha : a.size < n)
    (hSizes : ∀ b ∈ files, b.size < n) : (files.foldl FileInfo.merge a).size < n := by
  induction files generalizing a with
  | nil => exact ha
  | cons b files ih =>
      rw [List.forall_mem_cons] at hNames hSizes
      obtain ⟨-, hSame, hType', -⟩ := merge_same hNames.1 hType
      have hName : (a.merge b).name = a.name := FileSet.merge_name a b
      apply ih _ hType' _ hSizes.2
      · rw [hName]
        exact hNames.2
      · rw [hSame]
        split
        · exact hSizes.1
        · exact ha

/-- The type is that of the first file, unless a mode is taken over. -/
theorem type_foldl {files : List FileInfo} (hNames : ∀ b ∈ files, b.name = a.name)
    (hType : a.knows .type = true) :
    (files.foldl FileInfo.merge a).knows .type = true ∧ (files.foldl FileInfo.merge a).filetype
      = if a.knows .mode = false ∧ ∃ b ∈ files, b.knows .mode = true then .symlink
        else a.filetype := by
  induction files generalizing a with
  | nil =>
      refine ⟨hType, (if_neg ?_).symm⟩
      rintro ⟨-, b, hb, -⟩
      exact List.not_mem_nil hb
  | cons b files ih =>
      rw [List.forall_mem_cons] at hNames
      obtain ⟨-, -, hType', hSame, hMode⟩ := merge_same hNames.1 hType
      have hName : (a.merge b).name = a.name := FileSet.merge_name a b
      obtain ⟨hKnown, hEq⟩ := ih (by rw [hName]; exact hNames.2) hType'
      refine ⟨hKnown, hEq.trans ?_⟩
      rw [hMode, hSame]
      unfold FileInfo.newIn
      cases ha : a.knows .mode
      · cases hb : b.knows .mode
        · simp [hb]
        · simp [hb]
      · simp

end

/-! ## The files of the lines -/

namespace MlsdLine

variable (env : Env) (l : MlsdLine)

theorem info_name : (l.info env).name = l.name := by
  rw [info, info_eq]

theorem info_type : (l.info env).knows .type = true ∧ (l.info env).filetype = l.typ.getD .unknown := by
  refine ⟨(has_info (folded env l.facts) l.name).2.2, ?_⟩
  rw [info, info_eq]
  show (folded env l.facts).type = _
  rw [folded_type, typeTold_facts]
  cases l.typ <;> rfl

theorem info_mode : (l.info env).knows .mode = (l.mode != -1) := by
  rw [mode, ← folded_perms env]
  exact (has_info (folded env l.facts) l.name).1

theorem info_size_eq : (folded env l.facts).size = (l.size.map fun n : Nat => clamp n).getD (-1) := by
  rw [folded_size, sizeTold_facts]

theorem info_size_lt : (l.info env).size < 2 ^ 63 := by
  have hClamp : ∀ n : Int, clamp n < 2 ^ 63 := by
    intro n
    unfold clamp
    omega
  have hSize : (folded env l.facts).size < 2 ^ 63 := by
    rw [info_size_eq]
    cases l.size with
    | none => decide
    | some n => exact hClamp n
  rw [info, info_eq]
  dsimp only
  split
  · exact hSize
  · decide

theorem info_sizeIs (h : ∀ n ∈ l.size, n < 2 ^ 63) : SizeIs (l.info env) l.size := by
  have hSize := info_size_eq env l
  have hHas := (has_info (folded env l.facts) l.name).2.1
  cases hl : l.size with
  | none =>
      rw [hl] at hSize
      show (l.info env).has Defined.size = false
      rw [info, hHas, hSize]
      rfl
  | some n =>
      have hLt := h n hl
      have hClamp : clamp n = n := by
        unfold clamp
        omega
      rw [hl, Option.map_some, Option.getD_some, hClamp] at hSize
      have hTest : ((folded env l.facts).size != -1) = true := by
        rw [hSize, bne_iff_ne]
        omega
      refine ⟨hHas.trans hTest, ?_⟩
      rw [info, info_eq]
      dsimp only
      rw [if_pos hTest, hSize]

/-- The entry of the MLSD parser. -/
theorem entry_text : entry (parseFtpLongListMLSD env) l.text
    = if l.typ = none then none else some (l.info env) := by
  have hSlash : ¬ (l.info env).name.contains (ch '/') = true := by
    rw [info_name, List.contains_iff_mem]
    exact l.name_byte.1
  have hChomp : chomp (ch '/') (l.info env).name = (l.info env).name := by
    apply if_neg
    intro h
    rw [info_name] at h
    exact l.name_byte.1 (List.mem_of_getLast? h)
  have hKept : kept (l.info env) = some (l.info env) := by
    unfold kept
    rw [hChomp, ite_self]
    exact if_neg hSlash
  rw [entry, cstr_text, parse_text]
  split
  · rfl
  · exact hKept

theorem isError_text : isError (parseFtpLongListMLSD env) l.text = l.typ.isNone := by
  rw [isError, cstr_text, parse_text]
  cases l.typ <;> rfl

end MlsdLine

/-- The lines with a name. -/
def withName (lines : List MlsdLine) (name : Bytes) : List MlsdLine :=
  lines.filter fun l => l.name = name

/-- What is found under a name: the files of the lines with the name, merged into the first. -/
theorem lookup_infos (env : Env) {lines : List MlsdLine} (hKnown : ∀ l ∈ lines, l.typ ≠ none)
    (name : Bytes) :
    Rows.lookup FileInfo.name (setOf (parseFtpLongListMLSD env) (lines.map MlsdLine.text)).files name
      = match withName lines name with
        | [] => none
        | first :: rest =>
          some ((rest.map fun l => l.info env).foldl FileInfo.merge (first.info env)) := by
  have hEntries : (lines.map MlsdLine.text).filterMap (entry (parseFtpLongListMLSD env))
      = lines.map fun l => l.info env := by
    rw [List.filterMap_map, ← List.filterMap_eq_map]
    apply List.filterMap_congr
    intro l hl
    exact (l.entry_text env).trans (if_neg (hKnown l hl))
  have hNames : (lines.map fun l => l.info env).filter (fun fi => compare fi.name name == .eq)
      = (withName lines name).map fun l => l.info env := by
    rw [List.filter_map, withName]
    congr 1
    apply List.filter_congr
    intro l _
    show (compare (l.info env).name name == .eq) = decide (l.name = name)
    rw [l.info_name, Bool.eq_iff_iff, beq_iff_eq, decide_eq_true_iff,
      Std.LawfulEqOrd.compare_eq_iff_eq]
  rw [(setOf_files _ _).2, hEntries, hNames]
  cases withName lines name with
  | nil => rfl
  | cons first rest => exact Rows.foldl_join _ _

/-! ## Detection -/

/-- The file of a line. -/
structure FileOf (l : MlsdLine) (f : FileInfo) : Prop where
  name : f.name = l.name
  type : ∀ t ∈ l.typ, f.typeIs t = true
  size : SizeIs f l.size

/-- The listing is read without an error, and its files are those of the lines. -/
def Keeps (env : Env) (lines : List MlsdLine) : Prop :=
  ∃ set, parseLongList (lineParsers env) (listing lines) = (some set, 0)
    ∧ (set.files.map FileInfo.name).Nodup
    ∧ (∀ f ∈ set.files, ∃ l ∈ lines, f.name = l.name)
    ∧ ∀ l ∈ lines, ∃ f ∈ set.files, FileOf l f

/-- When a listing is read as it is meant: the types are known and the sizes fit, no parser
before the one for MLSD accepts all lines, and lines with the same name agree; a mode that the
first of them does not tell would make it a symbolic link. -/
structure Detected (env : Env) (lines : List MlsdLine) : Prop where
  known : ∀ l ∈ lines, l.typ ≠ none
  first : lines = [] ∨ ∀ i < 3, ¬ Accepts (parserAt (lineParsers env) i) (lines.map MlsdLine.text)
  sizes : ∀ l ∈ lines, ∀ n ∈ l.size, n < 2 ^ 63
  agree : ∀ name first rest, withName lines name = first :: rest → ∀ l ∈ rest,
    l.typ = first.typ ∧ l.size = first.size
      ∧ (first.mode = -1 → l.mode ≠ -1 → l.typ = some .symlink)

section
variable {env : Env} {lines : List MlsdLine}

theorem withName_mem {name : Bytes} {l : MlsdLine} :
    l ∈ withName lines name ↔ l ∈ lines ∧ l.name = name := by
  rw [withName, List.mem_filter, decide_eq_true_iff]

theorem accepts_iff (env : Env) : Accepts (parserAt (lineParsers env) 3) (lines.map MlsdLine.text)
    ↔ ∀ l ∈ lines, l.typ ≠ none := by
  unfold Accepts
  rw [List.forall_mem_map]
  refine forall₂_congr fun l _ => ?_
  show isError (parseFtpLongListMLSD env) l.text = false ↔ _
  rw [l.isError_text]
  cases l.typ <;> simp

/-- The files of the other lines with a name: their names, types and modes. -/
theorem type_merged (env : Env) {name : Bytes} {first : MlsdLine} {rest : List MlsdLine}
    (hGroup : withName lines name = first :: rest) :
    (∀ b ∈ rest.map fun l => l.info env, b.name = (first.info env).name)
      ∧ ((rest.map fun l => l.info env).foldl FileInfo.merge (first.info env)).knows .type = true
      ∧ ((rest.map fun l => l.info env).foldl FileInfo.merge (first.info env)).filetype
        = if first.mode = -1 ∧ ∃ l ∈ rest, l.mode ≠ -1 then .symlink
          else first.typ.getD .unknown := by
  have hName : ∀ l ∈ first :: rest, l.name = name := fun l hl => (withName_mem.mp (hGroup ▸ hl)).2
  have hNames : ∀ b ∈ rest.map fun l => l.info env, b.name = (first.info env).name := by
    rw [List.forall_mem_map]
    intro l hl
    rw [l.info_name, first.info_name, hName l (List.mem_cons_of_mem _ hl),
      hName first List.mem_cons_self]
  obtain ⟨hKnows, hType⟩ := type_foldl hNames (first.info_type env).1
  refine ⟨hNames, hKnows, hType.trans ?_⟩
  rw [(first.info_type env).2, first.info_mode]
  congr 1
  simp [MlsdLine.info_mode]

/-- What the MLSD parser makes of lines with known types is what they say, exactly where the
sizes fit and the lines agree. -/
theorem fileOf_iff (hKnown : ∀ l ∈ lines, l.typ ≠ none) {name : Bytes} {first : MlsdLine}
    {rest : List MlsdLine} (hGroup : withName lines name = first :: rest) :
    (∀ l ∈ first :: rest,
        FileOf l ((rest.map fun l => l.info env).foldl FileInfo.merge (first.info env)))
      ↔ (∀ l ∈ first :: rest, ∀ n ∈ l.size, n < 2 ^ 63) ∧ ∀ l ∈ rest,
        l.typ = first.typ ∧ l.size = first.size
          ∧ (first.mode = -1 → l.mode ≠ -1 → l.typ = some .symlink) := by
  have hMem : ∀ l ∈ first :: rest, l ∈ lines ∧ l.name = name := fun l hl =>
    withName_mem.mp (hGroup ▸ hl)
  obtain ⟨hNames, hKnows, hType⟩ := type_merged env hGroup
  have hMergedName : ((rest.map fun l => l.info env).foldl FileInfo.merge (first.info env)).name
      = name := by
    have hFound := lookup_infos env hKnown name
    rw [hGroup] at hFound
    exact (Rows.lookup_some hFound).2
  have hLess : ((rest.map fun l => l.info env).foldl FileInfo.merge (first.info env)).size
      < 2 ^ 63 := by
    apply size_foldl hNames (first.info_type env).1 (first.info_size_lt env)
    rw [List.forall_mem_map]
    exact fun l _ => l.info_size_lt env
  have hSizes : (∀ l ∈ first :: rest, ∀ n ∈ l.size, n < 2 ^ 63) →
      (∀ l ∈ rest, l.size = first.size) →
      SizeIs ((rest.map fun l => l.info env).foldl FileInfo.merge (first.info env)) first.size := by
    intro hFit hSame
    apply sizeIs_foldl hNames (first.info_type env).1
      (first.info_sizeIs env (hFit first List.mem_cons_self))
    rw [List.forall_mem_map]
    intro l hl
    rw [← hSame l hl]
    exact l.info_sizeIs env (hFit l (List.mem_cons_of_mem _ hl))
  generalize (rest.map fun l => l.info env).foldl FileInfo.merge (first.info env) = f
    at hKnows hType hMergedName hLess hSizes
  constructor
  · intro hFiles
    have hFirst := hFiles first List.mem_cons_self
    have hTyp : ∀ l ∈ first :: rest, l.typ = some f.filetype := by
      intro l hl
      obtain ⟨t, ht⟩ := Option.ne_none_iff_exists'.mp (hKnown l (hMem l hl).1)
      have hIs := (hFiles l hl).type t ht
      rw [FileInfo.typeIs, Bool.and_eq_true, decide_eq_true_iff] at hIs
      rw [ht, hIs.2]
    refine ⟨fun l hl n hn => ?_, fun l hl => ⟨?_, ?_, fun hFirstMode hMode => ?_⟩⟩
    · have hSize := (hFiles l hl).size
      rw [Option.mem_def.mp hn] at hSize
      have := hSize.2
      omega
    · rw [hTyp l (List.mem_cons_of_mem _ hl), hTyp first List.mem_cons_self]
    · exact (hFiles l (List.mem_cons_of_mem _ hl)).size.unique hFirst.size
    · rw [if_pos ⟨hFirstMode, l, hl, hMode⟩] at hType
      rw [hTyp l (List.mem_cons_of_mem _ hl), hType]
  · rintro ⟨hFit, hAgree⟩
    have hSize := hSizes hFit fun l hl => (hAgree l hl).2.1
    have hTyp : first.typ = some f.filetype := by
      obtain ⟨t, ht⟩ := Option.ne_none_iff_exists'.mp
        (hKnown first (hMem first List.mem_cons_self).1)
      by_cases hMode : first.mode = -1 ∧ ∃ l ∈ rest, l.mode ≠ -1
      · obtain ⟨hFirstMode, l, hl, hMode'⟩ := hMode
        rw [if_pos ⟨hFirstMode, l, hl, hMode'⟩] at hType
        rw [hType, ← (hAgree l hl).1]
        exact (hAgree l hl).2.2 hFirstMode hMode'
      · rw [if_neg hMode, ht] at hType
        rw [hType, ht]
        rfl
    intro l hl
    have hSame : l.typ = first.typ ∧ l.size = first.size := by
      rcases List.mem_cons.mp hl with rfl | hl
      · exact ⟨rfl, rfl⟩
      · exact ⟨(hAgree l hl).1, (hAgree l hl).2.1⟩
    refine ⟨hMergedName.trans (hMem l hl).2.symm, fun t ht => ?_, hSame.2 ▸ hSize⟩
    rw [hSame.1, hTyp] at ht
    cases ht
    exact FileInfo.typeIs_of hKnows rfl

/-- Another parser than that for MLSD loses the line with the longest name. -/
theorem chosen_mlsd {p : Nat} (hp : p < (lineParsers env).length) (hNe : lines ≠ [])
    (hFiles : ∀ l ∈ lines,
      ∃ f ∈ (setOf (parserAt (lineParsers env) p) (lines.map MlsdLine.text)).files, FileOf l f) :
    p = 3 := by
  by_contra hOther
  obtain ⟨first, hFirst⟩ := List.exists_mem_of_ne_nil lines hNe
  obtain ⟨l, hl, hLongest⟩ := Set.exists_max_image { l | l ∈ lines } (fun l => l.name.length)
    (List.finite_toSet lines) ⟨first, hFirst⟩
  obtain ⟨f, hf, hFile⟩ := hFiles l hl
  obtain ⟨line, hLine, fi, hEntry, hName⟩ := name_of_setOf hf
  obtain ⟨l', hl', rfl⟩ := List.mem_map.mp hLine
  have hShort := entry_shorter (parserAt_shortens env hp hOther) hEntry
  have hLong : l'.name.length ≤ l.name.length := hLongest l' hl'
  rw [hName, hFile.name] at hShort
  omega

theorem parseLongList_listing {s : LongList}
    (h : parseLines (lineParsers env) (lines.map MlsdLine.text) = some s) :
    parseLongList (lineParsers env) (listing lines) = (some (s.set s.chosen), s.err s.chosen) := by
  rw [parseLongList, listLines_listing, h]

theorem detected_of_keeps (h : Keeps env lines) : Detected env lines := by
  by_cases hNil : lines = []
  · subst hNil
    exact ⟨nofun, .inl rfl, nofun, nofun⟩
  obtain ⟨set, hParse, -, -, hFiles⟩ := h
  obtain ⟨s, hs⟩ : ∃ s, parseLines (lineParsers env) (lines.map MlsdLine.text) = some s := by
    cases hRun : parseLines (lineParsers env) (lines.map MlsdLine.text) with
    | none =>
        rw [parseLongList, listLines_listing, hRun] at hParse
        cases hParse
    | some s => exact ⟨s, rfl⟩
  have hSeven : (lineParsers env).length = 7 := rfl
  obtain ⟨hChosen, ⟨hErr, hSet⟩, -⟩ := run_tracks (by omega) hs
  rw [parseLongList_listing hs, Prod.mk.injEq, Option.some.injEq] at hParse
  rw [hSet] at hParse
  rw [← hParse.1] at hFiles
  have hThree := chosen_mlsd hChosen hNil hFiles
  have hKnown : ∀ l ∈ lines, l.typ ≠ none := by
    rw [← accepts_iff env, ← errors_eq_zero, ← hThree, ← hErr]
    exact hParse.2
  rw [hThree] at hFiles
  have hGroup : ∀ name first rest, withName lines name = first :: rest → ∀ l ∈ first :: rest,
      FileOf l ((rest.map fun l => l.info env).foldl FileInfo.merge (first.info env)) := by
    intro name first rest hGroup l hl
    obtain ⟨hMem, hName⟩ := withName_mem.mp (hGroup ▸ hl)
    obtain ⟨f, hf, hFile⟩ := hFiles l hMem
    have hFound := Rows.lookup_mem (setOf_files _ _).1 hf
    have hInfos := lookup_infos env hKnown name
    rw [hGroup] at hInfos
    rw [hFile.name, hName] at hFound
    rw [← Option.some.inj (hFound.symm.trans hInfos)]
    exact hFile
  constructor
  · exact hKnown
  · right
    intro i hi hAccepts
    obtain ⟨s', hs', hLe, -⟩ := run_first (by omega) hAccepts
    rw [hs, Option.some.injEq] at hs'
    rw [← hs', hThree] at hLe
    omega
  · intro l hl
    have hMem : l ∈ withName lines l.name := withName_mem.mpr ⟨hl, rfl⟩
    cases hCase : withName lines l.name with
    | nil =>
        rw [hCase] at hMem
        cases hMem
    | cons first rest =>
        rw [hCase] at hMem
        exact ((fileOf_iff hKnown hCase).mp (hGroup _ _ _ hCase)).1 l hMem
  · intro name first rest hCase
    exact ((fileOf_iff hKnown hCase).mp (hGroup _ _ _ hCase)).2

theorem keeps_of_detected (h : Detected env lines) : Keeps env lines := by
  rcases h.first with rfl | hFirst
  · refine ⟨emptySet, ?_, List.nodup_nil, ?_, ?_⟩
    · rw [parseLongList, listLines_listing]
      rfl
    · exact fun f hf => absurd hf List.not_mem_nil
    · exact fun l hl => absurd hl List.not_mem_nil
  have hSeven : (lineParsers env).length = 7 := rfl
  obtain ⟨s, hs, hChosen, hErr, hSet⟩ := run_least (by omega) ((accepts_iff env).mpr h.known) hFirst
  have hIncreasing := (setOf_files (parserAt (lineParsers env) 3) (lines.map MlsdLine.text)).1
  refine ⟨s.set 3, ?_, ?_, ?_, ?_⟩
  · rw [parseLongList_listing hs, hChosen, hErr]
  · rw [hSet, List.Nodup, List.pairwise_map]
    refine hIncreasing.imp fun hLess hEq => ?_
    rw [hEq, Std.ReflOrd.compare_self] at hLess
    cases hLess
  · intro f hf
    rw [hSet] at hf
    obtain ⟨line, hLine, fi, hEntry, hName⟩ := name_of_setOf hf
    obtain ⟨l, hl, rfl⟩ := List.mem_map.mp hLine
    have hInfo := (l.entry_text env).symm.trans hEntry
    rw [if_neg (h.known l hl), Option.some.injEq] at hInfo
    exact ⟨l, hl, by rw [← hName, ← hInfo, l.info_name]⟩
  · intro l hl
    have hFound := lookup_infos env h.known l.name
    have hMem : l ∈ withName lines l.name := withName_mem.mpr ⟨hl, rfl⟩
    cases hCase : withName lines l.name with
    | nil =>
        rw [hCase] at hMem
        cases hMem
    | cons first rest =>
        rw [hCase] at hFound hMem
        rw [hSet]
        refine ⟨_, (Rows.lookup_some hFound).1, ?_⟩
        apply (fileOf_iff h.known hCase).mpr ⟨?_, h.agree _ _ _ hCase⟩ l hMem
        exact fun l' hl' => h.sizes l' (withName_mem.mp (hCase ▸ hl')).1

/-- Exactly which listings of MLSD lines are read as they are meant, and exactly in which
listings the parser that is taken drops nothing that another one would keep. -/
theorem detection (env : Env) :
    (∀ lines, Keeps env lines ↔ Detected env lines) ∧
      ∀ buf, NothingDropped (lineParsers env) buf ↔ FirstKeeps (lineParsers env) buf :=
  ⟨fun _ => ⟨detected_of_keeps, keeps_of_detected⟩, nothingDropped_iff (lineParsers env)⟩

theorem digits_of_all {facts : List Fact}
    (h : (facts.all fun f =>
      !f.named (bytes "Size") || (f.value != [] && f.value.all isDigit)) = true) :
    ∀ f ∈ facts, f.named (bytes "Size") = true → f.value ≠ [] ∧ ∀ c ∈ f.value, isDigit c = true := by
  intro f hf hNamed
  have hOne := List.all_eq_true.mp h f hf
  simpa [hNamed] using hOne

/-- `ls` lines that begin with an `s` are ignored without an error. -/
theorem not_keeps_size : ¬ Keeps stillClock
    [⟨[plainFact (bytes "size") (bytes "3") (by decide) (by decide) (by decide),
      plainFact (bytes "type") (bytes "file") (by decide) (by decide) (by decide)],
      by decide, digits_of_all (by decide), bytes "a", by decide, by decide⟩] := by
  intro h
  rcases (detected_of_keeps h).first with hNil | hFirst
  · cases hNil
  · apply hFirst 0 (by decide)
    intro line hLine
    rw [List.mem_singleton.mp hLine]
    decide

end

end Lftp.Ports.FtpListInfo
