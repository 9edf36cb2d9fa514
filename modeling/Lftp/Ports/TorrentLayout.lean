import Lftp.Ports.TorrentStorage
import Mathlib.Data.List.Pairwise

/-!
# Finding the file of a position

`TorrentFiles` and `FindByPosition` with positions as they are, `off_t` of 64 bits that
go around. `TorrentStorage` takes them for numbers; `findByPosition_cast` says that
there is no difference as long as the lengths add up to an `off_t`, and
`findByPosition_inverse_iff` that the search is right in no other case.

A torrent without `info/files` is the list of its one file.
-/

namespace Lftp.Ports.TorrentLayout

open Lftp.Verified

/-- What two's complement makes of a sum. -/
def offT (n : Int) : Int := n.bmod (2 ^ 64)

/-- A file of the torrent: its length is an `off_t`, and not negative. -/
structure Entry where
  path : Bytes
  length : Nat
  length_lt : length < 2 ^ 63

structure TorrentFile where
  path : Bytes
  pos : Int
  length : Int
deriving DecidableEq

/-- `contains_pos`. -/
def TorrentFile.containsPos (f : TorrentFile) (p : Int) : Bool :=
  f.pos ≤ p && p < offT (f.pos + f.length)

/-- `pos_cmp`. -/
def posCmp (a b : TorrentFile) : Int :=
  if a.pos < b.pos then -1
  else if b.pos < a.pos then 1
  else if a.length ≠ b.length then (if a.length < b.length then -1 else 1)
  else 0

/-- The loop of the constructor. -/
def scanFiles : Int → List Entry → List TorrentFile
  | _, [] => []
  | scanPos, e :: es => ⟨e.path, scanPos, e.length⟩ :: scanFiles (offT (scanPos + e.length)) es

/-- What `TorrentFiles::TorrentFiles` leaves after `qsort`. -/
structure TorrentFiles (entries : List Entry) where
  files : List TorrentFile
  perm : files.Perm (scanFiles 0 entries)
  sorted : files.Pairwise fun a b => posCmp a b ≤ 0

/-- A turn of `FindByPosition`, on the range `[i,j]`. -/
def findTurn (files : List TorrentFile) (pos : Int) :
    Int × Int → (Int × Int) ⊕ Option TorrentFile
  | (i, j) =>
    if i ≤ j then
      let m := (i + j) / 2
      match files[m.toNat]? with
      | none => .inr none
      | some f =>
        if f.containsPos pos then .inr (some f)
        else if f.pos > pos then .inl (i, m - 1)
        else .inl (m + 1, j)
    else .inr none

/-- `TorrentFiles::FindByPosition`. -/
def findByPosition (files : List TorrentFile) (pos : Int) : Option TorrentFile :=
  (loop (findTurn files pos) (files.length + 1) (0, files.length - 1)).join

/-- The exact length of the torrent. -/
def totalLength (entries : List Entry) : Nat := (entries.map Entry.length).sum

/-- The file reaches over the position, without any bound on numbers. -/
def Owns (f : TorrentFile) (p : Int) : Prop := f.length ≠ 0 ∧ f.pos ≤ p ∧ p < f.pos + f.length

/-- The search is the inverse of the layout, for every position that an `off_t` can be. -/
structure Inverse {entries : List Entry} (t : TorrentFiles entries) : Prop where
  inside : ∀ p : Int, 0 ≤ p → p < 2 ^ 63 → p < totalLength entries →
    ∃ f ∈ t.files, Owns f p ∧ (∀ g ∈ t.files, Owns g p → g = f) ∧ findByPosition t.files p = some f
  outside : ∀ p : Int, -2 ^ 63 ≤ p → p < 2 ^ 63 → p < 0 ∨ totalLength entries ≤ p →
    findByPosition t.files p = none

theorem offT_of_lt {n : Int} (hPos : 0 ≤ n) (hLt : n < 2 ^ 63) : offT n = n := by
  unfold offT
  rw [Int.bmod_eq_of_le] <;> omega

/-- A sum that is no `off_t` becomes negative. -/
theorem offT_neg {n : Int} (hLe : 2 ^ 63 ≤ n) (hLt : n < 2 ^ 64) : offT n < 0 := by
  unfold offT Int.bmod
  dsimp only
  split <;> omega

/-- What the search finds contains the position. -/
theorem containsPos_of_find {files : List TorrentFile} {p : Int} {f : TorrentFile}
    (h : findByPosition files p = some f) : f ∈ files ∧ f.containsPos p = true := by
  unfold findByPosition at h
  cases hLoop : loop (findTurn files p) (files.length + 1) (0, files.length - 1) with
  | none =>
      rw [hLoop] at h
      cases h
  | some r =>
      rw [hLoop] at h
      have hResult : ∀ g, r = some g → g ∈ files ∧ g.containsPos p = true := by
        refine Leaves.rule (I := fun _ => True)
          (Q := fun r => ∀ g, r = some g → g ∈ files ∧ g.containsPos p = true)
          (fun _ _ _ _ => trivial) ?_ ⟨_, hLoop⟩ trivial
        intro s r _ hTurn g hg
        obtain ⟨i, j⟩ := s
        unfold findTurn at hTurn
        dsimp only at hTurn
        by_cases hRange : i ≤ j
        · rw [if_pos hRange] at hTurn
          cases hAt : files[((i + j) / 2).toNat]? with
          | none =>
              rw [hAt] at hTurn
              cases hTurn
              cases hg
          | some f' =>
              rw [hAt] at hTurn
              dsimp only at hTurn
              split_ifs at hTurn with hHit hBefore
              cases hTurn
              cases hg
              exact ⟨List.mem_of_getElem? hAt, hHit⟩
        · rw [if_neg hRange] at hTurn
          cases hTurn
          cases hg
      exact hResult f h

/-! ## Where the lengths add up to an `off_t` -/

/-- The same entries for the model of storage. -/
def pairs (entries : List Entry) : List (Bytes × Nat) := entries.map fun e => (e.path, e.length)

theorem total_pairs (entries : List Entry) : Layout.total (pairs entries) = totalLength entries := by
  unfold Layout.total pairs totalLength
  rw [List.map_map]
  rfl

/-- A file of the model of storage, as one with positions of its type. -/
def cast (f : TorrentStorage.TorrentFile) : TorrentFile := ⟨f.path, f.pos, f.length⟩

theorem scanFiles_cast {entries : List Entry} {scanPos : Nat}
    (h : scanPos + totalLength entries < 2 ^ 63) :
    scanFiles scanPos entries = (TorrentStorage.scanFiles scanPos (pairs entries)).map cast := by
  induction entries generalizing scanPos with
  | nil => rfl
  | cons e es ih =>
      have hTotal : totalLength (e :: es) = e.length + totalLength es := rfl
      have hNext : offT ((scanPos : Int) + e.length) = ((scanPos + e.length : Nat) : Int) := by
        rw [offT_of_lt (by omega) (by omega)]
        rfl
      rw [scanFiles, hNext, ih (by omega)]
      rfl

theorem posCmp_cast (a b : TorrentStorage.TorrentFile) :
    posCmp (cast a) (cast b) = TorrentStorage.posCmp a b := by
  unfold posCmp TorrentStorage.posCmp cast
  dsimp only
  split_ifs <;> omega

theorem end_le_of_mem {entries : List (Bytes × Nat)} {scanPos : Nat} {f : TorrentStorage.TorrentFile}
    (h : f ∈ TorrentStorage.scanFiles scanPos entries) :
    f.pos + f.length ≤ scanPos + Layout.total entries := by
  induction entries generalizing scanPos with
  | nil => cases h
  | cons e es ih =>
      have hTotal : Layout.total (e :: es) = e.2 + Layout.total es := by
        simp [Layout.total]
      rcases List.mem_cons.mp h with rfl | h
      · dsimp only
        omega
      · have hRest := ih h
        omega

theorem containsPos_cast {f : TorrentStorage.TorrentFile} (h : f.pos + f.length < 2 ^ 63) (p : Nat) :
    (cast f).containsPos p = f.containsPos p := by
  unfold TorrentFile.containsPos TorrentStorage.TorrentFile.containsPos cast
  dsimp only
  rw [offT_of_lt (by omega) (by omega)]
  congr 1 <;> exact decide_eq_decide.mpr (by omega)

/-- The numbers of a file of the torrent. -/
def uncast (f : TorrentFile) : TorrentStorage.TorrentFile := ⟨f.path, f.pos.toNat, f.length.toNat⟩

/-- The files are those of the model of storage. -/
theorem exists_storage {entries : List Entry} (t : TorrentFiles entries)
    (h : totalLength entries < 2 ^ 63) :
    ∃ u : TorrentStorage.TorrentFiles (pairs entries), t.files = u.files.map cast := by
  have hScan : scanFiles 0 entries = (TorrentStorage.scanFiles 0 (pairs entries)).map cast :=
    scanFiles_cast (by rw [Nat.zero_add]; exact h)
  have hPerm := t.perm
  rw [hScan] at hPerm
  have hBack : (t.files.map uncast).map cast = t.files := by
    rw [List.map_map]
    refine (List.map_congr_left fun f hf => ?_).trans (List.map_id t.files)
    obtain ⟨g, -, rfl⟩ := List.mem_map.mp (hPerm.mem_iff.mp hf)
    rfl
  have hFiles : (t.files.map uncast).Perm (TorrentStorage.scanFiles 0 (pairs entries)) := by
    have hMap := hPerm.map uncast
    rw [List.map_map] at hMap
    exact hMap.trans (List.Perm.of_eq (List.map_id _))
  refine ⟨⟨t.files.map uncast, hFiles, ?_⟩, hBack.symm⟩
  have hSorted := t.sorted
  rw [← hBack, List.pairwise_map] at hSorted
  exact hSorted.imp fun hCmp => by rwa [posCmp_cast] at hCmp

/-- The search finds the same file. -/
theorem findByPosition_cast {files : List TorrentStorage.TorrentFile}
    (hEnd : ∀ f ∈ files, f.pos + f.length < 2 ^ 63) (p : Nat) :
    findByPosition (files.map cast) p = (TorrentStorage.findByPosition files p).map cast := by
  have hTurn : ∀ s, findTurn (files.map cast) p s
      = (TorrentStorage.findTurn files p s).map id (Option.map cast) := by
    rintro ⟨i, j⟩
    unfold findTurn TorrentStorage.findTurn
    dsimp only
    by_cases hRange : i ≤ j
    · rw [if_pos hRange, if_pos hRange, List.getElem?_map]
      cases hAt : files[((i + j) / 2).toNat]? with
      | none => rfl
      | some f =>
          have hHere := containsPos_cast (hEnd f (List.mem_of_getElem? hAt)) p
          have hBefore : ((cast f).pos > (p : Int)) = (p < f.pos) :=
            propext (Int.ofNat_lt (n := p) (m := f.pos))
          dsimp only [Option.map_some]
          rw [hHere]
          by_cases hHit : f.containsPos p = true
          · rw [if_pos hHit, if_pos hHit]
            rfl
          · rw [if_neg hHit, if_neg hHit]
            by_cases hLess : p < f.pos
            · rw [if_pos hLess, if_pos (hBefore ▸ hLess)]
              rfl
            · rw [if_neg hLess, if_neg (hBefore ▸ hLess)]
              rfl
    · rw [if_neg hRange, if_neg hRange]
      rfl
  have hLoop : ∀ n s, loop (findTurn (files.map cast) p) n s
      = (loop (TorrentStorage.findTurn files p) n s).map (Option.map cast) := by
    intro n
    induction n with
    | zero => exact fun _ => rfl
    | succ n ih =>
        intro s
        unfold loop
        rw [hTurn s]
        cases TorrentStorage.findTurn files p s with
        | inl s' => exact ih s'
        | inr r => rfl
  unfold findByPosition TorrentStorage.findByPosition
  rw [hLoop, List.length_map]
  cases loop (TorrentStorage.findTurn files p) (files.length + 1) (0, (files.length : Int) - 1) with
  | none => rfl
  | some r => rfl

/-! ## The search and the layout -/

theorem owns_cast_iff {f : TorrentStorage.TorrentFile} {p : Nat} :
    Owns (cast f) p ↔ f.containsPos p = true := by
  unfold Owns cast TorrentStorage.TorrentFile.containsPos
  simp only [Bool.and_eq_true, decide_eq_true_eq]
  omega

instance : Std.Symm TorrentStorage.Apart := ⟨fun _ _ h => Or.symm h⟩

/-- As long as the lengths add up to an `off_t`. -/
theorem inverse_of_lt {entries : List Entry} (t : TorrentFiles entries)
    (h : totalLength entries < 2 ^ 63) : Inverse t := by
  obtain ⟨u, hFiles⟩ := exists_storage t h
  have hEnd : ∀ f ∈ u.files, f.pos + f.length ≤ totalLength entries := by
    intro f hf
    have hLe := end_le_of_mem (u.perm.mem_iff.mp hf)
    rw [total_pairs] at hLe
    omega
  have hFind : ∀ p : Nat, findByPosition t.files p
      = (TorrentStorage.findByPosition u.files p).map cast := by
    intro p
    rw [hFiles]
    exact findByPosition_cast (fun f hf => by have := hEnd f hf; omega) p
  constructor
  · intro p hPos _ hTotal
    lift p to Nat using hPos
    obtain ⟨f, hf, hIn, hFound⟩ := TorrentStorage.findByPosition_spec u
      (p := p) (by rw [total_pairs]; omega)
    have hMem : f ∈ u.files := u.perm.mem_iff.mpr hf
    refine ⟨cast f, by rw [hFiles]; exact List.mem_map_of_mem hMem, owns_cast_iff.mpr hIn, ?_, ?_⟩
    · intro g hg hOwns
      rw [hFiles] at hg
      obtain ⟨g, hIs, rfl⟩ := List.mem_map.mp hg
      have hOther := owns_cast_iff.mp hOwns
      -- two files that contain one position are the same
      by_contra hNe
      have hApart : u.files.Pairwise TorrentStorage.Apart :=
        (u.perm.pairwise_iff fun h => Or.symm h).mpr (TorrentStorage.pairwise_scanFiles 0 _)
      have hTwo := hApart.forall hIs hMem fun hEq => hNe (congrArg cast hEq)
      simp only [TorrentStorage.TorrentFile.containsPos, Bool.and_eq_true, decide_eq_true_eq]
        at hIn hOther
      unfold TorrentStorage.Apart at hTwo
      omega
    · rw [hFind, hFound]
      rfl
  · intro p _ _ hOutside
    cases hFound : findByPosition t.files p with
    | none => rfl
    | some f =>
        obtain ⟨hMem, hIn⟩ := containsPos_of_find hFound
        rw [hFiles] at hMem
        obtain ⟨g, hg, rfl⟩ := List.mem_map.mp hMem
        have hLe := hEnd g hg
        unfold TorrentFile.containsPos cast at hIn
        dsimp only at hIn
        rw [offT_of_lt (by omega) (by omega)] at hIn
        simp only [Bool.and_eq_true, decide_eq_true_eq] at hIn
        omega

/-- The entries up to the first that ends behind every `off_t`. -/
theorem exists_overflow {entries : List Entry} {scanPos : Nat} (hStart : scanPos < 2 ^ 63)
    (h : 2 ^ 63 ≤ scanPos + totalLength entries) :
    ∃ pos : Nat, ∃ e : Entry, pos < 2 ^ 63 ∧ 2 ^ 63 ≤ pos + e.length
      ∧ pos + e.length ≤ scanPos + totalLength entries
      ∧ (⟨e.path, pos, e.length⟩ : TorrentFile) ∈ scanFiles scanPos entries := by
  induction entries generalizing scanPos with
  | nil =>
      have hZero : totalLength [] = 0 := rfl
      omega
  | cons e es ih =>
      have hTotal : totalLength (e :: es) = e.length + totalLength es := rfl
      rcases Nat.lt_or_ge (scanPos + e.length) (2 ^ 63) with hFits | hOver
      · obtain ⟨pos, e', hPos, hEnd, hLe, hMem⟩ := ih hFits (by omega)
        refine ⟨pos, e', hPos, hEnd, by omega, ?_⟩
        have hNext : offT ((scanPos : Int) + e.length) = ((scanPos + e.length : Nat) : Int) := by
          rw [offT_of_lt (by omega) (by omega)]
          rfl
        rw [scanFiles, hNext]
        exact List.mem_cons_of_mem _ hMem
      · exact ⟨scanPos, e, hStart, hOver, by omega, List.mem_cons_self⟩

/-- The search finds the one file that owns a position, and none for a position that is
not in the torrent, if and only if the lengths add up to an `off_t`. -/
theorem findByPosition_inverse_iff {entries : List Entry} (t : TorrentFiles entries) :
    Inverse t ↔ totalLength entries < 2 ^ 63 := by
  refine ⟨fun hInverse => ?_, inverse_of_lt t⟩
  by_contra hOver
  have hAll : 2 ^ 63 ≤ 0 + totalLength entries := by omega
  obtain ⟨pos, e, hPos, hEnd, hLe, hMem⟩ := exists_overflow (by decide) hAll
  have hLength := e.length_lt
  -- the end of this file is taken for a negative number
  obtain ⟨f, -, -, hOnly, hFound⟩ := hInverse.inside pos (by omega) (by omega) (by omega)
  have hSelf : (⟨e.path, pos, e.length⟩ : TorrentFile) = f := by
    refine hOnly _ (t.perm.mem_iff.mpr hMem) ⟨?_, ?_, ?_⟩
    · dsimp only
      omega
    · exact Int.le_refl _
    · dsimp only
      omega
  have hIn := (containsPos_of_find hFound).2
  rw [← hSelf] at hIn
  unfold TorrentFile.containsPos at hIn
  simp only [Bool.and_eq_true, decide_eq_true_eq] at hIn
  have hNeg := offT_neg (n := (pos : Int) + e.length) (by omega) (by omega)
  omega

/-- Three files that are too long together. -/
def threeHuge : List Entry :=
  [⟨bytes "a", 2 ^ 62, by decide⟩, ⟨bytes "b", 2 ^ 62, by decide⟩, ⟨bytes "c", 2 ^ 62, by decide⟩]

/-- The order in which `qsort` leaves them: the last position is a negative number. -/
def threeHugeFiles : TorrentFiles threeHuge where
  files := [⟨bytes "c", -2 ^ 63, 2 ^ 62⟩, ⟨bytes "a", 0, 2 ^ 62⟩, ⟨bytes "b", 2 ^ 62, 2 ^ 62⟩]
  perm := by decide
  sorted := by decide

/-- The second file is not found. -/
theorem not_findByPosition_inverse :
    ¬ ∀ (entries : List Entry) (t : TorrentFiles entries), Inverse t := by
  intro hAll
  obtain ⟨f, -, -, -, hFound⟩ := (hAll threeHuge threeHugeFiles).inside (2 ^ 62) (by decide)
    (by decide) (by decide)
  have hNone : findByPosition threeHugeFiles.files (2 ^ 62) = none := by decide
  rw [hNone] at hFound
  cases hFound

end Lftp.Ports.TorrentLayout
