import Mathlib.Algebra.Group.Nat.Defs
import Mathlib.Algebra.Group.Int.Defs
import Lftp.Verified.Decimal
import Lftp.Verified.Layout
import Lftp.Verified.Loop

/-!
# The storage of blocks in the files of a torrent

A translation of `TorrentFiles`, `Torrent::FindFileByPosition`, the writing loop
of `StoreBlock` and `RetrieveBlock`. What `StoreBlock` does besides writing is
in `TorrentPeers` and `TorrentAccounting`. `qsort` promises no order among equal
elements, so a `TorrentFiles` is any sorted arrangement of the scanned files.

The parameter `begin` is called `start`. The disk is a map from paths to
contents. What a system call does is read from a schedule: it fails, or it moves
some of the bytes asked for.

* `findFileByPosition_spec`: the binary search finds the owner of a position.
* `storeLoop_spec` and `retrieve_spec` say what the two loops do on any schedule.
* `block_storage` puts them together.
-/

namespace Lftp.Ports.TorrentStorage

open Lftp.Verified
open Lftp.Verified.Layout

/-! ## The files -/

structure TorrentFile where
  path : Bytes
  pos : Nat
  length : Nat
deriving DecidableEq

/-- `contains_pos`. -/
def TorrentFile.containsPos (f : TorrentFile) (p : Nat) : Bool :=
  f.pos ≤ p && p < f.pos + f.length

/-- `pos_cmp`. -/
def posCmp (a b : TorrentFile) : Int :=
  if a.pos < b.pos then -1
  else if b.pos < a.pos then 1
  -- zero-sized files are placed before non-zero ones
  else if a.length ≠ b.length then (if a.length < b.length then -1 else 1)
  else 0

/-- The loop of the constructor, over the path and the length of each entry. -/
def scanFiles : Nat → List (Bytes × Nat) → List TorrentFile
  | _, [] => []
  | scanPos, (path, length) :: files =>
    ⟨path, scanPos, length⟩ :: scanFiles (scanPos + length) files

/-- What `TorrentFiles::TorrentFiles` leaves after `qsort`. -/
structure TorrentFiles (entries : List (Bytes × Nat)) where
  files : List TorrentFile
  perm : files.Perm (scanFiles 0 entries)
  sorted : files.Pairwise fun a b => posCmp a b ≤ 0

theorem posCmp_trans (a b c : TorrentFile) (hab : posCmp a b ≤ 0) (hbc : posCmp b c ≤ 0) :
    posCmp a c ≤ 0 := by
  unfold posCmp at *
  split_ifs at * <;> omega

theorem posCmp_total (a b : TorrentFile) : posCmp a b ≤ 0 ∨ posCmp b a ≤ 0 := by
  unfold posCmp
  split_ifs <;> omega

/-- One arrangement that `qsort` may leave. -/
def TorrentFiles.new (entries : List (Bytes × Nat)) : TorrentFiles entries where
  files := (scanFiles 0 entries).mergeSort fun a b => posCmp a b ≤ 0
  perm := List.mergeSort_perm _ _
  sorted := by
    have hSorted : ((scanFiles 0 entries).mergeSort fun a b => posCmp a b ≤ 0).Pairwise
        fun a b => decide (posCmp a b ≤ 0) = true :=
      List.pairwise_mergeSort (by simpa using posCmp_trans) (by simpa using posCmp_total) _
    simpa using hSorted

/-- A turn of the search in `FindByPosition`, on the range `[i,j]`. -/
def findTurn (files : List TorrentFile) (pos : Nat) :
    Int × Int → (Int × Int) ⊕ Option TorrentFile
  | (i, j) =>
    if i ≤ j then
      let m := (i + j) / 2
      match files[m.toNat]? with
      | none => .inr none
      | some f =>
        if f.containsPos pos then .inr (some f)
        else if pos < f.pos then .inl (i, m - 1)
        else .inl (m + 1, j)
    else .inr none

/-- `TorrentFiles::FindByPosition`; the range shrinks in every turn. -/
def findByPosition (files : List TorrentFile) (pos : Nat) : Option TorrentFile :=
  (loop (findTurn files pos) (files.length + 1) (0, files.length - 1)).join

/-- The members of `Torrent` that storage depends on. -/
structure Torrent where
  entries : List (Bytes × Nat)
  files : TorrentFiles entries
  pieceLength : Nat
  pieceLength_lt : pieceLength < 2 ^ 32

/-- `target_pos`. -/
def Torrent.targetPos (t : Torrent) (piece start : Nat) : Nat := piece * t.pieceLength + start

/-- `Torrent::FindFileByPosition`: the path, `f_pos` and `f_tail`. -/
def findFileByPosition (t : Torrent) (piece start : Nat) : Option (Bytes × Nat × Nat) :=
  (findByPosition t.files.files (t.targetPos piece start)).map fun file =>
    let fPos := t.targetPos piece start - file.pos
    (file.path, fPos, file.length - fPos)

/-! ## Input and output -/

abbrev Disk := Bytes → Option Bytes

/-- What becomes of the calls of one turn: `open` fails, the transfer fails, or
it moves up to `n` bytes. `allocates` is the effect of `file:use-fallocate`. -/
inductive Call where
  | openFails (reason : Bytes)
  | fails (allocates : Bool) (reason : Bytes)
  | moves (allocates : Bool) (n : Nat)

/-- The contents of a file that `OpenFile` opens for writing. -/
def opened (allocates : Bool) (disk : Disk) (path : Bytes) (size : Nat) : Bytes :=
  let old := (disk path).getD []
  if allocates && old.isEmpty then List.replicate size 0 else old

/-- One `pwrite`. -/
structure Write where
  path : Bytes
  offset : Nat
  data : Bytes

/-- The variables of `StoreBlock`, the disk, and the writes made. -/
structure Storing where
  start : Nat
  len : Nat
  buf : Bytes
  disk : Disk
  writes : List Write
  turns : Nat

inductive Stored where
  | done
  | error (message : Bytes)
  /-- `FindFileByPosition` returned a null pointer, which is not checked. -/
  | noFile

/-- A turn of the writing loop. -/
def storeTurn (t : Torrent) (piece : Nat) (calls : Nat → Call) (s : Storing) :
    Storing ⊕ (Stored × Storing) :=
  if s.len = 0 then .inr (.done, s)
  else
    match findFileByPosition t piece s.start with
    | none => .inr (.noFile, s)
    | some (file, fPos, fRest) =>
      match calls s.turns with
      | .openFails reason => .inr (.error (bytes "open(" ++ file ++ bytes "): " ++ reason), s)
      | .fails allocates reason =>
        let old := opened allocates s.disk file (fPos + fRest)
        let disk := Function.update s.disk file (some old)
        .inr (.error (bytes "pwrite(" ++ file ++ bytes "): " ++ reason), { s with disk := disk })
      | .moves allocates n =>
        let old := opened allocates s.disk file (fPos + fRest)
        let w := s.buf.take (min n (min fRest s.len))
        let disk := Function.update s.disk file (some (patch 0 old fPos w))
        if w.isEmpty then
          .inr (.error (bytes "pwrite(" ++ file ++ bytes "): write error - disk full?"),
            { s with disk := Function.update s.disk file (some old) })
        else
          .inl {
            start := (s.start + w.length) % 2 ^ 32
            len := s.len - w.length
            buf := s.buf.drop w.length
            disk := disk
            writes := s.writes ++ [⟨file, fPos, w⟩]
            turns := s.turns + 1 }

/-- The writing loop of `StoreBlock`; the block shrinks in every turn. -/
def storeBlock (t : Torrent) (piece start : Nat) (buf : Bytes) (calls : Nat → Call)
    (disk : Disk) : Option (Stored × Storing) :=
  loop (storeTurn t piece calls) (buf.length + 1) ⟨start, buf.length, buf, disk, [], 0⟩

/-- The variables of `RetrieveBlock`. -/
structure Retrieving where
  start : Nat
  len : Nat
  buf : Bytes
  turns : Nat

inductive Retrieved where
  | data (buf : Bytes)
  /-- `xstring::null`, with the error that is set. -/
  | null (message : Option Bytes)
  /-- A null pointer from `FindFileByPosition`. -/
  | noFile

/-- A turn of the reading loop. -/
def retrieveTurn (t : Torrent) (piece : Nat) (calls : Nat → Call) (disk : Disk)
    (s : Retrieving) : Retrieving ⊕ Retrieved :=
  if s.len = 0 then .inr (.data s.buf)
  else
    match findFileByPosition t piece s.start with
    | none => .inr .noFile
    | some (file, fPos, fRest) =>
      match calls s.turns, disk file with
      | .openFails _, _ => .inr (.null none)
      | _, none => .inr (.null none)
      | .fails _ reason, some _ =>
        .inr (.null (some (bytes "pread(" ++ file ++ bytes "): " ++ reason)))
      | .moves _ n, some contents =>
        let r := (contents.drop fPos).take (min n (min fRest s.len))
        if r.isEmpty then .inr (.data s.buf)
        else
          .inl {
            start := (s.start + r.length) % 2 ^ 32
            len := s.len - r.length
            buf := s.buf ++ r
            turns := s.turns + 1 }

/-- `Torrent::RetrieveBlock`. -/
def retrieveBlock (t : Torrent) (piece start len : Nat) (calls : Nat → Call) (disk : Disk) :
    Option Retrieved :=
  loop (retrieveTurn t piece calls disk) (len + 1) ⟨start, len, [], 0⟩

/-! ## Finding the file -/

/-- Two files share no position. -/
def Apart (a b : TorrentFile) : Prop := a.pos + a.length ≤ b.pos ∨ b.pos + b.length ≤ a.pos

theorem le_pos_of_mem_scanFiles {scanPos : Nat} {entries : List (Bytes × Nat)} {f : TorrentFile}
    (h : f ∈ scanFiles scanPos entries) : scanPos ≤ f.pos := by
  induction entries generalizing scanPos with
  | nil => cases h
  | cons entry entries ih =>
      rcases List.mem_cons.mp h with rfl | h
      · exact Nat.le_refl _
      · exact Nat.le_trans (Nat.le_add_right _ _) (ih h)

theorem pairwise_scanFiles (scanPos : Nat) (entries : List (Bytes × Nat)) :
    (scanFiles scanPos entries).Pairwise Apart := by
  induction entries generalizing scanPos with
  | nil => exact .nil
  | cons entry entries ih =>
      apply List.Pairwise.cons
      · intro f hf
        exact .inl (le_pos_of_mem_scanFiles hf)
      · exact ih _

/-- Every position of the torrent lies in a file. -/
theorem exists_mem_scanFiles {scanPos p : Nat} {entries : List (Bytes × Nat)}
    (hFrom : scanPos ≤ p) (hTo : p < scanPos + total entries) :
    ∃ f ∈ scanFiles scanPos entries, f.containsPos p = true := by
  induction entries generalizing scanPos with
  | nil => exact absurd hTo (Nat.not_lt.mpr hFrom)
  | cons entry entries ih =>
      obtain ⟨path, length⟩ := entry
      by_cases hIn : p < scanPos + length
      · exact ⟨⟨path, scanPos, length⟩, List.mem_cons_self,
          by simp [TorrentFile.containsPos, hFrom, hIn]⟩
      · have hTotal : total ((path, length) :: entries) = length + total entries := by
          simp [total]
        obtain ⟨f, hf, hPos⟩ := ih (show scanPos + length ≤ p by omega) (by omega)
        exact ⟨f, List.mem_cons_of_mem _ hf, hPos⟩

/-- A file owns the places from a position of it to its end. -/
theorem contiguous_of_mem_scanFiles {scanPos p : Nat} {entries : List (Bytes × Nat)}
    {f : TorrentFile} (h : f ∈ scanFiles scanPos entries) (hPos : f.pos ≤ p) :
    Contiguous entries (p - scanPos) (f.pos + f.length - p) f.path (p - f.pos) := by
  induction entries generalizing scanPos with
  | nil => cases h
  | cons entry entries ih =>
      obtain ⟨path, length⟩ := entry
      intro i hi
      rcases List.mem_cons.mp h with rfl | h
      · dsimp only at hi hPos
        rw [locate, if_pos (by omega)]
      · have hFrom := le_pos_of_mem_scanFiles h
        rw [locate, if_neg (by omega), ← ih h i hi]
        congr 1
        omega

theorem mem_entries_of_mem_scanFiles {scanPos : Nat} {entries : List (Bytes × Nat)}
    {f : TorrentFile} (h : f ∈ scanFiles scanPos entries) : (f.path, f.length) ∈ entries := by
  induction entries generalizing scanPos with
  | nil => cases h
  | cons entry entries ih =>
      rcases List.mem_cons.mp h with rfl | h
      · exact List.mem_cons_self
      · exact List.mem_cons_of_mem _ (ih h)

/-- A file that stands after the owner of `p` starts after `p`: of the files with
one position the empty ones come first. -/
theorem lt_pos_of_posCmp {f g : TorrentFile} {p : Nat} (hIn : f.containsPos p = true)
    (hApart : Apart f g) (hCmp : posCmp f g ≤ 0) : p < g.pos := by
  simp only [TorrentFile.containsPos, Bool.and_eq_true, decide_eq_true_eq] at hIn
  unfold posCmp at hCmp
  unfold Apart at hApart
  split at hCmp
  · omega
  split at hCmp
  · omega
  split at hCmp
  · split at hCmp <;> omega
  · omega

theorem pos_le_of_posCmp {f g : TorrentFile} (hCmp : posCmp f g ≤ 0) : f.pos ≤ g.pos := by
  unfold posCmp at hCmp
  split at hCmp
  · omega
  split at hCmp <;> omega

/-- The range of the search, with the owner in it. -/
def Around (files : List TorrentFile) (k : Nat) (s : Int × Int) : Prop :=
  0 ≤ s.1 ∧ s.1 ≤ k ∧ (k : Int) ≤ s.2 ∧ s.2 < files.length

/-- A turn finds a file that contains the position, or keeps the owner in a
smaller range. -/
theorem findTurn_spec {files : List TorrentFile} {p k : Nat} (hk : k < files.length)
    (hIn : files[k].containsPos p = true) (hApart : files.Pairwise Apart)
    (hSorted : files.Pairwise fun a b => posCmp a b ≤ 0) {s : Int × Int}
    (hs : Around files k s) :
    (∃ g ∈ files, g.containsPos p = true ∧ findTurn files p s = .inr (some g))
      ∨ ∃ s', findTurn files p s = .inl s' ∧ Around files k s'
        ∧ (s'.2 - s'.1 + 1).toNat < (s.2 - s.1 + 1).toNat := by
  obtain ⟨i, j⟩ := s
  obtain ⟨hi, hik, hkj, hj⟩ := hs
  dsimp only at hi hik hkj hj
  obtain ⟨m, hm⟩ : ∃ m : Nat, (i + j) / 2 = m := ⟨((i + j) / 2).toNat, by omega⟩
  have hmLen : m < files.length := by omega
  have hTurn : findTurn files p (i, j) = if files[m].containsPos p then .inr (some files[m])
      else if p < files[m].pos then .inl (i, (m : Int) - 1) else .inl ((m : Int) + 1, j) := by
    simp only [findTurn, if_pos (Int.le_trans hik hkj), hm, Int.toNat_natCast,
      List.getElem?_eq_getElem hmLen]
  rw [hTurn]
  by_cases hHit : files[m].containsPos p = true
  · rw [if_pos hHit]
    exact .inl ⟨files[m], List.getElem_mem hmLen, hHit, rfl⟩
  · rw [if_neg hHit]
    have hOwner := hIn
    simp only [TorrentFile.containsPos, Bool.and_eq_true, decide_eq_true_eq] at hOwner
    rcases Nat.lt_trichotomy m k with hlt | heq | hgt
    · -- files before the owner do not start after the position
      have hPos := pos_le_of_posCmp (List.pairwise_iff_getElem.mp hSorted m k hmLen hk hlt)
      rw [if_neg (by omega)]
      refine .inr ⟨_, rfl, ⟨?_, ?_, ?_, ?_⟩, ?_⟩ <;> dsimp only <;> omega
    · subst heq
      exact absurd hIn hHit
    · have hPos := lt_pos_of_posCmp hIn
        (List.pairwise_iff_getElem.mp hApart k m hk hmLen hgt)
        (List.pairwise_iff_getElem.mp hSorted k m hk hmLen hgt)
      rw [if_pos hPos]
      refine .inr ⟨_, rfl, ⟨?_, ?_, ?_, ?_⟩, ?_⟩ <;> dsimp only <;> omega

/-- The binary search finds a file that contains the position. -/
theorem findByPosition_spec {entries : List (Bytes × Nat)} (t : TorrentFiles entries) {p : Nat}
    (hp : p < total entries) :
    ∃ f ∈ scanFiles 0 entries, f.containsPos p = true ∧ findByPosition t.files p = some f := by
  have hApart : t.files.Pairwise Apart :=
    (t.perm.pairwise_iff fun h => Or.symm h).mpr (pairwise_scanFiles 0 entries)
  obtain ⟨f, hMem, hIn⟩ := exists_mem_scanFiles (Nat.zero_le p)
    (by rw [Nat.zero_add]; exact hp)
  obtain ⟨k, hk, rfl⟩ := List.getElem_of_mem (t.perm.mem_iff.mpr hMem)
  have hStart : Around t.files k (0, (t.files.length : Int) - 1) := by
    refine ⟨?_, ?_, ?_, ?_⟩ <;> dsimp only <;> omega
  obtain ⟨r, hLoop, g, hg, hPos, rfl⟩ := loop_total (I := Around t.files k)
    (Q := fun r => ∃ g ∈ t.files, g.containsPos p = true ∧ r = some g)
    (fun s => (s.2 - s.1 + 1).toNat)
    (fun s hs => (findTurn_spec hk hIn hApart t.sorted hs).imp_left
      fun ⟨g, hMem, hPos, hFind⟩ => ⟨some g, hFind, g, hMem, hPos, rfl⟩)
    hStart (n := t.files.length + 1) (by dsimp only; omega)
  refine ⟨g, t.perm.mem_iff.mp hg, hPos, ?_⟩
  rw [findByPosition, hLoop]
  rfl

/-- What the lookup returns for a position of the torrent: the file that owns it,
the offset in it, and how much of the file is left. -/
theorem findFileByPosition_spec (t : Torrent) {piece start : Nat}
    (h : t.targetPos piece start < total t.entries) :
    ∃ path o rest, findFileByPosition t piece start = some (path, o, rest) ∧ 0 < rest
      ∧ (path, o + rest) ∈ t.entries
      ∧ Contiguous t.entries (t.targetPos piece start) rest path o := by
  obtain ⟨f, hMem, hIn, hFind⟩ := findByPosition_spec t.files h
  simp only [TorrentFile.containsPos, Bool.and_eq_true, decide_eq_true_eq] at hIn
  generalize hTarget : t.targetPos piece start = p at *
  have hRest : f.length - (p - f.pos) = f.pos + f.length - p := by omega
  refine ⟨f.path, p - f.pos, f.length - (p - f.pos), ?_, by omega, ?_, ?_⟩
  · rw [findFileByPosition, hTarget, hFind, Option.map_some]
  · rw [show p - f.pos + (f.length - (p - f.pos)) = f.length by omega]
    exact mem_entries_of_mem_scanFiles hMem
  · rw [hRest]
    exact contiguous_of_mem_scanFiles hMem hIn.1

/-! ## Writing a block -/

/-- A block lies in its piece, and the piece in the torrent. -/
def Torrent.Inside (t : Torrent) (piece start len : Nat) : Prop :=
  start + len ≤ t.pieceLength ∧ t.targetPos piece (start + len) ≤ total t.entries

theorem Torrent.targetPos_add (t : Torrent) (piece start k : Nat) :
    t.targetPos piece (start + k) = t.targetPos piece start + k := by
  unfold Torrent.targetPos
  omega

/-- The bytes that a write puts on disk, each with its place. -/
def Write.cells (w : Write) : List (Option (Bytes × Nat) × UInt8) :=
  w.data.zipIdx.map fun (b, i) => (some (w.path, w.offset + i), b)

/-- The bytes of a block that starts at position `p`, each with the place that
owns its position. -/
def placed (entries : List (Bytes × Nat)) (p : Nat) (buf : Bytes) :
    List (Option (Bytes × Nat) × UInt8) :=
  buf.zipIdx.map fun (b, i) => (locate entries (p + i), b)

theorem placed_append (entries : List (Bytes × Nat)) (p : Nat) (a b : Bytes) :
    placed entries p (a ++ b) = placed entries p a ++ placed entries (p + a.length) b := by
  unfold placed
  have hShift : b.zipIdx a.length = b.zipIdx.map fun (c, i) => (c, a.length + i) :=
    List.zipIdx_eq_map_add
  rw [List.zipIdx_append, List.map_append, Nat.zero_add, hShift, List.map_map]
  congr 1
  apply List.map_congr_left
  rintro ⟨c, i⟩ -
  show (locate entries (p + (a.length + i)), c) = (locate entries (p + a.length + i), c)
  rw [Nat.add_assoc]

/-- A write inside one file puts its bytes where they belong. -/
theorem cells_of_contiguous {entries : List (Bytes × Nat)} {p o : Nat} {path data : Bytes}
    (h : Contiguous entries p data.length path o) :
    (⟨path, o, data⟩ : Write).cells = placed entries p data := by
  unfold Write.cells placed
  apply List.map_congr_left
  rintro ⟨c, i⟩ hc
  have hi : i < data.length := by
    have := (List.mem_zipIdx' hc).1
    exact this
  dsimp only
  rw [h i hi]

/-- The writes are those of the first `k` bytes of the block, within the files. -/
structure Written (t : Torrent) (p : Nat) (buf : Bytes) (k : Nat) (writes : List Write) :
    Prop where
  le : k ≤ buf.length
  cells : writes.flatMap Write.cells = placed t.entries p (buf.take k)
  within : ∀ w ∈ writes, ∃ length, (w.path, length) ∈ t.entries
    ∧ w.offset + w.data.length ≤ length

/-- The disk has the first `k` bytes of the block, and all else that it had. -/
structure OnDisk (t : Torrent) (p : Nat) (buf : Bytes) (k : Nat) (old disk : Disk) : Prop where
  shown : Shows t.entries disk p (buf.take k)
  kept : ∀ q b, q < p ∨ p + buf.length ≤ q → image t.entries old q = some b →
    image t.entries disk q = some b

/-- The state of the writing loop after `k` bytes. -/
structure Progress (t : Torrent) (piece start : Nat) (buf : Bytes) (old : Disk) (s : Storing)
    (k : Nat) : Prop where
  written : Written t (t.targetPos piece start) buf k s.writes
  onDisk : Separate t.entries → OnDisk t (t.targetPos piece start) buf k old s.disk
  start_eq : s.start = start + k
  len_eq : s.len = buf.length - k
  buf_eq : s.buf = buf.drop k

theorem opened_of_getElem? {allocates : Bool} {disk : Disk} {path : Bytes} {size : Nat}
    {f : Bytes} (hFile : disk path = some f) {i : Nat} {b : UInt8} (hb : f[i]? = some b) :
    (opened allocates disk path size)[i]? = some b := by
  have hne : f.isEmpty = false := by
    cases f with
    | nil => cases hb
    | cons c f => rfl
  simp only [opened, hFile, Option.getD_some, hne, Bool.and_false, Bool.false_eq_true, if_false, hb]

/-- One write of the loop. -/
theorem Progress.write {t : Torrent} {piece start : Nat} {buf : Bytes} {old : Disk} {s : Storing}
    {k : Nat} (h : Progress t piece start buf old s k) (hInside : t.Inside piece start buf.length)
    {path : Bytes} {o rest : Nat} (hEntry : (path, o + rest) ∈ t.entries)
    (hPlace : Contiguous t.entries (t.targetPos piece s.start) rest path o)
    {n : Nat} (hn : n ≤ min rest s.len) (allocates : Bool) (turns : Nat) :
    Progress t piece start buf old
      { start := (s.start + n) % 2 ^ 32
        len := s.len - n
        buf := s.buf.drop n
        disk := Function.update s.disk path
          (some (patch 0 (opened allocates s.disk path (o + rest)) o (s.buf.take n)))
        writes := s.writes ++ [⟨path, o, s.buf.take n⟩]
        turns := turns } (k + n) := by
  have hk := h.written.le
  have hLen := h.len_eq
  have hTake : (s.buf.take n).length = n := by
    rw [h.buf_eq, List.length_take, List.length_drop]
    omega
  have hSplit : buf.take (k + n) = buf.take k ++ s.buf.take n := by
    rw [h.buf_eq, List.take_add]
  have hTakeK : (buf.take k).length = k := by
    rw [List.length_take]
    omega
  have hAt : t.targetPos piece s.start = t.targetPos piece start + k := by
    rw [h.start_eq, t.targetPos_add]
  have hCont : Contiguous t.entries (t.targetPos piece start + k) (s.buf.take n).length path o := by
    intro i hi
    rw [← hAt]
    exact hPlace i (by omega)
  constructor
  · constructor
    · omega
    · rw [List.flatMap_append, h.written.cells, hSplit, placed_append, hTakeK,
        ← cells_of_contiguous hCont]
      simp
    · intro w hw
      rcases List.mem_append.mp hw with hw | hw
      · exact h.written.within w hw
      · rw [List.mem_singleton.mp hw]
        exact ⟨o + rest, hEntry, by dsimp only; omega⟩
  · intro hSeparate
    have hDisk := h.onDisk hSeparate
    -- the cells that the write does not reach
    have hApart : ∀ q b, image t.entries s.disk q = some b →
        q < t.targetPos piece start + k ∨ t.targetPos piece start + k + n ≤ q →
        image t.entries (Function.update s.disk path
          (some (patch 0 (opened allocates s.disk path (o + rest)) o (s.buf.take n)))) q
          = some b :=
      fun q b hCell hOut => image_put_apart hSeparate hCont 0
        (fun f hf i c hc => opened_of_getElem? hf hc) hCell (by rw [hTake]; exact hOut)
    constructor
    · rw [hSplit, shows_append, hTakeK]
      constructor
      · intro i hi
        have hCell := hDisk.shown i hi
        rw [List.getElem?_eq_getElem hi] at hCell ⊢
        exact hApart _ _ hCell (by omega)
      · exact shows_put hCont 0
    · intro q b hOut hCell
      exact hApart q b (hDisk.kept q b hOut hCell) (by omega)
  · show (s.start + n) % 2 ^ 32 = start + (k + n)
    have := t.pieceLength_lt
    rw [h.start_eq, Nat.mod_eq_of_lt (by have := hInside.1; omega), Nat.add_assoc]
  · show s.len - n = buf.length - (k + n)
    omega
  · show s.buf.drop n = buf.drop (k + n)
    rw [h.buf_eq, List.drop_drop]

/-- All calls move something. -/
def Call.Short : Call → Prop
  | .moves _ n => 0 < n
  | _ => False

/-- What a turn of the writing loop does in the state after `k` bytes. -/
theorem Progress.turn {t : Torrent} {piece start : Nat} {buf : Bytes} {old : Disk} {s : Storing}
    {k : Nat} (h : Progress t piece start buf old s k)
    (hInside : t.Inside piece start buf.length) (calls : Nat → Call) :
    (s.len = 0 ∧ storeTurn t piece calls s = .inr (.done, s))
      ∨ (∃ message disk, ¬ (calls s.turns).Short
        ∧ storeTurn t piece calls s = .inr (.error message, { s with disk := disk }))
      ∨ ∃ s' n, storeTurn t piece calls s = .inl s' ∧ Progress t piece start buf old s' (k + n)
        ∧ s'.len < s.len := by
  have hk := h.written.le
  have hLen := h.len_eq
  by_cases hDone : s.len = 0
  · exact .inl ⟨hDone, by rw [storeTurn, if_pos hDone]⟩
  have hBound : t.targetPos piece s.start < total t.entries := by
    have hTo := hInside.2
    rw [t.targetPos_add] at hTo
    rw [h.start_eq, t.targetPos_add]
    omega
  obtain ⟨path, o, rest, hFind, hRest, hEntry, hPlace⟩ := findFileByPosition_spec t hBound
  unfold storeTurn
  rw [if_neg hDone, hFind]
  dsimp only
  cases hCall : calls s.turns with
  | openFails reason => exact .inr (.inl ⟨_, s.disk, id, rfl⟩)
  | fails allocates reason => exact .inr (.inl ⟨_, _, id, rfl⟩)
  | moves allocates n =>
      dsimp only
      have hTake : (s.buf.take (min n (min rest s.len))).length = min n (min rest s.len) := by
        rw [h.buf_eq, List.length_take, List.length_drop]
        omega
      by_cases hn : n = 0
      · have hEmpty : (s.buf.take (min n (min rest s.len))).isEmpty = true := by
          rw [List.isEmpty_iff_length_eq_zero, hTake, hn, Nat.zero_min]
        rw [if_pos hEmpty]
        exact .inr (.inl ⟨_, _, by rw [hn]; exact Nat.lt_irrefl 0, rfl⟩)
      · have hEmpty : (s.buf.take (min n (min rest s.len))).isEmpty = false := by
          rw [List.isEmpty_eq_false_iff, ← List.length_pos_iff, hTake]
          omega
        rw [hEmpty, hTake, if_neg Bool.false_ne_true]
        refine .inr (.inr ⟨_, min n (min rest s.len), rfl, ?_, ?_⟩)
        · exact h.write hInside hEntry hPlace (Nat.min_le_right _ _) allocates _
        · show s.len - min n (min rest s.len) < s.len
          omega

/-- The writing loop, on any schedule. -/
theorem storeLoop_spec (t : Torrent) {piece start : Nat} {buf : Bytes}
    (hInside : t.Inside piece start buf.length) (calls : Nat → Call) (disk : Disk) :
    ∃ r, storeBlock t piece start buf calls disk = some r
      ∧ ∃ k, Written t (t.targetPos piece start) buf k r.2.writes
        ∧ (r.1 = .done → k = buf.length
          ∧ (Separate t.entries → OnDisk t (t.targetPos piece start) buf k disk r.2.disk))
        ∧ ((∀ i, (calls i).Short) → r.1 = .done) := by
  have hStart : Progress t piece start buf disk ⟨start, buf.length, buf, disk, [], 0⟩ 0 := by
    constructor
    · exact ⟨Nat.zero_le _, by rw [List.take_zero]; rfl, nofun⟩
    · exact fun _ => ⟨by rw [List.take_zero]; nofun, fun q b _ h => h⟩
    · rfl
    · rfl
    · rw [List.drop_zero]
  apply loop_total (I := fun s => ∃ k, Progress t piece start buf disk s k) Storing.len _
    ⟨0, hStart⟩ (Nat.lt_succ_self _)
  rintro s ⟨k, h⟩
  rcases h.turn hInside calls with ⟨hDone, hTurn⟩ | ⟨message, disk', hCall, hTurn⟩
    | ⟨s', n, hTurn, h', hLess⟩
  · have hk : k = buf.length := by
      have hLen := h.len_eq
      have hLe := h.written.le
      omega
    exact .inl ⟨_, hTurn, k, h.written, fun _ => ⟨hk, h.onDisk⟩, fun _ => rfl⟩
  · exact .inl ⟨_, hTurn, k, h.written, nofun, fun hCalls => absurd (hCalls _) hCall⟩
  · exact .inr ⟨s', hTurn, ⟨_, h'⟩, hLess⟩

/-! ## Reading it back -/

/-- The state of the reading loop after `k` bytes. -/
structure Reading (start : Nat) (data : Bytes) (s : Retrieving) (k : Nat) : Prop where
  le : k ≤ data.length
  start_eq : s.start = start + k
  len_eq : s.len = data.length - k
  buf_eq : s.buf = data.take k

/-- A read inside one file gets bytes of the torrent. -/
theorem take_of_shows {entries : List (Bytes × Nat)} {disk : Disk} {p o rest n : Nat}
    {path contents data : Bytes} (hShows : Shows entries disk p data)
    (hPlace : Contiguous entries p rest path o) (hFile : disk path = some contents)
    (hn : n ≤ rest) (hLen : n ≤ data.length) : (contents.drop o).take n = data.take n := by
  apply List.ext_getElem?
  intro i
  by_cases hi : i < n
  · rw [List.getElem?_take_of_lt hi, List.getElem?_take_of_lt hi, List.getElem?_drop,
      ← hShows i (by omega), image_of_locate (hPlace i (by omega)) hFile]
  · rw [List.getElem?_take_eq_none (by omega), List.getElem?_take_eq_none (by omega)]

/-- The reading loop returns what the disk shows. -/
theorem retrieve_spec (t : Torrent) {piece start : Nat} {data : Bytes}
    (hInside : t.Inside piece start data.length) {disk : Disk}
    (hShows : Shows t.entries disk (t.targetPos piece start) data) {calls : Nat → Call}
    (hCalls : ∀ i, (calls i).Short) :
    retrieveBlock t piece start data.length calls disk = some (.data data) := by
  have hTurn : ∀ s, (∃ k, Reading start data s k) →
      (∃ r, retrieveTurn t piece calls disk s = .inr r ∧ r = .data data)
        ∨ ∃ s', retrieveTurn t piece calls disk s = .inl s' ∧ (∃ k, Reading start data s' k)
          ∧ s'.len < s.len := by
    rintro s ⟨k, hk, hStart, hLen, hBuf⟩
    unfold retrieveTurn
    by_cases hDone : s.len = 0
    · rw [if_pos hDone]
      refine .inl ⟨_, rfl, ?_⟩
      rw [hBuf, List.take_of_length_le (by omega)]
    rw [if_neg hDone]
    have hAt : t.targetPos piece s.start = t.targetPos piece start + k := by
      rw [hStart, t.targetPos_add]
    have hTo := hInside.2
    rw [t.targetPos_add] at hTo
    obtain ⟨path, o, rest, hFind, hRest, -, hPlace⟩ :=
      findFileByPosition_spec t (show t.targetPos piece s.start < _ by omega)
    rw [hAt] at hPlace
    -- the rest of the data is shown from here on
    have hShows' : Shows t.entries disk (t.targetPos piece start + k) (data.drop k) := by
      rw [← List.take_append_drop k data, shows_append, List.length_take,
        Nat.min_eq_left hk] at hShows
      exact hShows.2
    have hCell := hShows' 0 (by rw [List.length_drop]; omega)
    rw [List.getElem?_eq_getElem (by rw [List.length_drop]; omega)] at hCell
    obtain ⟨x, hx, hFile⟩ := Option.bind_eq_some_iff.mp hCell
    cases (hPlace 0 hRest).symm.trans hx
    obtain ⟨contents, hContents, hByte⟩ := Option.bind_eq_some_iff.mp hFile
    dsimp only at hContents hByte
    have hLong : o < contents.length := (List.getElem?_eq_some_iff.mp hByte).1
    rw [hFind]
    dsimp only
    rw [hContents]
    have hShort := hCalls s.turns
    cases hCall : calls s.turns with
    | openFails reason =>
        rw [hCall] at hShort
        exact hShort.elim
    | fails allocates reason =>
        rw [hCall] at hShort
        exact hShort.elim
    | moves allocates n =>
        rw [hCall] at hShort
        change 0 < n at hShort
        dsimp only
        have hRead := take_of_shows hShows' hPlace hContents (n := min n (min rest s.len))
          (by omega) (by rw [List.length_drop]; omega)
        generalize hm : min n (min rest s.len) = m at hRead
        rw [hRead]
        have hReadLen : ((data.drop k).take m).length = m := by
          rw [List.length_take, List.length_drop]
          omega
        have hEmpty : ((data.drop k).take m).isEmpty = false := by
          rw [List.isEmpty_eq_false_iff, ← List.length_pos_iff, hReadLen]
          omega
        rw [hEmpty, hReadLen, if_neg Bool.false_ne_true]
        refine .inr ⟨_, rfl, ⟨k + m, by omega, ?_, ?_, ?_⟩, ?_⟩ <;> dsimp only
        · have := t.pieceLength_lt
          have := hInside.1
          rw [hStart, Nat.mod_eq_of_lt (by omega), Nat.add_assoc]
        · omega
        · rw [hBuf, List.take_add]
        · omega
  have hStart : Reading start data ⟨start, data.length, [], 0⟩ 0 :=
    ⟨Nat.zero_le _, rfl, rfl, by rw [List.take_zero]⟩
  obtain ⟨r, hLoop, rfl⟩ := loop_total (I := fun s => ∃ k, Reading start data s k)
    (Q := fun r : Retrieved => r = .data data) Retrieving.len hTurn ⟨0, hStart⟩
    (Nat.lt_succ_self _)
  exact hLoop

/-! ## Stores and retrievals -/

/-- A block with the schedule of the calls that store it. -/
structure Block where
  piece : Nat
  start : Nat
  data : Bytes
  calls : Nat → Call

/-- The disk after blocks are stored one after another, when each is stored. -/
def storeAll (t : Torrent) : Disk → List Block → Option Disk
  | disk, [] => some disk
  | disk, b :: bs =>
    match storeBlock t b.piece b.start b.data b.calls disk with
    | some (.done, s) => storeAll t s.disk bs
    | _ => none

/-- The byte that the blocks put at position `p`; the last one counts. -/
def lastStored (t : Torrent) : List Block → Nat → Option UInt8
  | [], _ => none
  | b :: bs, p =>
    (lastStored t bs p).or
      (if t.targetPos b.piece b.start ≤ p then b.data[p - t.targetPos b.piece b.start]? else none)

/-- The disk has the bytes last stored, and the others that it had. -/
theorem image_storeAll {t : Torrent} (hSeparate : Separate t.entries) {bs : List Block}
    (hInside : ∀ b ∈ bs, t.Inside b.piece b.start b.data.length) {disk disk' : Disk}
    (hStore : storeAll t disk bs = some disk') {p : Nat} {c : UInt8}
    (hCell : (lastStored t bs p).or (image t.entries disk p) = some c) :
    image t.entries disk' p = some c := by
  induction bs generalizing disk with
  | nil =>
      cases hStore
      exact hCell
  | cons b bs ih =>
      obtain ⟨⟨r, s⟩, hBlock, k, -, hDone, -⟩ :=
        storeLoop_spec t (hInside b List.mem_cons_self) b.calls disk
      rw [storeAll, hBlock] at hStore
      cases r with
      | error message => cases hStore
      | noFile => cases hStore
      | done =>
          obtain ⟨rfl, hDisk⟩ := hDone rfl
          obtain ⟨hShown, hKept⟩ := hDisk hSeparate
          apply ih (fun b' hb => hInside b' (List.mem_cons_of_mem b hb)) hStore
          rw [lastStored, Option.or_assoc] at hCell
          cases hLast : lastStored t bs p with
          | some c' =>
              rw [hLast] at hCell
              exact hCell
          | none =>
              rw [hLast, Option.none_or] at hCell
              rw [Option.none_or]
              rw [List.take_length] at hShown
              by_cases hIn : t.targetPos b.piece b.start ≤ p
                ∧ p < t.targetPos b.piece b.start + b.data.length
              · have hByte := hShown (p - t.targetPos b.piece b.start) (by omega)
                rw [Nat.add_sub_of_le hIn.1] at hByte
                rw [if_pos hIn.1, List.getElem?_eq_getElem (by omega), Option.some_or] at hCell
                rw [hByte, List.getElem?_eq_getElem (by omega), hCell]
              · have hNone : (if t.targetPos b.piece b.start ≤ p then
                    b.data[p - t.targetPos b.piece b.start]? else none) = none := by
                  by_cases hFrom : t.targetPos b.piece b.start ≤ p
                  · rw [if_pos hFrom, List.getElem?_eq_none (by omega)]
                  · rw [if_neg hFrom]
                rw [hNone, Option.none_or] at hCell
                exact hKept p c (by omega) hCell

/-- Three files, the second one empty, and pieces of four bytes. -/
def threeFiles : Torrent where
  entries := [(bytes "a", 3), (bytes "b", 0), (bytes "c", 4)]
  files := .new _
  pieceLength := 4
  pieceLength_lt := by decide

end Lftp.Ports.TorrentStorage
