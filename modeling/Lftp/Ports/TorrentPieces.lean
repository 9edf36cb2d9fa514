import Mathlib.Algebra.Order.BigOperators.Group.Finset
import Lftp.Verified.Table
import Lftp.Ports.BitField

/-!
# The piece table of a torrent

The part of `Torrent` that says which pieces there are and which of them the
torrent has, and `TorrentPiece`, what is known of one piece. A null
`my_bitfield` is the empty bit field, a null `piece_info` the empty list.

* `Exact` is what the counters promise: `complete_pieces`, `total_left` and
  `complete` agree with `my_bitfield`.
* `Sized` says that the table fits the total length, as `SetTotalLength` leaves
  it; `sum_setTotalLength` is the arithmetic behind it.
* The lemmas `Exact.*` give, for each operation, when it keeps the promise.
-/

namespace Lftp.Ports.TorrentPieces

open Lftp.Verified

/-- `TorrentPiece`, a peer being named by a number. The ratio, a statistic, is
left out. -/
structure TorrentPiece where
  sourcesCount : Int
  downloaderCount : Int
  downloader : Option (List (Option Nat))
  blockMap : Option BitField

namespace TorrentPiece

/-- `TorrentPiece::TorrentPiece`. -/
def new : TorrentPiece := ⟨0, 0, none, none⟩

/-- `downloader_for`. -/
def downloaderFor (i : TorrentPiece) (block : Nat) : Option Nat :=
  match i.downloader with
  | none => none
  | some d => d.getD block none

/-- The end of `set_downloader`, with the array allocated. -/
def assign (i : TorrentPiece) (d : List (Option Nat)) (block : Nat) (o n : Option Nat) :
    TorrentPiece :=
  if d.getD block none = o then
    { i with
      downloader := some (d.set block n)
      downloaderCount := i.downloaderCount + (bit n.isSome - bit o.isSome) }
  else { i with downloader := some d }

/-- `set_downloader`. -/
def setDownloader (i : TorrentPiece) (block : Nat) (o n : Option Nat) (blkCount : Nat) :
    TorrentPiece :=
  match i.downloader with
  | none =>
    if o.isSome ∨ n.isNone then i else i.assign (List.replicate blkCount none) block o n
  | some d => i.assign d block o n

/-- `cleanup`. -/
def cleanup (i : TorrentPiece) : TorrentPiece :=
  if i.downloaderCount = 0 then { i with downloader := none } else i

/-- `add_sources_count`. -/
def addSourcesCount (i : TorrentPiece) (diff : Int) : TorrentPiece :=
  { i with sourcesCount := i.sourcesCount + diff }

end TorrentPiece

/-- `BLOCK_SIZE`. -/
def blockSize : Nat := 0x4000

/-- The members of `Torrent` about pieces. -/
structure Pieces where
  pieceLength : Nat
  lastPieceLength : Nat
  totalPieces : Nat
  completePieces : Nat
  myBitfield : BitField
  totalLength : Nat
  totalLeft : Nat
  complete : Bool
  blocksInPiece : Nat
  blocksInLastPiece : Nat
  pieceInfo : List TorrentPiece

namespace Pieces

/-- What `Torrent::Torrent` sets. -/
def empty : Pieces := ⟨0, 0, 0, 0, .new 0, 0, 0, false, 0, 0, []⟩

/-- `Torrent::PieceLength`. -/
def pieceLengthOf (t : Pieces) (p : Nat) : Nat :=
  if p + 1 = t.totalPieces then t.lastPieceLength else t.pieceLength

/-- `Torrent::BlocksInPiece`. -/
def blocksInPieceOf (t : Pieces) (p : Nat) : Nat :=
  if p + 1 = t.totalPieces then t.blocksInLastPiece else t.blocksInPiece

/-- `(total_length+piece_length-1)/piece_length`, computed in 64 bits and stored
in 32. -/
def countPieces (pieceLength totalLength : Nat) : Nat :=
  (totalLength + pieceLength - 1) % 2 ^ 64 / pieceLength % 2 ^ 32

/-- `last_piece_length`. -/
def lastLength (pieceLength totalLength : Nat) : Nat :=
  if totalLength % pieceLength = 0 then pieceLength else totalLength % pieceLength

/-- `Torrent::SetTotalLength`. -/
def setTotalLength (t : Pieces) (tl : Nat) : Pieces :=
  let last := lastLength t.pieceLength tl
  let total := countPieces t.pieceLength tl
  { t with
    totalLength := tl
    totalLeft := tl
    lastPieceLength := last
    totalPieces := total
    myBitfield := .new total
    blocksInPiece := (t.pieceLength + blockSize - 1) / blockSize
    blocksInLastPiece := (last + blockSize - 1) / blockSize
    pieceInfo := List.replicate total .new }

/-- `SetBlocksAbsent` and `free_block_map`. -/
def setBlocksAbsent (t : Pieces) (p : Nat) : Pieces :=
  { t with pieceInfo := t.pieceInfo.modify p fun i => { i with blockMap := none } }

/-- `Torrent::BlockPresent`. -/
def blockPresent (t : Pieces) (p block : Nat) : Bool :=
  match (t.pieceInfo.getD p .new).blockMap with
  | none => false
  | some map => map.getBit block

/-- `Torrent::AllBlocksPresent`. -/
def allBlocksPresent (t : Pieces) (p : Nat) : Bool :=
  match (t.pieceInfo.getD p .new).blockMap with
  | none => false
  | some map => map.hasAllSet 0 (t.blocksInPieceOf p)

/-- `Torrent::SetBlockPresent`. -/
def setBlockPresent (t : Pieces) (p block : Nat) : Pieces :=
  let count := t.blocksInPieceOf p
  { t with
    pieceInfo := t.pieceInfo.modify p fun i =>
      { i with blockMap := some ((i.blockMap.getD (.new count)).setBit block true) } }

/-- The branch of `ValidatePiece` for a good piece. -/
def pieceOk (t : Pieces) (p : Nat) : Pieces :=
  if t.myBitfield.getBit p then t
  else
    { t with
      totalLeft := (t.totalLeft + 2 ^ 64 - t.pieceLengthOf p) % 2 ^ 64
      completePieces := (t.completePieces + 1) % 2 ^ 32
      myBitfield := t.myBitfield.setBit p true }.setBlocksAbsent p

/-- The branch of `ValidatePiece` for a bad piece. -/
def pieceBad (t : Pieces) (p : Nat) : Pieces :=
  (if t.myBitfield.getBit p then
    { t with
      totalLeft := (t.totalLeft + t.pieceLengthOf p) % 2 ^ 64
      completePieces := (t.completePieces + 2 ^ 32 - 1) % 2 ^ 32
      myBitfield := t.myBitfield.setBit p false }
  else t).setBlocksAbsent p

/-- The branch of `Startup` that takes the data for valid. -/
def allValid (t : Pieces) : Pieces :=
  { t with
    myBitfield := t.myBitfield.setRange 0 t.totalPieces true
    completePieces := t.totalPieces
    totalLeft := 0
    complete := true }

/-! ## What the counters promise -/

/-- The sum of `PieceLength` over the set bits. -/
def presentLength (t : Pieces) : Nat := t.myBitfield.weight t.pieceLengthOf

/-- The counters agree with `my_bitfield`. -/
structure Exact (t : Pieces) : Prop where
  complete_pieces : t.completePieces = t.myBitfield.count
  total_left : t.totalLeft + t.presentLength = t.totalLength
  complete : t.complete = true → ∀ p < t.totalPieces, t.myBitfield.getBit p = true

/-- The table fits the total length, and the numbers fit their types. -/
structure Sized (t : Pieces) : Prop where
  bit_length : t.myBitfield.bitLength = t.totalPieces
  total_pieces_lt : t.totalPieces < 2 ^ 32
  total_length_lt : t.totalLength < 2 ^ 64
  piece_pos : ∀ p < t.totalPieces, 0 < t.pieceLengthOf p
  whole : ∑ p ∈ Finset.range t.totalPieces, t.pieceLengthOf p ≤ t.totalLength

theorem exact_empty : Exact empty where
  complete_pieces := (BitField.weight_new 0 fun _ => 1).symm
  total_left := BitField.weight_new 0 empty.pieceLengthOf
  complete h := absurd h Bool.false_ne_true

theorem sized_empty : Sized empty where
  bit_length := rfl
  total_pieces_lt := by decide
  total_length_lt := by decide
  piece_pos p hp := absurd hp (Nat.not_lt_zero p)
  whole := Nat.le_refl 0

variable {t u : Pieces} {p : Nat}

/-- The members that an operation on single pieces leaves alone. -/
structure SameSizes (t u : Pieces) : Prop where
  total_pieces : u.totalPieces = t.totalPieces
  last_piece_length : u.lastPieceLength = t.lastPieceLength
  piece_length : u.pieceLength = t.pieceLength
  total_length : u.totalLength = t.totalLength

theorem SameSizes.pieceLengthOf_eq (h : SameSizes t u) : u.pieceLengthOf = t.pieceLengthOf := by
  funext q
  rw [pieceLengthOf, pieceLengthOf, h.total_pieces, h.last_piece_length, h.piece_length]

theorem Sized.congr (h : t.Sized) (hSame : SameSizes t u)
    (hBits : u.myBitfield.bitLength = t.myBitfield.bitLength) : u.Sized := by
  have hEq := hSame.pieceLengthOf_eq
  refine ⟨?_, ?_, ?_, ?_, ?_⟩
  · rw [hBits, hSame.total_pieces, h.bit_length]
  · rw [hSame.total_pieces]
    exact h.total_pieces_lt
  · rw [hSame.total_length]
    exact h.total_length_lt
  · rw [hSame.total_pieces, hEq]
    exact h.piece_pos
  · rw [hSame.total_pieces, hEq, hSame.total_length]
    exact h.whole

/-- The bookkeeping of one changed bit. -/
theorem Exact.of_setBit {v : Bool} (h : t.Exact) (hSized : t.Sized) (hp : p < t.totalPieces)
    (hSame : SameSizes t u) (hBits : u.myBitfield = t.myBitfield.setBit p v)
    (hComplete : u.complete = false)
    (hCount : u.completePieces + (if t.myBitfield.getBit p then 1 else 0) =
      t.completePieces + if v then 1 else 0)
    (hLeft : u.totalLeft + (if v then t.pieceLengthOf p else 0) =
      t.totalLeft + if t.myBitfield.getBit p then t.pieceLengthOf p else 0) : u.Exact := by
  have hIn : p < t.myBitfield.bitLength := hSized.bit_length ▸ hp
  have hOne := BitField.weight_setBit hIn v fun _ => 1
  have hAll := BitField.weight_setBit hIn v t.pieceLengthOf
  change _ = t.myBitfield.count + _ at hOne
  change _ = t.presentLength + _ at hAll
  have hOldCount := h.complete_pieces
  have hOldLeft := h.total_left
  refine ⟨?_, ?_, fun hTrue => ?_⟩
  · rw [hBits]
    change _ = (t.myBitfield.setBit p v).weight fun _ => 1
    omega
  · rw [presentLength, hBits, hSame.pieceLengthOf_eq, hSame.total_length]
    omega
  · rw [hComplete] at hTrue
    exact absurd hTrue Bool.false_ne_true

theorem count_le (h : t.Sized) : t.myBitfield.count ≤ t.totalPieces := by
  rw [← h.bit_length]
  exact t.myBitfield.count_le

/-- Room for one more piece, while its bit is clear. -/
theorem presentLength_add_le (h : t.Sized) (hp : p < t.totalPieces)
    (hClear : t.myBitfield.getBit p = false) :
    t.presentLength + t.pieceLengthOf p ≤ t.totalLength ∧
      t.myBitfield.count + 1 ≤ t.totalPieces := by
  have hIn : p < t.myBitfield.bitLength := h.bit_length ▸ hp
  have hSet := BitField.weight_setBit hIn true
  simp only [hClear, if_true, Bool.false_eq_true, if_false, Nat.add_zero] at hSet
  have hSized : ((t.myBitfield.setBit p true).weight t.pieceLengthOf ≤ t.totalLength) := by
    have hLe := (t.myBitfield.setBit p true).weight_le t.pieceLengthOf
    rw [BitField.bitLength_setBit, h.bit_length] at hLe
    exact hLe.trans h.whole
  have hCount : (t.myBitfield.setBit p true).weight (fun _ => 1) ≤ t.totalPieces := by
    rw [← h.bit_length]
    exact (t.myBitfield.setBit p true).count_le
  rw [hSet] at hSized hCount
  exact ⟨hSized, hCount⟩

theorem Exact.pieceOk (h : t.Exact) (hSized : t.Sized) (hp : p < t.totalPieces) :
    (t.pieceOk p).Exact := by
  unfold Pieces.pieceOk
  by_cases hBit : t.myBitfield.getBit p = true
  · rw [if_pos hBit]
    exact h
  · rw [if_neg hBit]
    have hClear := Bool.eq_false_iff.mpr hBit
    have hRoom := presentLength_add_le hSized hp hClear
    have hLeft := h.total_left
    have hCount := h.complete_pieces
    have hPieces := hSized.total_pieces_lt
    have hLength := hSized.total_length_lt
    have hOpen : t.complete = false :=
      Bool.eq_false_iff.mpr fun hComplete => hBit (h.complete hComplete p hp)
    unfold setBlocksAbsent
    refine h.of_setBit hSized hp ⟨rfl, rfl, rfl, rfl⟩ (v := true) rfl hOpen ?_ ?_
    · rw [hClear, if_neg Bool.false_ne_true, if_pos rfl]
      show (t.completePieces + 1) % 2 ^ 32 + 0 = _
      omega
    · rw [hClear, if_neg Bool.false_ne_true, if_pos rfl]
      show (t.totalLeft + 2 ^ 64 - t.pieceLengthOf p) % 2 ^ 64 + _ = _
      omega

theorem Exact.pieceBad (h : t.Exact) (hSized : t.Sized) (hp : p < t.totalPieces)
    (hKept : t.myBitfield.getBit p = true → t.complete = false) : (t.pieceBad p).Exact := by
  unfold Pieces.pieceBad
  by_cases hBit : t.myBitfield.getBit p = true
  · rw [if_pos hBit]
    have hLeft := h.total_left
    have hCount := h.complete_pieces
    have hPieces := hSized.total_pieces_lt
    have hLength := hSized.total_length_lt
    have hMost := count_le hSized
    have hIn : p < t.myBitfield.bitLength := hSized.bit_length ▸ hp
    have hSet := BitField.weight_setBit hIn false
    simp only [hBit, if_true, Bool.false_eq_true, if_false, Nat.add_zero] at hSet
    have hOne := hSet fun _ => 1
    have hAll := hSet t.pieceLengthOf
    change _ = t.myBitfield.count at hOne
    change _ = t.presentLength at hAll
    unfold setBlocksAbsent
    refine h.of_setBit hSized hp ⟨rfl, rfl, rfl, rfl⟩ (v := false) rfl (hKept hBit) ?_ ?_
    · rw [hBit, if_neg Bool.false_ne_true, if_pos rfl]
      show (t.completePieces + 2 ^ 32 - 1) % 2 ^ 32 + _ = _
      omega
    · rw [hBit, if_neg Bool.false_ne_true, if_pos rfl]
      show (t.totalLeft + t.pieceLengthOf p) % 2 ^ 64 + 0 = _
      omega
  · rw [if_neg hBit]
    exact ⟨h.complete_pieces, h.total_left, h.complete⟩

theorem Sized.pieceOk (h : t.Sized) : (t.pieceOk p).Sized := by
  unfold Pieces.pieceOk setBlocksAbsent
  split
  · exact h
  · exact h.congr ⟨rfl, rfl, rfl, rfl⟩ rfl

theorem Sized.pieceBad (h : t.Sized) : (t.pieceBad p).Sized := by
  unfold Pieces.pieceBad
  split
  · unfold setBlocksAbsent
    exact h.congr ⟨rfl, rfl, rfl, rfl⟩ rfl
  · exact h.congr ⟨rfl, rfl, rfl, rfl⟩ rfl

theorem Exact.setBlockPresent (h : t.Exact) (p block : Nat) : (t.setBlockPresent p block).Exact :=
  ⟨h.complete_pieces, h.total_left, h.complete⟩

theorem Sized.setBlockPresent (h : t.Sized) (p block : Nat) : (t.setBlockPresent p block).Sized :=
  h.congr ⟨rfl, rfl, rfl, rfl⟩ rfl

theorem Exact.setComplete (h : t.Exact) (hAll : ∀ p < t.totalPieces, t.myBitfield.getBit p = true) :
    Exact { t with complete := true } :=
  ⟨h.complete_pieces, h.total_left, fun _ => hAll⟩

theorem Sized.setComplete (h : t.Sized) : Sized { t with complete := true } :=
  h.congr ⟨rfl, rfl, rfl, rfl⟩ rfl

/-- Nothing left means that every piece is there. -/
theorem Exact.all_of_totalLeft (h : t.Exact) (hSized : t.Sized) (hZero : t.totalLeft = 0) :
    ∀ q < t.totalPieces, t.myBitfield.getBit q = true := by
  have hLeft := h.total_left
  have hWhole := hSized.whole
  have hPos := hSized.piece_pos
  rw [← hSized.bit_length] at hWhole hPos ⊢
  apply BitField.all_of_weight hPos
  change _ ≤ t.presentLength
  omega

/-! ## Sizing the table -/

/-- The number of pieces is not cut to fit its type. -/
def Fits (pieceLength totalLength : Nat) : Prop :=
  countPieces pieceLength totalLength = (totalLength + pieceLength - 1) / pieceLength

theorem sum_lengths (n len last : Nat) :
    ∑ p ∈ Finset.range (n + 1), (if p + 1 = n + 1 then last else len) = n * len + last := by
  rw [Finset.sum_range_succ, if_pos rfl]
  have hRest : ∑ p ∈ Finset.range n, (if p + 1 = n + 1 then last else len) =
      ∑ p ∈ Finset.range n, len := by
    apply Finset.sum_congr rfl
    intro p hp
    have hlt := Finset.mem_range.mp hp
    rw [if_neg (by omega)]
  rw [hRest, Finset.sum_const_nat fun _ _ => rfl, Finset.card_range]

/-- `(tl+len-1)/len` counts the full pieces and the shorter last one. -/
theorem ceil_eq {len : Nat} (hLen : 0 < len) (tl : Nat) :
    (tl + len - 1) / len = if tl % len = 0 then tl / len else tl / len + 1 := by
  have hSplit := Nat.div_add_mod tl len
  have hMod := Nat.mod_lt tl hLen
  split
  · next hZero =>
    have hEq : tl + len - 1 = len - 1 + len * (tl / len) := by omega
    rw [hEq, Nat.add_mul_div_left _ _ hLen, Nat.div_eq_of_lt (by omega), Nat.zero_add]
  · next hRest =>
    have hEq : tl + len - 1 = tl % len - 1 + len * (tl / len + 1) := by
      rw [Nat.mul_add, Nat.mul_one]
      omega
    rw [hEq, Nat.add_mul_div_left _ _ hLen, Nat.div_eq_of_lt (by omega), Nat.zero_add]

theorem countPieces_le (len tl : Nat) : countPieces len tl ≤ (tl + len - 1) / len :=
  (Nat.mod_le _ _).trans (Nat.div_le_div_right (Nat.mod_le _ _))

theorem lastLength_pos {len : Nat} (hLen : 0 < len) (tl : Nat) : 0 < lastLength len tl := by
  unfold lastLength
  split <;> omega

/-- The pieces cover the total length, and no more; all of it when their number
fits its type. -/
theorem sum_setTotalLength (t : Pieces) (hLen : 0 < t.pieceLength) (tl : Nat) :
    (∑ p ∈ Finset.range (t.setTotalLength tl).totalPieces,
        (t.setTotalLength tl).pieceLengthOf p ≤ tl) ∧
      ((t.setTotalLength tl).totalPieces = (tl + t.pieceLength - 1) / t.pieceLength →
        ∑ p ∈ Finset.range (t.setTotalLength tl).totalPieces,
          (t.setTotalLength tl).pieceLengthOf p = tl) := by
  have hLe := countPieces_le t.pieceLength tl
  have hCeil := ceil_eq hLen tl
  have hSplit := Nat.div_add_mod tl t.pieceLength
  have hSum : ∀ n, ∑ p ∈ Finset.range n,
        (if p + 1 = n then lastLength t.pieceLength tl else t.pieceLength) =
      if n = 0 then 0 else (n - 1) * t.pieceLength + lastLength t.pieceLength tl := by
    intro n
    cases n with
    | zero => rfl
    | succ n => rw [sum_lengths, if_neg (Nat.succ_ne_zero n), Nat.add_sub_cancel]
  show (∑ p ∈ Finset.range (countPieces t.pieceLength tl), (if p + 1 = countPieces t.pieceLength tl
      then lastLength t.pieceLength tl else t.pieceLength) ≤ tl) ∧ _
  rw [show (t.setTotalLength tl).totalPieces = countPieces t.pieceLength tl from rfl,
    show (t.setTotalLength tl).pieceLengthOf = fun p =>
      if p + 1 = countPieces t.pieceLength tl then lastLength t.pieceLength tl
      else t.pieceLength from rfl]
  rw [hSum]
  generalize countPieces t.pieceLength tl = n at hLe
  rw [hCeil] at hLe ⊢
  generalize t.pieceLength = len at *
  unfold lastLength
  by_cases hZero : tl % len = 0
  · rw [if_pos hZero] at hLe ⊢
    rw [if_pos hZero]
    cases n with
    | zero =>
        refine ⟨Nat.zero_le _, fun hEq => ?_⟩
        rw [← hEq, Nat.mul_zero] at hSplit
        rw [if_pos rfl]
        omega
    | succ n =>
        have hMul : (n + 1) * len ≤ tl / len * len := Nat.mul_le_mul_right _ hLe
        rw [Nat.mul_comm (tl / len), Nat.add_mul, Nat.one_mul] at hMul
        rw [if_neg (Nat.succ_ne_zero n), Nat.add_sub_cancel]
        refine ⟨by omega, fun hEq => ?_⟩
        rw [← hEq, Nat.mul_comm, Nat.add_mul, Nat.one_mul] at hSplit
        omega
  · rw [if_neg hZero] at hLe ⊢
    rw [if_neg hZero]
    cases n with
    | zero =>
        exact ⟨Nat.zero_le _, fun hEq => absurd hEq.symm (Nat.succ_ne_zero _)⟩
    | succ n =>
        have hMul : n * len ≤ tl / len * len := Nat.mul_le_mul_right _ (by omega)
        rw [Nat.mul_comm (tl / len)] at hMul
        rw [if_neg (Nat.succ_ne_zero n), Nat.add_sub_cancel]
        refine ⟨by omega, fun hEq => ?_⟩
        rw [← Nat.succ.inj hEq, Nat.mul_comm] at hSplit
        omega

theorem sized_setTotalLength (hLen : 0 < t.pieceLength) {tl : Nat} (htl : tl < 2 ^ 64) :
    (t.setTotalLength tl).Sized where
  bit_length := rfl
  total_pieces_lt := Nat.mod_lt _ (by decide)
  total_length_lt := htl
  piece_pos q _ := by
    unfold pieceLengthOf
    split
    · exact lastLength_pos hLen tl
    · exact hLen
  whole := (sum_setTotalLength t hLen tl).1

/-- The new bit field is empty, so the counters agree with it when nothing was
counted before. -/
theorem exact_setTotalLength_iff {tl : Nat} :
    (t.setTotalLength tl).Exact ↔
      t.completePieces = 0 ∧ (t.complete = true → countPieces t.pieceLength tl = 0) := by
  have hCount : (t.setTotalLength tl).myBitfield.count = 0 := BitField.weight_new _ _
  have hPresent : (t.setTotalLength tl).presentLength = 0 := BitField.weight_new _ _
  constructor
  · intro h
    refine ⟨h.complete_pieces.trans hCount, fun hComplete => ?_⟩
    by_contra hne
    have hBit := h.complete hComplete 0 (Nat.pos_of_ne_zero hne)
    exact Bool.false_ne_true ((BitField.getBit_new _ 0).symm.trans hBit)
  · rintro ⟨hZero, hNone⟩
    refine ⟨hZero.trans hCount.symm, ?_, fun hComplete q hq => ?_⟩
    · rw [hPresent]
      rfl
    · change q < countPieces t.pieceLength tl at hq
      rw [hNone hComplete] at hq
      exact absurd hq (Nat.not_lt_zero q)

/-- Taking all data for valid is right when the pieces cover the total length,
whatever was counted before. -/
theorem exact_allValid_iff (h : t.Sized) :
    t.allValid.Exact ↔
      ∑ p ∈ Finset.range t.totalPieces, t.pieceLengthOf p = t.totalLength := by
  have hBits : t.allValid.myBitfield.bitLength = t.totalPieces :=
    (BitField.bitLength_setRange _ _ _ _).trans h.bit_length
  have hAll : ∀ p < t.allValid.myBitfield.bitLength, t.allValid.myBitfield.getBit p = true := by
    intro p hp
    rw [hBits, ← h.bit_length] at hp
    show (t.myBitfield.setRange 0 t.totalPieces true).getBit p = true
    rw [← h.bit_length]
    exact BitField.getBit_setRange_all _ p hp
  have hCount : t.allValid.myBitfield.count = t.totalPieces := by
    rw [BitField.count, BitField.weight_of_all hAll, ← Finset.card_eq_sum_ones,
      Finset.card_range, hBits]
  have hPresent : t.allValid.presentLength =
      ∑ p ∈ Finset.range t.totalPieces, t.pieceLengthOf p := by
    rw [presentLength, BitField.weight_of_all hAll, hBits]
    rfl
  constructor
  · intro hExact
    have hLeft := hExact.total_left
    rw [hPresent] at hLeft
    change 0 + _ = t.totalLength at hLeft
    omega
  · intro hWhole
    refine ⟨hCount.symm, ?_, fun _ p hp => hAll p (hBits.symm ▸ hp)⟩
    rw [hPresent, hWhole]
    exact Nat.zero_add _

/-- So the branch of `Startup` that skips validation is right when the number of
pieces is not cut to fit its type. -/
theorem exact_allValid_setTotalLength (hLen : 0 < t.pieceLength) {tl : Nat} (htl : tl < 2 ^ 64)
    (hFits : Fits t.pieceLength tl) : (t.setTotalLength tl).allValid.Exact :=
  (exact_allValid_iff (sized_setTotalLength hLen htl)).mpr
    ((sum_setTotalLength t hLen tl).2 hFits)

theorem sized_allValid (h : t.Sized) : t.allValid.Sized :=
  h.congr ⟨rfl, rfl, rfl, rfl⟩ (BitField.bitLength_setRange _ _ _ _)

end Pieces

end Lftp.Ports.TorrentPieces
