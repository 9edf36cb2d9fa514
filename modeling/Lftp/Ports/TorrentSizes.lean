import Mathlib.Data.BitVec
import Lftp.Ports.TorrentAccounting

/-!
# The sizes that metadata fix, and the validation that goes by them

What `SetMetadata` makes of the lengths in an info dictionary, and the loop of `Do`
that validates every piece after it. Both are in `TorrentAccounting`; here they are
compared with the lengths that the dictionary states.

* `sizes_exact_iff`: the sizes are those stated as long as `SHA1_DIGEST_SIZE` bytes
  for each piece can be counted in 32 bits, which is how the source counts them.
* `validation_covers_iff`: validation reads every piece once, if there are pieces and
  nothing ends the torrent before the last one is read.
-/

namespace Lftp.Ports.TorrentSizes

open Lftp.Verified
open Lftp.Ports.Bencode
open Lftp.Ports.TorrentPieces
open Lftp.Ports.TorrentAccounting

/-! ## The sizes stated -/

/-- The length that a file, or a torrent of one file, states. -/
def statedLength (n : BeNode) : Int := (lookupInt n (bytes "length")).toOption.getD 0

/-- The exact sum of the lengths stated. -/
def statedTotal (info : BeNode) : Int :=
  match lookup info (bytes "files") with
  | some (.list fs) => (fs.map statedLength).sum
  | _ => statedLength info

def statedPieceLength (info : BeNode) : Nat :=
  ((lookupInt info (bytes "piece length")).toOption.getD 0).toNat

/-- The number of pieces it takes. -/
def statedPieces (info : BeNode) : Nat :=
  ((statedTotal info).toNat + statedPieceLength info - 1) / statedPieceLength info

/-- What `SetMetadata` is to fix. -/
structure SizesExact (info : BeNode) (t : Torrent) : Prop where
  piece_length : 0 < t.table.pieceLength
  total_length : (t.table.totalLength : Int) = statedTotal info
  total_pieces : t.table.totalPieces
    = (t.table.totalLength + t.table.pieceLength - 1) / t.table.pieceLength
  hashes : t.hashes.length = 20 * t.table.totalPieces
  hash_in_range : ∀ p < t.table.totalPieces, p * 20 % 2 ^ 32 + 20 ≤ t.hashes.length

/-- The sum is taken in 64 bits. -/
theorem sumFiles_eq {i sum total : Nat} {fs : List BeNode} (h : sumFiles i sum fs = .ok total)
    (hSum : sum < 2 ^ 64) :
    0 ≤ (fs.map statedLength).sum
      ∧ total = (sum + (fs.map statedLength).sum.toNat) % 2 ^ 64 := by
  induction fs generalizing i sum with
  | nil =>
      rw [sumFiles, Except.ok.injEq] at h
      subst h
      exact ⟨Int.le_refl 0, (Nat.mod_eq_of_lt hSum).symm⟩
  | cons f fs ih =>
      cases f with
      | dict raw d =>
          rw [sumFiles] at h
          split at h
          · cases h
          · rename_i num hNum
            split at h
            · cases h
            · rename_i hPos
              split at h
              · cases h
              · have hStated : statedLength (.dict raw d) = num := by
                  rw [statedLength, hNum]
                  rfl
                have hRest := ih h (Nat.mod_lt _ (by decide))
                rw [List.map_cons, List.sum_cons, hStated]
                refine ⟨by omega, ?_⟩
                rw [hRest.2, Nat.mod_add_mod]
                congr 1
                omega
      | _ => cases h

/-- What the total length that is read has to do with the lengths stated. -/
theorem readLengths_stated {info : BeNode} {pl pl' tl : Nat}
    (h : readLengths info pl = .lengths pl' tl) (htl : tl < 2 ^ 64) :
    pl' = pl ∧ 0 ≤ statedTotal info ∧ tl = (statedTotal info).toNat % 2 ^ 64 := by
  unfold readLengths at h
  split at h
  · rename_i hFiles
    have hTotal : statedTotal info = statedLength info := by
      rw [statedTotal, hFiles]
    split at h
    · cases h
    rename_i num hNum
    have hStated : statedLength info = num := by
      rw [statedLength, hNum]
      rfl
    split at h
    · cases h
    obtain ⟨rfl, rfl⟩ := Reading.lengths.inj h
    rw [hTotal, hStated]
    exact ⟨rfl, by omega, (Nat.mod_eq_of_lt htl).symm⟩
  · rename_i fs hFiles
    have hTotal : statedTotal info = (fs.map statedLength).sum := by
      rw [statedTotal, hFiles]
    split at h
    · cases h
    rename_i sum hSum
    obtain ⟨rfl, rfl⟩ := Reading.lengths.inj h
    have hExact := sumFiles_eq hSum (by decide)
    rw [hTotal]
    exact ⟨rfl, hExact.1, by rw [hExact.2, Nat.zero_add]⟩
  · cases h

theorem readInfo_stated {info : BeNode} {pl tl : Nat} (h : readInfo info = .lengths pl tl) :
    pl = statedPieceLength info ∧ 1024 ≤ pl ∧ pl < 2 ^ 29 ∧ 0 ≤ statedTotal info
      ∧ tl = (statedTotal info).toNat % 2 ^ 64 := by
  have hBounds := readInfo_lengths h
  unfold readInfo at h
  split at h
  · cases h
  rename_i num hNum
  have hPiece : statedPieceLength info = num.toNat := by
    rw [statedPieceLength, hNum]
    rfl
  split at h
  · cases h
  rename_i hRange
  obtain ⟨rfl, hTotal⟩ := readLengths_stated h hBounds.2
  exact ⟨hPiece.symm, by omega, by omega, hTotal⟩

/-- An accepted dictionary: the sizes of the table and the hashes. -/
theorem setInfo_accepted {t t' : Torrent} {info : BeNode} (h : t.setInfo info = (t', true)) :
    ∃ pl tl, readInfo info = .lengths pl tl ∧ t'.table.pieceLength = pl
      ∧ t'.table.totalLength = tl ∧ t'.table.totalPieces = Pieces.countPieces pl tl
      ∧ t'.hashes.length = 20 * Pieces.countPieces pl tl % 2 ^ 32 := by
  unfold Torrent.setInfo at h
  dsimp only at h
  split at h
  · cases (Prod.mk.inj h).2
  · cases (Prod.mk.inj h).2
  · cases (Prod.mk.inj h).2
  rename_i pl tl hRead
  split at h
  · cases (Prod.mk.inj h).2
  rename_i hashes hHashes
  have hLength : hashes.length = 20 * Pieces.countPieces pl tl % 2 ^ 32 := by
    unfold readHashes at hHashes
    split at hHashes
    · cases hHashes
    · split at hHashes
      · rename_i s _ hEq
        rw [← Except.ok.inj hHashes]
        exact hEq
      · cases hHashes
  obtain rfl := (Prod.mk.inj h).1
  exact ⟨pl, tl, hRead, rfl, rfl, rfl, hLength⟩

/-- When `SetMetadata` accepts a dictionary, the sizes it fixes are those stated if and
only if the bytes of all hashes can be counted in 32 bits. -/
theorem sizes_exact_iff {sha1 : Bytes → Bytes} {t t' : Torrent} {md : Bytes} {info : BeNode}
    (hInfo : t.info.or (parse md).1 = some info) (h : t.setMetadata sha1 md = (t', true)) :
    SizesExact info t' ↔ 20 * statedPieces info < 2 ^ 32 := by
  have hSet : ({ t with metadata := some md, infoHash := some (sha1 md) } : Torrent).setInfo info
      = (t', true) := by
    unfold Torrent.setMetadata at h
    split at h
    · cases (Prod.mk.inj h).2
    · dsimp only at h
      rw [hInfo] at h
      exact h
  obtain ⟨pl, tl, hRead, hPl, hTl, hPieces, hHashes⟩ := setInfo_accepted hSet
  obtain ⟨hStated, hMin, hMax, hPos, hTotal⟩ := readInfo_stated hRead
  have hCount : statedPieces info = ((statedTotal info).toNat + pl - 1) / pl := by
    rw [statedPieces, ← hStated]
  constructor
  · intro hExact
    have hLength := hExact.hashes
    have hLess : 20 * Pieces.countPieces pl tl % 2 ^ 32 < 2 ^ 32 := Nat.mod_lt _ (by decide)
    have hSame : tl = (statedTotal info).toNat := by
      have hEq := hExact.total_length
      rw [hTl] at hEq
      omega
    have hCeil := hExact.total_pieces
    rw [hPieces, hTl, hPl, hSame, ← hCount] at hCeil
    rw [hPieces, hHashes] at hLength
    rw [← hCeil, ← hSame, ← hLength]
    exact hLess
  · intro hFits
    have hBound : (statedTotal info).toNat + pl - 1 < pl * (statedPieces info + 1) := by
      rw [hCount]
      exact Nat.lt_mul_div_succ _ (by omega)
    have hSmall : pl * (statedPieces info + 1) ≤ 2 ^ 29 * 2 ^ 28 :=
      Nat.mul_le_mul (by omega) (by omega)
    have hSame : tl = (statedTotal info).toNat := by
      rw [hTotal]
      exact Nat.mod_eq_of_lt (by omega)
    have hRound : ((statedTotal info).toNat + pl - 1) % 2 ^ 64
        = (statedTotal info).toNat + pl - 1 := Nat.mod_eq_of_lt (by omega)
    have hNarrow : statedPieces info % 2 ^ 32 = statedPieces info :=
      Nat.mod_eq_of_lt (by omega)
    have hCeil : Pieces.countPieces pl tl = statedPieces info := by
      rw [Pieces.countPieces, hSame, hRound, ← hCount, hNarrow]
    have hLength : t'.hashes.length = 20 * statedPieces info := by
      rw [hHashes, hCeil]
      exact Nat.mod_eq_of_lt (by omega)
    refine ⟨by omega, by rw [hTl]; omega, ?_, by rw [hLength, hPieces, hCeil], fun p hp => ?_⟩
    · rw [hPieces, hCeil, hTl, hPl, hSame, hCount]
    · rw [hPieces, hCeil] at hp
      rw [hLength, Nat.mod_eq_of_lt (by omega)]
      omega

/-- A torrent of one file of 2^42 bytes in pieces of 1024, and no hashes. -/
def hugeInfo : BeNode :=
  .dict [] [(bytes "length", .int (2 ^ 42)), (bytes "piece length", .int 1024),
    (bytes "pieces", .str [])]

/-- A file of five bytes, with the hash of its one piece. -/
def smallInfo : BeNode :=
  .dict [] [(bytes "length", .int 5), (bytes "piece length", .int 1024),
    (bytes "pieces", .str (List.replicate 20 0))]

/-- The metainfo file has been read, and `SetMetadata` takes its dictionary. -/
def described (info : BeNode) : Torrent × Bool :=
  ({ Torrent.new false false false with info := some info }).setMetadata zeroHash []

theorem sizes_exact_iff_smallInfo : SizesExact smallInfo (described smallInfo).1 := by
  have hInfo : ({ Torrent.new false false false with info := some smallInfo } : Torrent).info.or
      (parse []).1 = some smallInfo := rfl
  have hSet : ({ Torrent.new false false false with info := some smallInfo } : Torrent).setMetadata
      zeroHash [] = ((described smallInfo).1, true) := rfl
  exact (sizes_exact_iff hInfo hSet).mpr (by decide)

/-- No hash is needed for 2^32 pieces, since as many as that are none. -/
theorem not_sizes_exact :
    ¬ ∀ (sha1 : Bytes → Bytes) (t t' : Torrent) (md : Bytes) (info : BeNode),
      t.info.or (parse md).1 = some info → t.setMetadata sha1 md = (t', true) →
      SizesExact info t' := by
  intro hAll
  have hExact := hAll zeroHash { Torrent.new false false false with info := some hugeInfo }
    (described hugeInfo).1 [] hugeInfo rfl (by rfl)
  exact absurd hExact.total_pieces (by decide)

/-! ## Validating -/

/-- What a call of `Do` finds: the state of `timeout_timer`, and what `RetrieveBlock`
returns if it is called. -/
structure Call where
  timedOut : Bool
  read : Except Bytes Bytes

/-- A call of `Do` up to the end of the branch `if(validating)`, with the piece that it
validates. -/
def doValidating (sha1 : Bytes → Bytes) (t : Torrent) (c : Call) : Torrent × Option Nat :=
  if t.shuttingDown then (t, none)
  else if t.table.complete = false ∧ t.building.isNone ∧ c.timedOut then
    (t.setError (bytes "timed out with no progress"), none)
  else if t.validating then (t.validate sha1 c.read, some t.validateIndex)
  else (t, none)

/-- The torrent after `n` calls, and the pieces validated in their order. -/
def calls (sha1 : Bytes → Bytes) (cs : Nat → Call) (t : Torrent) : Nat → Torrent × List Nat
  | 0 => (t, [])
  | n + 1 =>
    let (u, done) := calls sha1 cs t n
    let (v, p) := doValidating sha1 u (cs n)
    (v, done ++ p.toList)

/-- Validation ends after every piece has been validated once, and no other. -/
def Covers (sha1 : Bytes → Bytes) (cs : Nat → Call) (t : Torrent) : Prop :=
  ∃ n, (calls sha1 cs t n).1.validating = false
    ∧ (calls sha1 cs t n).2 = List.range t.table.totalPieces

/-- The call for piece `p` does not end the torrent: it comes in time, and if there is
a piece after this one, it can be read. A torrent that is being built has to have all
of it. -/
structure GoesOn (t : Torrent) (p : Nat) (c : Call) : Prop where
  in_time : t.table.complete = true ∨ t.building.isSome = true ∨ c.timedOut = false
  readable : p + 1 < t.table.totalPieces →
    ∃ buf, c.read = .ok buf ∧ (t.building.isSome = true → buf.length = t.table.pieceLengthOf p)

/-- What validating a piece leaves alone. -/
structure Like (t u : Torrent) : Prop where
  sizes : Pieces.SameSizes t.table u.table
  complete : u.table.complete = t.table.complete
  building : u.building.isSome = t.building.isSome
  cause : u.invalidCause = t.invalidCause
  down : u.shuttingDown = t.shuttingDown

theorem Like.refl (t : Torrent) : Like t t := ⟨⟨rfl, rfl, rfl, rfl⟩, rfl, rfl, rfl, rfl⟩

theorem Like.trans {t u v : Torrent} (h : Like t u) (h' : Like u v) : Like t v where
  sizes :=
    ⟨h'.sizes.total_pieces.trans h.sizes.total_pieces,
      h'.sizes.last_piece_length.trans h.sizes.last_piece_length,
      h'.sizes.piece_length.trans h.sizes.piece_length,
      h'.sizes.total_length.trans h.sizes.total_length⟩
  complete := h'.complete.trans h.complete
  building := h'.building.trans h.building
  cause := h'.cause.trans h.cause
  down := h'.down.trans h.down

variable (sha1 : Bytes → Bytes) {cs : Nat → Call} {t u v : Torrent} {k : Nat}

theorem like_pieceOk (t : Pieces) (p : Nat) :
    Pieces.SameSizes t (t.pieceOk p) ∧ (t.pieceOk p).complete = t.complete := by
  unfold Pieces.pieceOk
  split
  · exact ⟨⟨rfl, rfl, rfl, rfl⟩, rfl⟩
  · exact ⟨⟨rfl, rfl, rfl, rfl⟩, rfl⟩

theorem like_pieceBad (t : Pieces) (p : Nat) :
    Pieces.SameSizes t (t.pieceBad p) ∧ (t.pieceBad p).complete = t.complete := by
  unfold Pieces.pieceBad Pieces.setBlocksAbsent
  split
  · exact ⟨⟨rfl, rfl, rfl, rfl⟩, rfl⟩
  · exact ⟨⟨rfl, rfl, rfl, rfl⟩, rfl⟩

/-- A piece that can be read is validated, whatever its hash. -/
theorem like_validatePiece {buf : Bytes} {p : Nat}
    (h : t.building.isSome = true → buf.length = t.table.pieceLengthOf p) :
    Like t (t.validatePiece sha1 p (.ok buf)) := by
  unfold Torrent.validatePiece
  dsimp only [Torrent.retrieveBlock]
  split_ifs with hValid hBuilding
  · have hTable := like_pieceOk t.table p
    exact ⟨hTable.1, hTable.2, Option.isSome_map .., rfl, rfl⟩
  · refine absurd ?_ hValid
    rw [Torrent.pieceValid, hBuilding, h hBuilding]
    simp
  · have hTable := like_pieceBad t.table p
    exact ⟨hTable.1, hTable.2, rfl, rfl, rfl⟩

/-- The piece cannot be read, and the torrent ends. -/
theorem down_validatePiece {r : Except Bytes Bytes} {p : Nat} (hCause : t.invalidCause = none)
    (h : ¬ ∃ buf, r = .ok buf ∧ (t.building.isSome = true → buf.length = t.table.pieceLengthOf p)) :
    (t.validatePiece sha1 p r).shuttingDown = true := by
  have hDown : ∀ msg, (t.setError msg).shuttingDown = true := fun msg =>
    caused_setError (fun hSome => by rw [hCause] at hSome; cases hSome) msg
  cases r with
  | error msg =>
      unfold Torrent.validatePiece
      dsimp only [Torrent.retrieveBlock]
      have hCaused : (t.setError msg).invalidCause.isSome = true
          → (t.setError msg).shuttingDown = true := fun _ => hDown msg
      split_ifs
      · exact hDown msg
      · exact caused_setError hCaused _
      · exact hDown msg
  | ok buf =>
      have hShort : ¬ (t.building.isSome = true → buf.length = t.table.pieceLengthOf p) :=
        fun hLength => h ⟨buf, rfl, hLength⟩
      have hBuilding : t.building.isSome = true := by
        by_contra hNone
        exact hShort fun hSome => absurd hSome hNone
      have hInvalid : t.pieceValid sha1 p buf = false := by
        rw [Torrent.pieceValid, Bool.and_eq_false_iff]
        exact .inl (beq_eq_false_iff_ne.mpr fun hEq => hShort fun _ => hEq)
      unfold Torrent.validatePiece
      dsimp only [Torrent.retrieveBlock]
      rw [hInvalid, if_neg Bool.false_ne_true, if_pos hBuilding]
      exact hDown _

theorem flags_setError (t : Torrent) (msg : Bytes) :
    (t.setError msg).validating = t.validating
      ∧ (t.setError msg).validateIndex = t.validateIndex ∧ (t.setError msg).table = t.table := by
  unfold Torrent.setError Torrent.shutdown
  split
  · exact ⟨rfl, rfl, rfl⟩
  · split
    · exact ⟨rfl, rfl, rfl⟩
    · exact ⟨rfl, rfl, rfl⟩

/-- Validating a piece does not end validation or size the table. -/
theorem flags_validatePiece (t : Torrent) (p : Nat) (r : Except Bytes Bytes) :
    (t.validatePiece sha1 p r).validating = t.validating
      ∧ (t.validatePiece sha1 p r).validateIndex = t.validateIndex
      ∧ (t.validatePiece sha1 p r).table.totalPieces = t.table.totalPieces := by
  have hRead : (t.retrieveBlock r).1.validating = t.validating
      ∧ (t.retrieveBlock r).1.validateIndex = t.validateIndex
      ∧ (t.retrieveBlock r).1.table = t.table := by
    cases r with
    | ok buf => exact ⟨rfl, rfl, rfl⟩
    | error msg => exact flags_setError t msg
  unfold Torrent.validatePiece
  dsimp only
  generalize t.retrieveBlock r = read at hRead ⊢
  rcases read with ⟨u, buf⟩
  obtain ⟨hValidating, hIndex, hTable⟩ := hRead
  dsimp only at hValidating hIndex hTable ⊢
  have hError := flags_setError u (bytes "File validation error")
  rw [← hValidating, ← hIndex, ← hTable]
  split_ifs
  · exact ⟨rfl, rfl, (like_pieceOk u.table p).1.total_pieces⟩
  · exact ⟨hError.1, hError.2.1, congrArg Pieces.totalPieces hError.2.2⟩
  · exact ⟨rfl, rfl, (like_pieceBad u.table p).1.total_pieces⟩

/-- A piece that is not the last. -/
theorem validate_more (h : t.validating = true) (hMore : t.validateIndex + 1 < t.table.totalPieces)
    (r : Except Bytes Bytes) : t.validate sha1 r
      = { t.validatePiece sha1 t.validateIndex r with validateIndex := t.validateIndex + 1 } := by
  have hFlags := flags_validatePiece sha1 t t.validateIndex r
  unfold Torrent.validate
  rw [if_pos h]
  dsimp only
  rw [hFlags.2.2, if_pos hMore]

/-- The last piece, or one that does not exist. -/
theorem validate_last (h : t.validating = true)
    (hLast : ¬ t.validateIndex + 1 < t.table.totalPieces) (r : Except Bytes Bytes) :
    (t.validate sha1 r).validating = false := by
  have hFlags := flags_validatePiece sha1 t t.validateIndex r
  have hShutdown : ∀ u : Torrent, u.shutdown.validating = u.validating := by
    intro u
    unfold Torrent.shutdown
    split <;> rfl
  unfold Torrent.validate
  rw [if_pos h]
  dsimp only
  rw [hFlags.2.2, if_neg hLast]
  split_ifs
  · exact hShutdown _
  · rfl
  · exact (flags_setError _ _).1
  · rfl

/-- `k` pieces have been validated and `k` is next. -/
structure Going (t u : Torrent) (k : Nat) : Prop extends Like t u where
  live : u.shuttingDown = false
  validating : u.validating = true
  index : u.validateIndex = k

/-- A torrent that ended while it was validating. -/
structure Stuck (u : Torrent) : Prop where
  down : u.shuttingDown = true
  validating : u.validating = true

theorem goesOn_start {p : Nat} {c : Call} : GoesOn t.startValidating p c ↔ GoesOn t p c :=
  ⟨fun h => ⟨h.in_time, h.readable⟩, fun h => ⟨h.in_time, h.readable⟩⟩

theorem Going.untimed (h : Going t u k) {c : Call} (hGo : GoesOn t k c) :
    ¬ (u.table.complete = false ∧ u.building.isNone = true ∧ c.timedOut = true) := by
  rintro ⟨hComplete, hBuilding, hTimed⟩
  rcases hGo.in_time with hDone | hSome | hTime
  · rw [← h.complete, hComplete] at hDone
    cases hDone
  · rw [← h.building, Option.isNone_iff_eq_none.mp hBuilding] at hSome
    cases hSome
  · rw [hTimed] at hTime
    cases hTime

/-- A call that goes on takes the next piece. -/
theorem Going.next (h : Going t u k) {c : Call} (hGo : GoesOn t k c) :
    doValidating sha1 u c = (u.validate sha1 c.read, some k)
      ∧ (k + 1 < t.table.totalPieces → Going t (u.validate sha1 c.read) (k + 1))
      ∧ (¬ k + 1 < t.table.totalPieces → (u.validate sha1 c.read).validating = false) := by
  have hTotal := h.sizes.total_pieces
  refine ⟨?_, fun hMore => ?_, fun hLast => ?_⟩
  · unfold doValidating
    rw [if_neg (by rw [h.live]; decide), if_neg (h.untimed hGo), if_pos h.validating, h.index]
  · obtain ⟨buf, hRead, hLength⟩ := hGo.readable hMore
    have hSame : u.building.isSome = true → buf.length = u.table.pieceLengthOf k := by
      rw [h.building, h.sizes.pieceLengthOf_eq]
      exact hLength
    have hLike := h.toLike.trans (like_validatePiece sha1 hSame)
    have hFlags := flags_validatePiece sha1 u k (.ok buf)
    rw [validate_more sha1 h.validating (by rw [h.index, hTotal]; exact hMore), h.index, hRead]
    refine ⟨⟨hLike.sizes, hLike.complete, hLike.building, hLike.cause, hLike.down⟩, ?_, ?_, rfl⟩
    · exact hLike.down.trans (h.down.symm.trans h.live)
    · exact hFlags.1.trans h.validating
  · exact validate_last sha1 h.validating (by rw [h.index, hTotal]; exact hLast) c.read

/-- A call that does not go on ends the torrent. -/
theorem Going.stop (h : Going t u k) (hCause : t.invalidCause = none) {c : Call}
    (hStop : ¬ GoesOn t k c) :
    Stuck (doValidating sha1 u c).1
      ∧ ((doValidating sha1 u c).2 = none
        ∨ k + 1 < t.table.totalPieces ∧ (doValidating sha1 u c).2 = some k) := by
  have hNone : u.invalidCause = none := h.cause.trans hCause
  unfold doValidating
  rw [if_neg (by rw [h.live]; decide)]
  by_cases hTimed : u.table.complete = false ∧ u.building.isNone = true ∧ c.timedOut = true
  · rw [if_pos hTimed]
    refine ⟨⟨caused_setError (fun hSome => ?_) _, (flags_setError u _).1.trans h.validating⟩, .inl rfl⟩
    rw [hNone] at hSome
    cases hSome
  · rw [if_neg hTimed, if_pos h.validating, h.index]
    have hTime : t.table.complete = true ∨ t.building.isSome = true ∨ c.timedOut = false := by
      rw [← h.complete, ← h.building]
      by_contra hNot
      simp only [not_or, Bool.not_eq_true, Bool.not_eq_false] at hNot
      exact hTimed ⟨hNot.1, Option.isSome_eq_false_iff.mp hNot.2.1, hNot.2.2⟩
    have hMore : k + 1 < t.table.totalPieces := by
      by_contra hLast
      exact hStop ⟨hTime, fun hLess => absurd hLess hLast⟩
    have hBad : ¬ ∃ buf, c.read = .ok buf
        ∧ (u.building.isSome = true → buf.length = u.table.pieceLengthOf k) := by
      rw [h.building, h.sizes.pieceLengthOf_eq]
      exact fun hRead => hStop ⟨hTime, fun _ => hRead⟩
    have hDown := down_validatePiece sha1 hNone hBad
    have hFlags := flags_validatePiece sha1 u k c.read
    rw [validate_more sha1 h.validating (by rw [h.index, h.sizes.total_pieces]; exact hMore), h.index]
    exact ⟨⟨hDown, hFlags.1.trans h.validating⟩, .inr ⟨hMore, rfl⟩⟩

/-- Nothing more is done for a torrent that ended. -/
theorem calls_of_stuck (n m : Nat) (h : Stuck (calls sha1 cs t n).1) :
    calls sha1 cs t (n + m) = calls sha1 cs t n := by
  induction m with
  | zero => rfl
  | succ m ih =>
      rw [Nat.add_succ, calls, ih]
      dsimp only
      unfold doValidating
      rw [if_pos h.down]
      exact Prod.ext rfl (List.append_nil _)

/-- As long as the calls go on, the pieces are taken one by one. -/
theorem going_calls (hStart : Going t t 0) (hGo : ∀ p < k, GoesOn t p (cs p))
    (hk : k < t.table.totalPieces) :
    Going t (calls sha1 cs t k).1 k ∧ (calls sha1 cs t k).2 = List.range k := by
  induction k with
  | zero => exact ⟨hStart, rfl⟩
  | succ k ih =>
      obtain ⟨hGoing, hDone⟩ := ih (fun p hp => hGo p (Nat.lt_succ_of_lt hp)) (by omega)
      obtain ⟨hCall, hMore, -⟩ := hGoing.next sha1 (hGo k (Nat.lt_succ_self k))
      rw [calls]
      dsimp only
      rw [hCall, hDone]
      exact ⟨hMore hk, (List.range_succ (n := k)).symm⟩

/-- No piece is taken back. -/
theorem prefix_calls (cs : Nat → Call) (t : Torrent) (n m : Nat) :
    (calls sha1 cs t n).2 <+: (calls sha1 cs t (n + m)).2 := by
  induction m with
  | zero => exact List.prefix_rfl
  | succ m ih => exact ih.trans (List.prefix_append _ _)

/-- A torrent that ends while it is validating does not come to the end of that. -/
theorem not_ended_of_stuck {n : Nat} (m : Nat) (h : Stuck (calls sha1 cs t n).1) :
    (calls sha1 cs t (n + m)).1.validating = true := by
  rw [calls_of_stuck sha1 n m h]
  exact h.validating

/-- From where it starts, validation reads every piece once and ends if and only if
there is a piece, and no call before the last one ends the torrent. -/
theorem validation_covers_iff (cs : Nat → Call) (t : Torrent)
    (hCause : t.shuttingDown = false → t.invalidCause = none) :
    Covers sha1 cs t.startValidating ↔ t.shuttingDown = false ∧ 0 < t.table.totalPieces
      ∧ ∀ p < t.table.totalPieces, GoesOn t p (cs p) := by
  have hStart : t.shuttingDown = false → Going t.startValidating t.startValidating 0 :=
    fun hLive => ⟨.refl _, hLive, rfl, rfl⟩
  constructor
  · rintro ⟨n, hEnd, hList⟩
    have hLive : t.shuttingDown = false := by
      by_contra hDown
      have hStuck : Stuck (calls sha1 cs t.startValidating 0).1 :=
        ⟨Bool.not_eq_false _ ▸ hDown, rfl⟩
      have hNever := not_ended_of_stuck sha1 n hStuck
      rw [Nat.zero_add, hEnd] at hNever
      cases hNever
    -- where a call does not go on, the torrent is stuck before the end
    have hGo : ∀ p, p < t.table.totalPieces ∨ p = 0 → GoesOn t p (cs p) := by
      intro p
      induction p using Nat.strong_induction_on with
      | _ p ih =>
          intro hp
          by_contra hStop
          have hBefore : ∀ q ≤ p, Going t.startValidating (calls sha1 cs t.startValidating q).1 q := by
            intro q hq
            rcases hp with hp | rfl
            · exact (going_calls sha1 (hStart hLive)
                (fun r hr => goesOn_start.mpr (ih r (by omega) (.inl (by omega))))
                (show q < t.table.totalPieces by omega)).1
            · obtain rfl := Nat.le_zero.mp hq
              exact hStart hLive
          have hStuck : Stuck (calls sha1 cs t.startValidating (p + 1)).1 :=
            ((hBefore p (Nat.le_refl p)).stop sha1 (hCause hLive) fun h =>
              hStop (goesOn_start.mp h)).1
          rcases Nat.lt_or_ge p n with hLess | hLess
          · obtain ⟨m, rfl⟩ := Nat.exists_eq_add_of_lt hLess
            have hNever := not_ended_of_stuck sha1 m hStuck
            rw [Nat.add_right_comm, hEnd] at hNever
            cases hNever
          · have hNever := (hBefore n hLess).validating
            rw [hEnd] at hNever
            cases hNever
    refine ⟨hLive, Nat.pos_of_ne_zero fun hZero => ?_, fun p hp => hGo p (.inl hp)⟩
    cases n with
    | zero => cases hEnd
    | succ n =>
        obtain ⟨hCall, -, -⟩ := (hStart hLive).next sha1 (goesOn_start.mpr (hGo 0 (.inr rfl)))
        have hFirst : (calls sha1 cs t.startValidating 1).2 = [0] := by
          show [] ++ (doValidating sha1 t.startValidating (cs 0)).2.toList = [0]
          rw [hCall]
          rfl
        have hPrefix := prefix_calls sha1 cs t.startValidating 1 n
        rw [hFirst, Nat.add_comm, hList] at hPrefix
        change [0] <+: List.range t.table.totalPieces at hPrefix
        rw [hZero] at hPrefix
        cases List.prefix_nil.mp hPrefix
  · rintro ⟨hLive, hPos, hGo⟩
    obtain ⟨last, hLast⟩ : ∃ last, t.table.totalPieces = last + 1 :=
      ⟨t.table.totalPieces - 1, by omega⟩
    obtain ⟨hGoing, hDone⟩ := going_calls sha1 (hStart hLive)
      (fun p hp => goesOn_start.mpr (hGo p (by omega)))
      (show last < t.table.totalPieces by omega)
    obtain ⟨hCall, -, hEnd⟩ := hGoing.next sha1 (goesOn_start.mpr (hGo last (by omega)))
    refine ⟨last + 1, ?_, ?_⟩
    · show (doValidating sha1 (calls sha1 cs t.startValidating last).1 (cs last)).1.validating = _
      rw [hCall]
      exact hEnd (by rw [show t.startValidating.table.totalPieces = last + 1 from hLast]; omega)
    · show (calls sha1 cs t.startValidating last).2
        ++ (doValidating sha1 (calls sha1 cs t.startValidating last).1 (cs last)).2.toList = _
      rw [hCall, hDone, show t.startValidating.table.totalPieces = last + 1 from hLast,
        List.range_succ]
      rfl

/-- Every call comes in time and reads five bytes. -/
def reads : Nat → Call := fun _ => ⟨false, .ok (bytes "hello")⟩

theorem validation_covers_smallInfo :
    Covers zeroHash reads (described smallInfo).1.startValidating := by
  refine (validation_covers_iff zeroHash reads _ fun _ => rfl).mpr ⟨rfl, by decide, fun p hp => ?_⟩
  have hOne : (described smallInfo).1.table.totalPieces = 1 := by decide
  exact ⟨.inr (.inr rfl), fun hMore => by omega⟩

/-- A torrent of one empty file. -/
def emptyInfo : BeNode :=
  .dict [] [(bytes "length", .int 0), (bytes "piece length", .int 1024),
    (bytes "pieces", .str [])]

/-- Without pieces, piece 0 is validated all the same. -/
theorem not_validation_covers :
    ¬ ∀ (sha1 : Bytes → Bytes) (cs : Nat → Call) (t : Torrent), t.shuttingDown = false →
      t.invalidCause = none → 0 < t.table.pieceLength → (∀ p, GoesOn t p (cs p)) →
      Covers sha1 cs t.startValidating := by
  intro hAll
  have hGo : ∀ p, GoesOn (described emptyInfo).1 p (reads p) := by
    have hNone : (described emptyInfo).1.table.totalPieces = 0 := by decide
    exact fun p => ⟨.inr (.inr rfl), fun hMore => by omega⟩
  obtain ⟨n, hEnd, hList⟩ := hAll zeroHash reads (described emptyInfo).1 rfl rfl (by decide) hGo
  cases n with
  | zero => cases hEnd
  | succ n =>
      have hPrefix := prefix_calls zeroHash reads (described emptyInfo).1.startValidating 1 n
      rw [Nat.add_comm, hList] at hPrefix
      exact absurd hPrefix (by decide)

end Lftp.Ports.TorrentSizes
