import Lftp.Ports.TorrentCounters

/-!
# Taking a bit field from a peer

The branch of `HandlePacket` for `MSG_BITFIELD`, with the bits that it looks at: those
behind the last piece in `has_any_set`, and then one for each piece. `total_pieces` is
an `unsigned` that `count`, `has_any_set` and `get_bit` are compared with or given as
an `int`.

`TorrentPeers.Torrent.check` is the same test for a table that `int` can count, and
`TorrentPeers.Torrent.accept` is what follows it.

`bitfield_within_iff` says when the bits looked at are all in the message; its bytes
are counted against `total_pieces/8`, which leaves out the last few pieces.
-/

namespace Lftp.Ports.TorrentPeers

open Lftp.Verified
open Lftp.Ports.TorrentPieces
open Lftp.Ports.TorrentPacket

/-- An `unsigned` taken for an `int`. -/
def asInt (n : Nat) : Int := (n : Int).bmod (2 ^ 32)

theorem asInt_of_lt {n : Nat} (h : n < 2 ^ 31) : asInt n = n := by
  unfold asInt
  rw [Int.bmod_eq_of_le] <;> omega

theorem asInt_neg {n : Nat} (h : 2 ^ 31 ≤ n) (hLt : n < 2 ^ 32) : asInt n < 0 := by
  unfold asInt Int.bmod
  dsimp only
  split <;> omega

/-- The bit is one of the array. -/
def Stored (bf : BitField) (i : Int) : Prop := 0 ≤ i ∧ i < bf.bitLength

instance (bf : BitField) (i : Int) : Decidable (Stored bf i) := inferInstanceAs (Decidable (_ ∧ _))

/-- `get_bit`, where the memory around the array holds `stray`. -/
def readBit (stray : Int → Bool) (bf : BitField) (i : Int) : Bool :=
  if Stored bf i then bf.getBit i.toNat else stray i

/-- The indexes `from`, `from+1` up to `to`. -/
def indexes (start stop : Int) : List Int :=
  (List.range (stop - start).toNat).map fun k : Nat => start + k

/-- Whether a message is accepted, and the bits looked at. -/
structure Look where
  accepted : Bool
  read : List Int

/-- `has_any_set(from,to)`, which stops at the first bit that is set. -/
def anySet (stray : Int → Bool) (bf : BitField) (start stop : Int) : Look :=
  let is := indexes start stop
  match is.findIdx? (readBit stray bf) with
  | some k => ⟨true, is.take (k + 1)⟩
  | none => ⟨false, is⟩

/-- The branch `MSG_BITFIELD` of `HandlePacket` for a torrent with metadata. -/
def lookAtBitfield (stray : Int → Bool) (totalPieces : Nat) (bf : BitField) : Look :=
  if (bf.bytes.length : Int) < (asInt totalPieces).tdiv 8 then ⟨false, []⟩
  else
    let spare := anySet stray bf (asInt totalPieces) bf.bitLength
    if spare.accepted then ⟨false, spare.read⟩
    else ⟨true, spare.read ++ (List.range totalPieces).map asInt⟩

theorem mem_indexes {start stop i : Int} : i ∈ indexes start stop ↔ start ≤ i ∧ i < stop := by
  unfold indexes
  simp only [List.mem_map, List.mem_range]
  constructor
  · rintro ⟨k, hk, rfl⟩
    omega
  · rintro ⟨hStart, hStop⟩
    exact ⟨(i - start).toNat, by omega, by omega⟩

theorem mem_anySet {stray : Int → Bool} {bf : BitField} {start stop i : Int}
    (h : i ∈ (anySet stray bf start stop).read) : start ≤ i ∧ i < stop := by
  unfold anySet at h
  dsimp only at h
  split at h
  · exact mem_indexes.mp (List.mem_of_mem_take h)
  · exact mem_indexes.mp h

theorem length_ofBytes (s : Bytes) : (BitField.ofBytes s).bytes.length = s.length := rfl

theorem bitLength_ofBytes (s : Bytes) : (BitField.ofBytes s).bitLength = s.length * 8 := rfl

/-- An empty range holds no bit. -/
theorem anySet_empty (stray : Int → Bool) (bf : BitField) {start stop : Int} (h : stop ≤ start) :
    anySet stray bf start stop = ⟨false, []⟩ := by
  have hNone : indexes start stop = [] := by
    refine List.eq_nil_iff_forall_not_mem.mpr fun i hi => ?_
    have hIn := mem_indexes.mp hi
    omega
  unfold anySet
  rw [hNone]
  rfl

/-- The first bit of a range is looked at. -/
theorem start_mem_anySet (stray : Int → Bool) (bf : BitField) {start stop : Int}
    (h : start < stop) : start ∈ (anySet stray bf start stop).read := by
  obtain ⟨is, hRange⟩ : ∃ is, indexes start stop = start :: is := by
    obtain ⟨n, hn⟩ : ∃ n, (stop - start).toNat = n + 1 := ⟨(stop - start).toNat - 1, by omega⟩
    refine ⟨(List.range n).map fun k : Nat => start + (k + 1), ?_⟩
    unfold indexes
    rw [hn, List.range_succ_eq_map, List.map_cons, List.map_map]
    simp [Function.comp_def]
  unfold anySet
  dsimp only
  rw [hRange]
  split
  · exact List.mem_cons_self
  · exact List.mem_cons_self

/-- The bits that the branch looks at. -/
theorem read_lookAtBitfield (stray : Int → Bool) (n : Nat) (bf : BitField) :
    (lookAtBitfield stray n bf).read
      = if (bf.bytes.length : Int) < (asInt n).tdiv 8 then []
        else (anySet stray bf (asInt n) bf.bitLength).read
          ++ if (anySet stray bf (asInt n) bf.bitLength).accepted then []
            else (List.range n).map asInt := by
  rw [lookAtBitfield]
  by_cases hShort : (bf.bytes.length : Int) < (asInt n).tdiv 8
  · rw [if_pos hShort, if_pos hShort]
  · rw [if_neg hShort, if_neg hShort]
    generalize (List.range n).map asInt = pieces
    generalize anySet stray bf (asInt n) bf.bitLength = spare
    rcases spare with ⟨_ | _, read⟩
    · rfl
    · exact (List.append_nil read).symm

/-- With bytes for all but the last few pieces, the last piece is not in the message. -/
theorem last_not_stored {n : Nat} (hn : n < 2 ^ 31) {s : Bytes} (hRest : n % 8 ≠ 0)
    (hShort : s.length = n / 8) :
    ∃ i ∈ (lookAtBitfield (fun _ => false) n (.ofBytes s)).read, ¬ Stored (.ofBytes s) i := by
  have hDiv : (asInt n).tdiv 8 = ((n / 8 : Nat) : Int) := by
    rw [asInt_of_lt hn]
    exact (Int.ofNat_tdiv n 8).symm
  have hLast := asInt_of_lt (show n - 1 < 2 ^ 31 by omega)
  have hStop : ((BitField.ofBytes s).bitLength : Int) ≤ asInt n := by
    rw [bitLength_ofBytes, asInt_of_lt hn]
    omega
  have hMem : asInt (n - 1) ∈ (List.range n).map asInt :=
    List.mem_map_of_mem (List.mem_range.mpr (by omega))
  refine ⟨asInt (n - 1), ?_, fun hStored => ?_⟩
  · rw [read_lookAtBitfield, hDiv, length_ofBytes, if_neg (by omega), anySet_empty _ _ hStop,
      if_neg Bool.false_ne_true, List.nil_append]
    exact hMem
  · have hIn := hStored.2
    rw [bitLength_ofBytes, hLast] at hIn
    omega

/-- A count of pieces that is no `int` makes the first bit looked at a negative one. -/
theorem first_not_stored {n : Nat} (hLarge : 2 ^ 31 ≤ n) (hn : n < 2 ^ 32) (s : Bytes) :
    ∃ i ∈ (lookAtBitfield (fun _ => false) n (.ofBytes s)).read, ¬ Stored (.ofBytes s) i := by
  have hNeg := asInt_neg hLarge hn
  have hLong : ¬ ((BitField.ofBytes s).bytes.length : Int) < (asInt n).tdiv 8 := by
    have hPos : 0 ≤ (-asInt n).tdiv 8 := Int.tdiv_nonneg (by omega) (by decide)
    rw [Int.neg_tdiv] at hPos
    rw [length_ofBytes]
    omega
  have hStart : asInt n < (BitField.ofBytes s).bitLength := by
    rw [bitLength_ofBytes]
    omega
  refine ⟨asInt n, ?_, fun hStored => absurd hStored.1 (by omega)⟩
  rw [read_lookAtBitfield, if_neg hLong]
  exact List.mem_append_left _ (start_mem_anySet _ _ hStart)

/-- A message that is long enough for every piece, or too short for most of them. -/
theorem read_stored {n : Nat} (hn : n < 2 ^ 31) {s : Bytes} (hFits : n % 8 = 0 ∨ s.length ≠ n / 8)
    (stray : Int → Bool) :
    ∀ i ∈ (lookAtBitfield stray n (.ofBytes s)).read, Stored (.ofBytes s) i := by
  have hDiv : (asInt n).tdiv 8 = ((n / 8 : Nat) : Int) := by
    rw [asInt_of_lt hn]
    exact (Int.ofNat_tdiv n 8).symm
  intro i hi
  rw [read_lookAtBitfield, hDiv, length_ofBytes] at hi
  split at hi
  · cases hi
  rename_i hLong
  rcases List.mem_append.mp hi with hSpare | hPiece
  · have hIn := mem_anySet hSpare
    rw [asInt_of_lt hn] at hIn
    exact ⟨by omega, hIn.2⟩
  · split at hPiece
    · cases hPiece
    · obtain ⟨p, hp, rfl⟩ := List.mem_map.mp hPiece
      have hLess : p < n := List.mem_range.mp hp
      rw [Stored, asInt_of_lt (show p < 2 ^ 31 by omega), bitLength_ofBytes]
      omega

/-- The bits that the branch looks at are all in the message if and only if the pieces
can be counted by an `int` and the message has not just the bytes for all but the last
few pieces. -/
theorem read_stored_iff {n : Nat} (hn : n < 2 ^ 32) (s : Bytes) :
    (∀ stray, ∀ i ∈ (lookAtBitfield stray n (.ofBytes s)).read, Stored (.ofBytes s) i)
      ↔ n < 2 ^ 31 ∧ (n % 8 = 0 ∨ s.length ≠ n / 8) := by
  constructor
  · intro hAll
    by_contra hNot
    have hBad : ∃ i ∈ (lookAtBitfield (fun _ => false) n (.ofBytes s)).read,
        ¬ Stored (.ofBytes s) i := by
      rcases Nat.lt_or_ge n (2 ^ 31) with hSmall | hLarge
      · exact last_not_stored hSmall (fun hZero => hNot ⟨hSmall, .inl hZero⟩)
          (Decidable.by_contra fun hNe => hNot ⟨hSmall, .inr hNe⟩)
      · exact first_not_stored hLarge hn s
    obtain ⟨i, hi, hStored⟩ := hBad
    exact hStored (hAll _ i hi)
  · rintro ⟨hSmall, hFits⟩ stray
    exact read_stored hSmall hFits stray

/-! ## What the peer is known to have -/

section Told

open Torrent

variable {t : Torrent} {i p : Nat} {q : Peer} {bf : BitField}

/-- The first `n` bits of the peer are as the message says. -/
def Told (t : Torrent) (i : Nat) (having : Nat → Bool) (n : Nat) : Prop :=
  ∃ q bf, t.peers.get i = some q ∧ q.bitfield = some bf ∧ bf.bitLength = t.table.totalPieces ∧
    ∀ p < n, bf.getBit p = having p

/-- A change of peers that leaves their bit fields alone. -/
theorem Told.congr {u : Torrent} {having : Nat → Bool} {n : Nat} (h : Told t i having n)
    (hTotal : u.table.totalPieces = t.table.totalPieces)
    (hPeers : (u.peers.get i).map (·.bitfield) = (t.peers.get i).map (·.bitfield)) :
    Told u i having n := by
  rcases h with ⟨q, bf, hq, hBf, hLength, hBits⟩
  rw [hq, Option.map_some] at hPeers
  obtain ⟨q', hq', hSame⟩ := Option.map_eq_some_iff.mp hPeers
  exact ⟨q', bf, hq', hSame.trans hBf, hLength.trans hTotal.symm, hBits⟩

theorem bitfield_modPeer (t : Torrent) (i j : Nat) {f : Peer → Peer}
    (hf : ∀ q, (f q).bitfield = q.bitfield) :
    ((t.modPeer j f).peers.get i).map (·.bitfield) = (t.peers.get i).map (·.bitfield) := by
  rw [get_modPeer]
  split
  · rw [Option.map_map]
    exact congrArg (Option.map · (t.peers.get i)) (funext hf)
  · rfl

theorem bitfield_considerPiece (t : Torrent) (i p j : Nat) (q : Peer) (having relaxed : Bool) :
    (((t.considerPiece i p q having relaxed).peers.get j).map (·.bitfield)
      = (t.peers.get j).map (·.bitfield))
    ∧ (t.considerPiece i p q having relaxed).table.totalPieces = t.table.totalPieces := by
  unfold Torrent.considerPiece
  dsimp only
  generalize hWanted : (if (t.piece p).sourcesCount = 0 then t.setPieceNotWanted p else t) = u
  have hPeers : u.peers = t.peers ∧ u.table = t.table := by
    rw [← hWanted]
    split <;> exact ⟨rfl, rfl⟩
  rw [← hPeers.1, ← hPeers.2]
  have hInterest : ((u.setAmInterested i true).peers.get j).map (·.bitfield)
      = (u.peers.get j).map (·.bitfield)
      ∧ (u.setAmInterested i true).table = u.table := by
    unfold Torrent.setAmInterested
    cases u.peers.get i with
    | none => exact ⟨rfl, rfl⟩
    | some q =>
        dsimp only
        generalize (if q.invalidPieceCount > 5 then false else true) = interest
        split
        · exact ⟨rfl, rfl⟩
        · exact ⟨bitfield_modPeer _ j i fun _ => rfl, rfl⟩
  split
  · rw [← hInterest.1, ← hInterest.2]
    generalize u.setAmInterested i true = v
    have hLast : ((v.modPeer i fun q =>
        if q.lastPiece.all (fun p => v.table.myBitfield.getBit p) then
          { q with lastPiece := some p } else q).peers.get j).map (·.bitfield)
        = (v.peers.get j).map (·.bitfield) := by
      refine bitfield_modPeer v j i fun q => ?_
      split <;> rfl
    unfold Torrent.setLastPiece
    dsimp only
    split
    · exact ⟨hLast, rfl⟩
    · exact ⟨hLast, rfl⟩
  · exact ⟨rfl, rfl⟩

theorem told_setPieceHaving {having : Nat → Bool} (h : Told t i having p)
    (hp : p < t.table.totalPieces) (relaxed : Bool) :
    Told (t.setPieceHaving i p (having p) relaxed) i having (p + 1) := by
  rcases h with ⟨q, bf, hq, hBf, hLength, hBits⟩
  have hIn : p < bf.bitLength := hLength.symm ▸ hp
  unfold Torrent.setPieceHaving
  rw [hq]
  dsimp only
  rw [hBf]
  dsimp only
  split
  · rename_i hSame
    refine ⟨q, bf, hq, hBf, hLength, fun p' hp' => ?_⟩
    rcases Nat.lt_or_ge p' p with hLess | hGe
    · exact hBits p' hLess
    · obtain rfl : p' = p := by omega
      cases hOld : bf.getBit p' with
      | false =>
          cases hNew : having p' with
          | false => rfl
          | true =>
              rw [hOld, hNew] at hSame
              exact absurd hSame (by decide)
      | true =>
          cases hNew : having p' with
          | false =>
              rw [hOld, hNew] at hSame
              exact absurd hSame (by decide)
          | true => rfl
  · have hConsider := bitfield_considerPiece (t.recordHaving i p (having p) bf) i p i q (having p)
      relaxed
    refine Told.congr ?_ hConsider.2 hConsider.1
    refine ⟨_, bf.setBit p (having p), get_modPeer_self hq _, rfl, hLength, fun p' hp' => ?_⟩
    rw [BitField.getBit_setBit hIn]
    split
    · rename_i hEq
      rw [hEq]
    · exact hBits p' (by omega)

theorem told_setPiecesHaving (h : Counts t) (hq : t.peers.get i = some q)
    (hBf : q.bitfield = some bf) (having : Nat → Bool) (relaxed : Bool) :
    Told (t.setPiecesHaving i having relaxed) i having t.table.totalPieces := by
  have hFold : ∀ n ≤ t.table.totalPieces,
      Told ((List.range n).foldl (fun t p => t.setPieceHaving i p (having p) relaxed) t) i having n ∧
        ((List.range n).foldl (fun t p => t.setPieceHaving i p (having p) relaxed)
          t).table.totalPieces = t.table.totalPieces := by
    intro n
    induction n with
    | zero =>
        intro _
        have hLength := (h.bitfield i q hq).bit_length bf hBf
        exact ⟨⟨q, bf, hq, hBf, hLength, fun p hp => absurd hp (Nat.not_lt_zero p)⟩, rfl⟩
    | succ n ih =>
        intro hLe
        rcases ih (by omega) with ⟨hTold, hTotal⟩
        rw [List.range_succ, List.foldl_append]
        refine ⟨told_setPieceHaving hTold (hTotal.symm ▸ hLe) relaxed, ?_⟩
        exact (totalPieces_setPieceHaving _ i n (having n) relaxed).trans hTotal
  exact (hFold _ (Nat.le_refl _)).1

end Told

/-- A peer whose packets are handled: it is connected and there are metadata, so it has
a bit field. -/
structure Talking (t : Torrent) (i : Nat) (q : Peer) : Prop where
  peer : t.peers.get i = some q
  connected : q.isConnected = true
  error : q.error = none
  myself : q.myself = false
  metadata : t.hasMetadata = true
  bitfield : q.bitfield.isSome = true

/-- The handler keeps to the bytes of the message, and an accepted message is what the
peer is known to have. -/
structure Within (t : Torrent) (i : Nat) (s : Bytes) : Prop where
  read : ∀ stray, ∀ j ∈ (lookAtBitfield stray t.table.totalPieces (.ofBytes s)).read,
    Stored (.ofBytes s) j
  agrees : ∀ stray relaxed byte,
    (lookAtBitfield stray t.table.totalPieces (.ofBytes s)).accepted = true →
    Told (t.handlePacket i relaxed byte (.bitfield (.ofBytes s))) i (BitField.ofBytes s).getBit
      t.table.totalPieces

theorem accepted_anySet (stray : Int → Bool) (bf : BitField) (start stop : Int) :
    (anySet stray bf start stop).accepted = (indexes start stop).any (readBit stray bf) := by
  unfold anySet
  dsimp only
  rw [← List.findIdx?_isSome]
  cases (indexes start stop).findIdx? (readBit stray bf) <;> rfl

/-- The range behind the last piece, read from the message. -/
theorem accepted_spare (stray : Int → Bool) (bf : BitField) {n : Nat} (hn : n < 2 ^ 31) :
    (anySet stray bf (asInt n) bf.bitLength).accepted = bf.hasAnySet n bf.bitLength := by
  rw [accepted_anySet, asInt_of_lt hn, Bool.eq_iff_iff, BitField.hasAnySet, List.any_eq_true,
    List.any_eq_true]
  constructor
  · rintro ⟨i, hi, hBit⟩
    have hIn := mem_indexes.mp hi
    refine ⟨i.toNat, List.mem_range'_1.mpr (by omega), ?_⟩
    rw [readBit, if_pos ⟨by omega, hIn.2⟩] at hBit
    exact hBit
  · rintro ⟨p, hp, hBit⟩
    have hIn := List.mem_range'_1.mp hp
    refine ⟨p, mem_indexes.mpr (by omega), ?_⟩
    rw [readBit, if_pos ⟨by omega, by omega⟩]
    exact hBit

/-- For a table that `int` can count the branch is the one of the model of peers. -/
theorem accepted_iff_check {t : Torrent} (hMetadata : t.hasMetadata = true)
    (hn : t.table.totalPieces < 2 ^ 31) (stray : Int → Bool) (q : Peer) (bf : BitField) :
    (lookAtBitfield stray t.table.totalPieces bf).accepted = true
      ↔ t.check q (.bitfield bf) = .accept := by
  have hDiv : (asInt t.table.totalPieces).tdiv 8 = ((t.table.totalPieces / 8 : Nat) : Int) := by
    rw [asInt_of_lt hn]
    exact (Int.ofNat_tdiv t.table.totalPieces 8).symm
  have hCheck : t.check q (.bitfield bf)
      = if bf.bytes.length < t.table.totalPieces / 8 then .error (bytes "invalid bitfield length")
        else if bf.hasAnySet t.table.totalPieces bf.bitLength = true then
          .error (bytes "bitfield has spare bits set")
        else .accept := by
    show (if t.hasMetadata = true then _ else _) = _
    rw [if_pos hMetadata]
    rfl
  have hSpare := accepted_spare stray bf hn
  rw [hCheck, lookAtBitfield, hDiv]
  generalize (List.range t.table.totalPieces).map asInt = pieces
  generalize anySet stray bf (asInt t.table.totalPieces) bf.bitLength = spare at hSpare ⊢
  rw [← hSpare]
  by_cases hShort : bf.bytes.length < t.table.totalPieces / 8
  · rw [if_pos (by omega), if_pos hShort]
    exact ⟨nofun, nofun⟩
  · rw [if_neg (by omega), if_neg hShort]
    rcases spare with ⟨_ | _, read⟩
    · exact ⟨fun _ => rfl, fun _ => rfl⟩
    · exact ⟨nofun, nofun⟩

/-- The handler keeps to the bytes of a BITFIELD message, and what it accepts is taken
over bit for bit, if and only if the pieces can be counted by an `int` and the message
has not just the bytes for all but the last few pieces. -/
theorem bitfield_within_iff {t : Torrent} {i : Nat} {q : Peer}
    (h : Reach Started (Step fun _ _ => True) t) (hq : Talking t i q)
    (hn : t.table.totalPieces < 2 ^ 32) (s : Bytes) :
    Within t i s ↔ t.table.totalPieces < 2 ^ 31
      ∧ (t.table.totalPieces % 8 = 0 ∨ s.length ≠ t.table.totalPieces / 8) := by
  refine ⟨fun hWithin => (read_stored_iff hn s).mp hWithin.read, fun hFits => ?_⟩
  refine ⟨(read_stored_iff hn s).mpr hFits, fun stray relaxed byte hAccepted => ?_⟩
  have hCheck := (accepted_iff_check hq.metadata hFits.1 stray q (.ofBytes s)).mp hAccepted
  have hLong : t.table.totalPieces ≤ (BitField.ofBytes s).bitLength := by
    have hNot : ¬ s.length < t.table.totalPieces / 8 := by
      intro hShort
      rw [lookAtBitfield, if_pos ?_] at hAccepted
      · cases hAccepted
      · have hDiv : (t.table.totalPieces : Int).tdiv 8 = ((t.table.totalPieces / 8 : Nat) : Int) :=
          (Int.ofNat_tdiv t.table.totalPieces 8).symm
        rw [asInt_of_lt hFits.1, length_ofBytes, hDiv]
        omega
    rw [bitLength_ofBytes]
    omega
  obtain ⟨own, hOwn⟩ := Option.isSome_iff_exists.mp hq.bitfield
  have hTold := told_setPiecesHaving (counts_of_reach h) hq.peer hOwn
    (fun p => (BitField.ofBytes s).getBitOr byte p) relaxed
  have hHandled : t.handlePacket i relaxed byte (.bitfield (.ofBytes s))
      = t.setPiecesHaving i (fun p => (BitField.ofBytes s).getBitOr byte p) relaxed := by
    unfold Torrent.handlePacket
    rw [hq.peer]
    dsimp only
    rw [if_neg (by rw [hq.connected, hq.error, hq.myself]; decide), hCheck]
    rfl
  rw [hHandled]
  rcases hTold with ⟨q', bf', hq', hBf', hLength, hBits⟩
  refine ⟨q', bf', hq', hBf', hLength, fun p hp => ?_⟩
  rw [hBits p hp]
  exact BitField.getBitOr_of_lt (by omega) byte

/-- A peer of a torrent with nine pieces is connected. -/
def ninePieces : List Event :=
  [.startup (2 * blockSize) (18 * blockSize), .add 1, .establish 1,
    .handshake 1 [0, 0, 0, 0, 0, 0, 0, 4] (bytes "peer") (bytes "self") true]

def nine : Torrent := ninePieces.foldl Event.act .new

theorem reach_nine : Reach Started (Step fun _ _ => True) nine := by
  have hStart : Reach Started (Step fun _ _ => True) .new := .start rfl
  exact hStart.foldl ninePieces ⟨trivial, trivial, trivial, trivial, trivial⟩

theorem talking_nine : ∃ q, Talking nine 1 q := by
  cases hPeer : nine.peers.get 1 with
  | none => exact absurd hPeer (by decide)
  | some q =>
      have hAll : (nine.peers.get 1).all (fun q => q.isConnected && q.error.isNone && !q.myself
        && q.bitfield.isSome) = true := by decide
      rw [hPeer] at hAll
      simp only [Option.all_some, Bool.and_eq_true, Bool.not_eq_true', Option.isNone_iff_eq_none]
        at hAll
      exact ⟨q, hPeer, hAll.1.1.1, hAll.1.1.2, hAll.1.2, by decide, hAll.2⟩

theorem bitfield_within_nine : Within nine 1 [0xff, 0x80] := by
  obtain ⟨q, hq⟩ := talking_nine
  exact (bitfield_within_iff reach_nine hq (by decide) [0xff, 0x80]).mpr (by decide)

/-- One byte is taken for nine pieces. -/
theorem not_bitfield_within :
    ¬ ∀ (t : Torrent) (i : Nat) (q : Peer) (s : Bytes), Reach Started (Step fun _ _ => True) t →
      Talking t i q → t.table.totalPieces < 2 ^ 32 → Within t i s := by
  intro hAll
  obtain ⟨q, hq⟩ := talking_nine
  have hWithin := hAll nine 1 q [0xff] reach_nine hq (by decide)
  have hTotal : nine.table.totalPieces = 9 := by decide
  obtain ⟨i, hi, hOutside⟩ := last_not_stored (show 9 < 2 ^ 31 by decide) (s := [0xff])
    (by decide) rfl
  rw [← hTotal] at hi
  exact hOutside (hWithin.read _ i hi)

end Lftp.Ports.TorrentPeers
