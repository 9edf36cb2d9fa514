import Mathlib.Data.List.GetD
import Lftp.Ports.TorrentPeers

/-!
# The counters about peers

`sources_count` of a piece, `peer_complete_pieces` of a peer and the two numbers
of peers that we are interested in or do not choke are updated where a bit, an
interest or a choke changes, and taken back when a peer goes. `Counts` says that
they are exact; every event keeps it.

* `Counts.change` is the rule for one peer that changes: the numbers of peers
  move with its two bits, and no piece gains or loses a source.
* `Counts.recordHaving` is the rule for one bit of a bit field.
* `Counts.dropBitfield`, `Counts.close` take a peer out of all counts.
* `counters_exact` is the result over runs.
-/

namespace Lftp.Ports.TorrentPeers

open Lftp.Verified
open Lftp.Ports.TorrentPacket
open Lftp.Ports.TorrentPieces
open Torrent

variable {t : Torrent} {i j p : Nat} {q : Peer} {bf : BitField}

/-- The number of set bits, none without a bit field. -/
def Peer.bitsSet (q : Peer) : Nat := (q.bitfield.map BitField.count).getD 0

/-- What `n` pieces and the metadata ask of a peer. -/
structure Peer.Counted (q : Peer) (hasMetadata : Bool) (n : Nat) : Prop where
  complete_pieces : q.completePieces = q.bitsSet
  bit_length : ∀ bf, q.bitfield = some bf → bf.bitLength = n
  connected : q.bitfield.isSome = true → q.isConnected = true
  metadata : hasMetadata = false → q.bitfield = none

/-- The counters are exact. -/
structure Counts (t : Torrent) : Prop where
  sized : t.table.pieceInfo.length = t.table.totalPieces
  sources : ∀ p < t.table.totalPieces,
    (t.piece p).sourcesCount = t.peers.total fun q => bit (q.has p)
  interested : t.amInterestedPeersCount = t.peers.total fun q => bit q.amInterested
  not_choking : t.amNotChokingPeersCount = t.peers.total fun q => bit (!q.amChoking)
  bitfield : ∀ i q, t.peers.get i = some q → q.Counted t.hasMetadata t.table.totalPieces

/-! ## Changes that no counter sees -/

/-- The members that are counted are the same, and the connection is still there. -/
structure Peer.Same (q q' : Peer) : Prop where
  bitfield : q'.bitfield = q.bitfield
  complete_pieces : q'.completePieces = q.completePieces
  am_interested : q'.amInterested = q.amInterested
  am_choking : q'.amChoking = q.amChoking
  connected : q.isConnected = true → q'.isConnected = true

theorem Peer.Same.counted {q' : Peer} {m : Bool} {n : Nat} (h : q.Same q') (hq : q.Counted m n) :
    q'.Counted m n where
  complete_pieces := by
    unfold Peer.bitsSet
    rw [h.complete_pieces, h.bitfield]
    exact hq.complete_pieces
  bit_length bf hBf := hq.bit_length bf (h.bitfield ▸ hBf)
  connected hSome := h.connected (hq.connected (h.bitfield ▸ hSome))
  metadata hNone := h.bitfield.trans (hq.metadata hNone)

namespace Counts

/-- One peer changes: the two numbers go with it, and no piece gains or loses a
source. -/
theorem change (h : Counts t) (hq : t.peers.get i = some q) {f : Peer → Peer} {a c : Int}
    (ha : a = t.amInterestedPeersCount + (bit (f q).amInterested - bit q.amInterested))
    (hc : c = t.amNotChokingPeersCount + (bit (!(f q).amChoking) - bit (!q.amChoking)))
    (hHas : ∀ p < t.table.totalPieces, (f q).has p = q.has p)
    (hCounted : (f q).Counted t.hasMetadata t.table.totalPieces) :
    Counts ({ t with amInterestedPeersCount := a, amNotChokingPeersCount := c }.modPeer i f) where
  sized := h.sized
  sources p hp := by
    show (t.piece p).sourcesCount = (t.peers.modify i f).total fun q => bit (q.has p)
    rw [Table.total_modify hq, hHas p hp, h.sources p hp]
    omega
  interested := by
    show a = (t.peers.modify i f).total fun q => bit q.amInterested
    rw [Table.total_modify hq, ← h.interested]
    exact ha
  not_choking := by
    show c = (t.peers.modify i f).total fun q => bit (!q.amChoking)
    rw [Table.total_modify hq, ← h.not_choking]
    exact hc
  bitfield j q' hq' := by
    change (t.peers.modify i f).get j = some q' at hq'
    rw [Table.get_modify] at hq'
    split at hq'
    · next hj =>
      rw [hj, hq, Option.map_some, Option.some.injEq] at hq'
      exact hq' ▸ hCounted
    · exact h.bitfield j q' hq'

/-- A change of members that are not counted. -/
theorem modPeer_same (h : Counts t) {f : Peer → Peer} (hf : ∀ q : Peer, q.Same (f q)) :
    Counts (t.modPeer i f) where
  sized := h.sized
  sources p hp := by
    show (t.piece p).sourcesCount = (t.peers.modify i f).total fun q => bit (q.has p)
    rw [Table.total_modify_same]
    · exact h.sources p hp
    · intro q
      unfold Peer.has
      rw [(hf q).bitfield]
  interested := by
    show t.amInterestedPeersCount = (t.peers.modify i f).total fun q => bit q.amInterested
    rw [Table.total_modify_same]
    · exact h.interested
    · exact fun q => congrArg bit (hf q).am_interested
  not_choking := by
    show t.amNotChokingPeersCount = (t.peers.modify i f).total fun q => bit (!q.amChoking)
    rw [Table.total_modify_same]
    · exact h.not_choking
    · exact fun q => congrArg (fun c => bit (!c)) (hf q).am_choking
  bitfield j q' hq' := by
    rw [get_modPeer] at hq'
    split at hq'
    · rcases Option.map_eq_some_iff.mp hq' with ⟨q, hq, rfl⟩
      exact (hf q).counted (h.bitfield j q hq)
    · exact h.bitfield j q' hq'

/-- A change of the table that leaves the sources alone. -/
theorem table (h : Counts t) {table : Pieces} {f : TorrentPiece → TorrentPiece}
    (hTotal : table.totalPieces = t.table.totalPieces)
    (hInfo : table.pieceInfo = t.table.pieceInfo.modify p f)
    (hf : ∀ i, (f i).sourcesCount = i.sourcesCount) : Counts { t with table } where
  sized := by
    show table.pieceInfo.length = table.totalPieces
    rw [hInfo, hTotal, List.length_modify]
    exact h.sized
  sources p' hp' := by
    have hSame := piece_modPiece_congr TorrentPiece.sourcesCount hf t p p'
    rw [← h.sources p' (hTotal ▸ hp'), ← hSame]
    show (table.pieceInfo.getD p' .new).sourcesCount = _
    rw [hInfo]
    rfl
  interested := h.interested
  not_choking := h.not_choking
  bitfield i q hq := by
    show q.Counted t.hasMetadata table.totalPieces
    rw [hTotal]
    exact h.bitfield i q hq

theorem modPiece (h : Counts t) {f : TorrentPiece → TorrentPiece}
    (hf : ∀ i, (f i).sourcesCount = i.sourcesCount) : Counts (t.modPiece p f) :=
  h.table rfl rfl hf

/-- Lists and flags of `Torrent` are no part of it. -/
theorem lists (h : Counts t) (e : Bool) (l : Option Nat) (n : List Nat) :
    Counts { t with endGame := e, lastPiece := l, piecesNeeded := n } :=
  ⟨h.sized, h.sources, h.interested, h.not_choking, h.bitfield⟩

theorem setDownloader (h : Counts t) (p b : Nat) (o n : Option Nat) :
    Counts (t.setDownloader p b o n) := by
  apply h.modPiece
  intro i
  have hAssign : ∀ d, (i.assign d b o n).sourcesCount = i.sourcesCount := by
    intro d
    unfold TorrentPiece.assign
    split <;> rfl
  unfold TorrentPiece.setDownloader
  split
  · split
    · rfl
    · exact hAssign _
  · exact hAssign _

theorem setLastPiece (h : Counts t) (i p : Nat) : Counts (t.setLastPiece i p) := by
  have hPeer : Counts (t.modPeer i fun q =>
      if q.lastPiece.all (fun p => t.table.myBitfield.getBit p) then
        { q with lastPiece := some p } else q) := by
    apply h.modPeer_same
    intro q
    split
    · exact ⟨rfl, rfl, rfl, rfl, id⟩
    · exact ⟨rfl, rfl, rfl, rfl, id⟩
  unfold Torrent.setLastPiece
  dsimp only
  split
  · exact hPeer.lists _ _ _
  · exact hPeer

/-! ## Interest and choking -/

theorem setAmInterested (h : Counts t) (i : Nat) (interest : Bool) :
    Counts (t.setAmInterested i interest) := by
  unfold Torrent.setAmInterested
  cases hq : t.peers.get i with
  | none => exact h
  | some q =>
      dsimp only
      generalize (if q.invalidPieceCount > 5 then false else interest) = interest
      split
      · exact h
      · have hOld := h.bitfield i q hq
        apply h.change hq
        · rfl
        · dsimp only
          omega
        · exact fun _ _ => rfl
        · exact ⟨hOld.complete_pieces, hOld.bit_length, hOld.connected, hOld.metadata⟩

theorem setAmChoking (h : Counts t) (i : Nat) (c : Bool) : Counts (t.setAmChoking i c) := by
  unfold Torrent.setAmChoking
  cases hq : t.peers.get i with
  | none => exact h
  | some q =>
      dsimp only
      split
      · exact h
      · have hOld := h.bitfield i q hq
        apply h.change hq
        · dsimp only
          omega
        · cases c <;> cases q.amChoking <;> rfl
        · exact fun _ _ => rfl
        · exact ⟨hOld.complete_pieces, hOld.bit_length, hOld.connected, hOld.metadata⟩

/-! ## The pieces a peer has -/

theorem count_setBit (h : p < bf.bitLength) (v : Bool) :
    ((bf.setBit p v).count : Int) = bf.count + (bit v - bit (bf.getBit p)) := by
  have hWeight := BitField.weight_setBit h v fun _ => 1
  unfold BitField.count bit
  cases hBit : bf.getBit p with
  | true =>
      rw [hBit] at hWeight
      cases v <;> simp at hWeight ⊢ <;> omega
  | false =>
      rw [hBit] at hWeight
      cases v <;> simp at hWeight ⊢ <;> omega

/-- One bit moves the two counters that count it. -/
theorem recordHaving (h : Counts t) (hq : t.peers.get i = some q) (hBf : q.bitfield = some bf)
    (hp : p < t.table.totalPieces) (having : Bool) : Counts (t.recordHaving i p having bf) := by
  have hOld := h.bitfield i q hq
  have hLength := hOld.bit_length bf hBf
  have hIn : p < bf.bitLength := hLength.symm ▸ hp
  have hHas : ∀ p, q.has p = bf.getBit p := by
    intro p
    unfold Peer.has
    rw [hBf]
    rfl
  unfold Torrent.recordHaving
  dsimp only
  refine ⟨?_, fun p' hp' => ?_, ?_, ?_, fun j q' hq' => ?_⟩
  · show (t.table.pieceInfo.modify p _).length = t.table.totalPieces
    rw [List.length_modify]
    exact h.sized
  · show ((t.modPiece p _).piece p').sourcesCount = (t.peers.modify i _).total fun q => bit (q.has p')
    rw [piece_modPiece, Table.total_modify hq, ← h.sources p' hp', hHas p']
    show _ = (t.piece p').sourcesCount + (bit ((bf.setBit p having).getBit p') - bit (bf.getBit p'))
    rw [BitField.getBit_setBit hIn]
    by_cases hSame : p' = p
    · subst hSame
      rw [if_pos ⟨rfl, h.sized.symm ▸ hp⟩, if_pos rfl]
      rfl
    · rw [if_neg fun hAnd => hSame hAnd.1, if_neg hSame]
      omega
  · show t.amInterestedPeersCount = (t.peers.modify i _).total fun q => bit q.amInterested
    rw [Table.total_modify_same]
    · exact h.interested
    · exact fun _ => rfl
  · show t.amNotChokingPeersCount = (t.peers.modify i _).total fun q => bit (!q.amChoking)
    rw [Table.total_modify_same]
    · exact h.not_choking
    · exact fun _ => rfl
  · change (t.peers.modify i _).get j = some q' at hq'
    rw [Table.get_modify] at hq'
    split at hq'
    · next hj =>
      rw [hj, hq, Option.map_some, Option.some.injEq] at hq'
      subst hq'
      refine ⟨?_, fun bf' hBf' => ?_, fun _ => ?_, fun hNone => ?_⟩
      · have hCount := hOld.complete_pieces
        unfold Peer.bitsSet at hCount
        rw [hBf] at hCount
        change q.completePieces = (bf.count : Nat) at hCount
        show q.completePieces + _ = ((bf.setBit p having).count : Nat)
        rw [count_setBit hIn, hCount]
      · rw [← Option.some.inj hBf']
        exact hLength
      · exact hOld.connected (hBf ▸ rfl)
      · exact absurd (hBf.symm.trans (hOld.metadata hNone)) (by rintro ⟨⟩)
    · exact h.bitfield j q' hq'

theorem considerPiece (h : Counts t) (i p : Nat) (q : Peer) (having relaxed : Bool) :
    Counts (t.considerPiece i p q having relaxed) := by
  have hNeeded : Counts (if (t.piece p).sourcesCount = 0 then t.setPieceNotWanted p else t) := by
    split
    · exact h.lists _ _ _
    · exact h
  unfold Torrent.considerPiece
  dsimp only
  generalize (if (t.piece p).sourcesCount = 0 then t.setPieceNotWanted p else t) = t' at hNeeded ⊢
  split
  · exact (hNeeded.setAmInterested i true).setLastPiece i p
  · exact hNeeded

theorem setPieceHaving (h : Counts t) (i : Nat) (hp : p < t.table.totalPieces)
    (having relaxed : Bool) : Counts (t.setPieceHaving i p having relaxed) := by
  unfold Torrent.setPieceHaving
  cases hq : t.peers.get i with
  | none => exact h
  | some q =>
      cases hBf : q.bitfield with
      | none => 
          dsimp only
          rw [hBf]
          exact h
      | some bf =>
          dsimp only
          rw [hBf]
          dsimp only
          split
          · exact h
          · exact (h.recordHaving hq hBf hp having).considerPiece i p q having relaxed

theorem setPiecesHaving (h : Counts t) (i : Nat) (having : Nat → Bool) (relaxed : Bool) :
    Counts (t.setPiecesHaving i having relaxed) := by
  have hKeep : ∀ (t' : Torrent), ∀ p ∈ List.range t.table.totalPieces,
      (Counts t' ∧ t'.table.totalPieces = t.table.totalPieces) →
      Counts (t'.setPieceHaving i p (having p) relaxed) ∧
        (t'.setPieceHaving i p (having p) relaxed).table.totalPieces = t.table.totalPieces := by
    intro t' p hp hBoth
    have hLt : p < t'.table.totalPieces := hBoth.2.symm ▸ List.mem_range.mp hp
    exact ⟨hBoth.1.setPieceHaving i hLt _ _, (totalPieces_setPieceHaving t' i p _ _).trans hBoth.2⟩
  exact (foldl_keeps hKeep ⟨h, rfl⟩).1

/-! ## The end of a connection -/

/-- The first `n` bits of the peer are clear. -/
def Cleared (t : Torrent) (i n : Nat) : Prop :=
  ∃ q bf, t.peers.get i = some q ∧ q.bitfield = some bf ∧ bf.bitLength = t.table.totalPieces ∧
    ∀ p < n, bf.getBit p = false

theorem cleared_setPieceHaving (h : Cleared t i p) (hp : p < t.table.totalPieces)
    (relaxed : Bool) : Cleared (t.setPieceHaving i p false relaxed) i (p + 1) := by
  rcases h with ⟨q, bf, hq, hBf, hLength, hClear⟩
  have hIn : p < bf.bitLength := hLength.symm ▸ hp
  have hTotal := totalPieces_setPieceHaving t i p false relaxed
  unfold Cleared
  rw [hTotal]
  unfold Torrent.setPieceHaving
  rw [hq]
  dsimp only
  rw [hBf]
  dsimp only
  split
  · next hSame =>
    refine ⟨q, bf, hq, hBf, hLength, fun p' hp' => ?_⟩
    by_cases hEq : p' = p
    · subst hEq
      cases hBit : bf.getBit p' with
      | true =>
          rw [hBit] at hSame
          exact absurd hSame (by decide)
      | false => rfl
    · exact hClear p' (by omega)
  · have hPeers : ((t.recordHaving i p false bf).considerPiece i p q false relaxed).peers =
        (t.recordHaving i p false bf).peers := by
      unfold Torrent.considerPiece
      dsimp only
      rw [if_neg fun hAnd => Bool.false_ne_true hAnd.1]
      split <;> rfl
    rw [hPeers]
    refine ⟨_, bf.setBit p false, get_modPeer_self hq _, rfl, hLength, fun p' hp' => ?_⟩
    rw [BitField.getBit_setBit hIn]
    split
    · rfl
    · exact hClear p' (by omega)

theorem cleared_setPiecesHaving (h : Counts t) (hq : t.peers.get i = some q)
    (hBf : q.bitfield = some bf) (relaxed : Bool) :
    Cleared (t.setPiecesHaving i (fun _ => false) relaxed) i t.table.totalPieces := by
  have hFold : ∀ n ≤ t.table.totalPieces,
      Cleared ((List.range n).foldl (fun t p => t.setPieceHaving i p false relaxed) t) i n ∧
        ((List.range n).foldl (fun t p => t.setPieceHaving i p false relaxed) t).table.totalPieces =
          t.table.totalPieces := by
    intro n
    induction n with
    | zero =>
        intro _
        have hLength := (h.bitfield i q hq).bit_length bf hBf
        exact ⟨⟨q, bf, hq, hBf, hLength, fun p hp => absurd hp (Nat.not_lt_zero p)⟩, rfl⟩
    | succ n ih =>
        intro hLe
        rcases ih (by omega) with ⟨hClear, hTotal⟩
        rw [List.range_succ, List.foldl_append]
        refine ⟨cleared_setPieceHaving hClear (hTotal.symm ▸ hLe) relaxed, ?_⟩
        exact (totalPieces_setPieceHaving _ i n false relaxed).trans hTotal
  exact (hFold _ (Nat.le_refl _)).1

/-- After the loop over the pieces the bit field is empty and can go. -/
theorem dropBitfield (h : Counts t) (i : Nat) :
    Counts (t.dropBitfield i) ∧
      ∀ q, (t.dropBitfield i).peers.get i = some q → q.bitfield = none := by
  unfold Torrent.dropBitfield
  cases hq : t.peers.get i with
  | none =>
      refine ⟨h, fun q hSome => ?_⟩
      dsimp only at hSome
      rw [hq] at hSome
      exact absurd hSome nofun
  | some q =>
      cases hBf : q.bitfield with
      | none =>
          dsimp only
          rw [hBf, if_neg nofun]
          refine ⟨h, fun q' hq' => ?_⟩
          rw [hq, Option.some.injEq] at hq'
          exact hq' ▸ hBf
      | some bf =>
          dsimp only
          have hSome : q.bitfield.isSome = true := hBf ▸ rfl
          rw [if_pos hSome]
          have hClear := cleared_setPiecesHaving h hq hBf false
          have hCounts := h.setPiecesHaving i (fun _ => false) false
          have hTotal : (t.setPiecesHaving i (fun _ => false) false).table.totalPieces =
              t.table.totalPieces :=
            foldl_keeps (I := fun t' => t'.table.totalPieces = t.table.totalPieces)
              (fun t' p _ hSame => (totalPieces_setPieceHaving t' i p _ _).trans hSame) rfl
          generalize t.setPiecesHaving i (fun _ => false) false = t' at hClear hCounts hTotal ⊢
          rcases hClear with ⟨q', bf', hq', hBf', hLength, hBits⟩
          rw [← hTotal] at hBits
          have hOld := hCounts.bitfield i q' hq'
          constructor
          · apply hCounts.change hq' (f := fun q => { q with bitfield := none })
            · dsimp only
              omega
            · dsimp only
              omega
            · intro p hp
              unfold Peer.has
              rw [hBf']
              exact (hBits p hp).symm
            · refine ⟨?_, nofun, nofun, fun _ => rfl⟩
              have hComplete := hOld.complete_pieces
              unfold Peer.bitsSet at hComplete ⊢
              rw [hBf'] at hComplete
              change q'.completePieces = (bf'.weight fun _ => 1 : Nat) at hComplete
              rw [BitField.weight_of_none (hLength.symm ▸ hBits)] at hComplete
              exact hComplete
          · intro q'' hq''
            rw [get_modPeer_self hq', Option.some.injEq] at hq''
            exact hq'' ▸ rfl

theorem close (h : Counts t) (hNone : ∀ q, t.peers.get i = some q → q.bitfield = none) :
    Counts (t.close i) := by
  unfold Torrent.close
  cases hq : t.peers.get i with
  | none => exact h
  | some q =>
      have hBf := hNone q hq
      dsimp only
      apply h.change hq
      · show _ = t.amInterestedPeersCount + (bit false - bit q.amInterested)
        rw [bit_false]
        omega
      · show _ = t.amNotChokingPeersCount + (bit (!true) - bit (!q.amChoking))
        rw [Bool.not_true, bit_false]
        omega
      · exact fun _ _ => rfl
      · refine ⟨?_, fun bf hSome => ?_, fun hSome => ?_, fun _ => hBf⟩
        · unfold Peer.bitsSet Peer.closed
          rw [hBf]
          rfl
        · exact absurd (hBf.symm.trans hSome) nofun
        · change q.bitfield.isSome = true at hSome
          rw [hBf] at hSome
          exact absurd hSome nofun

theorem release (h : Counts t) (i : Nat) (req : Request) : Counts (t.release i req) :=
  h.setDownloader _ _ _ _

theorem clearSentQueue (h : Counts t) (i : Nat) (k : Int) : Counts (t.clearSentQueue i k) := by
  unfold Torrent.clearSentQueue
  split
  · exact h
  · split
    · exact h
    · split
      · apply modPeer_same
        · exact foldl_keeps (fun t req _ hCounts => hCounts.release i req) h
        · exact fun _ => ⟨rfl, rfl, rfl, rfl, id⟩
      · split
        · exact h
        · exact (h.release i _).modPeer_same fun _ => ⟨rfl, rfl, rfl, rfl, id⟩

theorem clearSentQueueAll (h : Counts t) (i : Nat) : Counts (t.clearSentQueueAll i) := by
  unfold Torrent.clearSentQueueAll
  split
  · exact h
  · exact h.clearSentQueue i _

theorem disconnect (h : Counts t) (i : Nat) : Counts (t.disconnect i) := by
  have hDropped := (h.clearSentQueueAll i).dropBitfield i
  exact hDropped.1.close hDropped.2

/-- A disconnected peer is in no count. -/
theorem closed_disconnect (h : Counts t) (hq : (t.disconnect i).peers.get i = some q) :
    q.bitfield = none ∧ q.amInterested = false ∧ q.amChoking = true := by
  have hNone := ((h.clearSentQueueAll i).dropBitfield i).2
  unfold Torrent.disconnect Torrent.close at hq
  generalize (t.clearSentQueueAll i).dropBitfield i = t' at hNone hq
  cases hOld : t'.peers.get i with
  | none =>
      rw [hOld] at hq
      exact absurd (hOld.symm.trans hq) nofun
  | some q' =>
      rw [hOld] at hq
      change (t'.peers.modify i Peer.closed).get i = some q at hq
      rw [Table.get_modify, if_pos rfl, hOld, Option.map_some, Option.some.injEq] at hq
      subst hq
      exact ⟨hNone q' hOld, rfl, rfl⟩

theorem setError (h : Counts t) (i : Nat) (msg : Bytes) : Counts (t.setError i msg) := by
  apply disconnect
  exact h.modPeer_same fun _ => ⟨rfl, rfl, rfl, rfl, id⟩

theorem remove (h : Counts t) (i : Nat) : Counts (t.remove i) := by
  have hCounts := h.disconnect i
  have hClosed : ∀ q, (t.disconnect i).peers.get i = some q → _ := fun q hq => h.closed_disconnect hq
  unfold Torrent.remove
  generalize t.disconnect i = t' at hCounts hClosed ⊢
  have hTotal : ∀ w : Peer → Int, (∀ q, t'.peers.get i = some q → w q = 0) →
      (t'.peers.erase i).total w = t'.peers.total w := by
    intro w hZero
    cases hq : t'.peers.get i with
    | none => exact Table.total_erase_of_none hq w
    | some q =>
        rw [Table.total_erase hq, hZero q hq]
        omega
  refine ⟨hCounts.sized, fun p hp => ?_, ?_, ?_, fun j q hq => ?_⟩
  · show (t'.piece p).sourcesCount = (t'.peers.erase i).total fun q => bit (q.has p)
    rw [hTotal, hCounts.sources p hp]
    intro q hq
    unfold Peer.has
    rw [(hClosed q hq).1]
    rfl
  · show t'.amInterestedPeersCount = (t'.peers.erase i).total fun q => bit q.amInterested
    rw [hTotal, hCounts.interested]
    intro q hq
    rw [(hClosed q hq).2.1]
    rfl
  · show t'.amNotChokingPeersCount = (t'.peers.erase i).total fun q => bit (!q.amChoking)
    rw [hTotal, hCounts.not_choking]
    intro q hq
    rw [(hClosed q hq).2.2]
    rfl
  · change (t'.peers.erase i).get j = some q at hq
    rw [Table.get_erase] at hq
    split at hq
    · exact absurd hq (by rintro ⟨⟩)
    · exact hCounts.bitfield j q hq

/-! ## Requests and blocks -/

theorem cancelBlocks (h : Counts t) (p start : Nat) : Counts (t.cancelBlocks p start) := by
  have hCancel : ∀ (t : Torrent) (j : Nat), Counts t → Counts (t.cancelBlock j p start) := by
    intro t j h
    unfold Torrent.cancelBlock
    split
    · exact h
    · split
      · exact h
      · split
        · exact h
        · exact (h.setDownloader _ _ _ _).modPeer_same fun _ => ⟨rfl, rfl, rfl, rfl, id⟩
  exact foldl_keeps (fun t j _ hCounts => hCancel t j hCounts) h

theorem keptByRequests (i : Nat) : KeptByRequests Counts i where
  request t p b len h _ := by
    apply setLastPiece
    exact (h.setDownloader _ _ _ _).modPeer_same fun _ => ⟨rfl, rfl, rfl, rfl, id⟩
  fastSet t ps h := h.modPeer_same fun _ => ⟨rfl, rfl, rfl, rfl, id⟩
  suggestedSet t ps h := h.modPeer_same fun _ => ⟨rfl, rfl, rfl, rfl, id⟩
  interest t h := h.setAmInterested i false

theorem setBlocksPresent (h : Counts t) (piece start len : Nat) :
    Counts (t.setBlocksPresent piece start len) := by
  have hFold : ∀ (l : List Nat) (table : Pieces), Counts { t with table } →
      Counts { t with table := l.foldl (fun table b => table.setBlockPresent piece b) table } := by
    intro l
    induction l with
    | nil => exact fun table h => h
    | cons b l ih =>
        intro table h
        exact ih _ (h.modPiece fun _ => rfl)
  exact hFold _ t.table h

theorem markPieceInvalid (h : Counts t) (i : Nat) (hp : p < t.table.totalPieces) :
    Counts (t.markPieceInvalid i p) := by
  unfold Torrent.markPieceInvalid
  have hCount := h.modPeer_same (i := i)
    (f := fun q => { q with invalidPieceCount := q.invalidPieceCount + 1 })
    fun _ => ⟨rfl, rfl, rfl, rfl, id⟩
  have hHaving := hCount.setPieceHaving i hp false false
  dsimp only
  split
  · exact hHaving
  · exact hHaving.setAmInterested i _

theorem totalPieces_setBlocksPresent (t : Torrent) (piece start len : Nat) :
    (t.setBlocksPresent piece start len).table.totalPieces = t.table.totalPieces := by
  have hFold : ∀ (l : List Nat) (table : Pieces),
      (l.foldl (fun table b => table.setBlockPresent piece b) table).totalPieces =
        table.totalPieces := by
    intro l
    induction l with
    | nil => exact fun _ => rfl
    | cons b l ih => exact fun table => ih _
  exact hFold _ t.table

theorem blockStored (h : Counts t) (i start len : Nat) (hp : p < t.table.totalPieces)
    (valid : Bool) : Counts (t.blockStored i p start len valid) := by
  have hPresent := h.setBlocksPresent p start len
  have hTotal := totalPieces_setBlocksPresent t p start len
  unfold Torrent.blockStored
  dsimp only
  generalize t.setBlocksPresent p start len = t' at hPresent hTotal ⊢
  rw [← hTotal] at hp
  split
  · split
    · have hOk : Counts { t' with table := t'.table.pieceOk p } := by
        unfold Pieces.pieceOk Pieces.setBlocksAbsent
        split
        · exact hPresent
        · exact hPresent.table rfl rfl fun _ => rfl
      unfold Torrent.pieceComplete
      generalize t'.table.pieceOk p = table at hOk ⊢
      dsimp only
      split
      · exact ⟨hOk.sized, hOk.sources, hOk.interested, hOk.not_choking, hOk.bitfield⟩
      · exact hOk.lists _ _ _
    · have hBad : Counts { t' with table := t'.table.pieceBad p } ∧
          (t'.table.pieceBad p).totalPieces = t'.table.totalPieces := by
        unfold Pieces.pieceBad Pieces.setBlocksAbsent
        split
        · exact ⟨hPresent.table rfl rfl fun _ => rfl, rfl⟩
        · exact ⟨hPresent.table rfl rfl fun _ => rfl, rfl⟩
      apply hBad.1.markPieceInvalid
      exact hBad.2.symm ▸ hp
  · exact hPresent

theorem rebuildPiecesNeeded (h : Counts t) : Counts t.rebuildPiecesNeeded := by
  have hCleanup : ∀ i : TorrentPiece, i.cleanup.sourcesCount = i.sourcesCount := by
    intro i
    unfold TorrentPiece.cleanup
    split <;> rfl
  unfold Torrent.rebuildPiecesNeeded
  apply lists
  exact foldl_keeps (fun _ p _ hCounts => hCounts.modPiece hCleanup) h

/-! ## Events -/

/-- An accepted packet names a piece of the torrent. -/
theorem accept (h : Counts t) (i : Nat) (q : Peer) (relaxed : Bool) (stray : UInt8)
    {pkt : Packet} (hCheck : t.check q pkt = .accept) :
    Counts (t.accept i q relaxed stray pkt) := by
  have hSame : ∀ {f : Peer → Peer}, (∀ q : Peer, q.Same (f q)) → Counts (t.modPeer i f) :=
    fun hf => h.modPeer_same hf
  unfold Torrent.accept
  cases pkt with
  | choke =>
      apply clearSentQueueAll
      exact hSame fun _ => ⟨rfl, rfl, rfl, rfl, id⟩
  | unchoke => exact hSame fun _ => ⟨rfl, rfl, rfl, rfl, id⟩
  | interested => exact hSame fun _ => ⟨rfl, rfl, rfl, rfl, id⟩
  | uninterested => exact hSame fun _ => ⟨rfl, rfl, rfl, rfl, id⟩
  | «have» piece =>
      apply h.setPieceHaving
      unfold check needMetadata orError at hCheck
      dsimp only at hCheck
      split at hCheck
      · split at hCheck
        · exact absurd hCheck nofun
        · next hLe => exact Nat.lt_of_not_le hLe
      · exact absurd hCheck nofun
  | bitfield bf => exact h.setPiecesHaving i _ relaxed
  | haveAll => exact h.setPiecesHaving i _ relaxed
  | haveNone => exact h.setPiecesHaving i _ relaxed
  | suggestPiece piece => exact hSame fun _ => ⟨rfl, rfl, rfl, rfl, id⟩
  | allowedFast piece => exact hSame fun _ => ⟨rfl, rfl, rfl, rfl, id⟩
  | rejectRequest index start len =>
      dsimp only
      split
      · exact h
      · exact h.clearSentQueue i _
  | piece index start data =>
      dsimp only
      split
      · exact h
      · exact (h.clearSentQueue i _).cancelBlocks _ _
  | request index start len => exact hSame fun _ => ⟨rfl, rfl, rfl, rfl, id⟩
  | cancel index start len => exact hSame fun _ => ⟨rfl, rfl, rfl, rfl, id⟩
  | _ => exact h

theorem handlePacket (h : Counts t) (i : Nat) (relaxed : Bool) (stray : UInt8) (pkt : Packet) :
    Counts (t.handlePacket i relaxed stray pkt) := by
  unfold Torrent.handlePacket
  split
  · exact h
  · next q _ =>
    split
    · exact h
    · cases hCheck : t.check q pkt with
      | ignore => exact h
      | error msg => exact h.setError i msg
      | accept => exact h.accept i q relaxed stray hCheck

theorem establish (h : Counts t) (i : Nat) : Counts (t.establish i) := by
  apply h.modPeer_same
  intro q
  split
  · exact ⟨rfl, rfl, rfl, rfl, id⟩
  · refine ⟨rfl, rfl, rfl, rfl, fun hLive => ?_⟩
    unfold Peer.isConnected at hLive ⊢
    simp only [Bool.and_eq_true] at hLive ⊢
    exact ⟨⟨hLive.1.1, trivial⟩, trivial⟩

/-- The bit field that a handshake creates is empty, as was none before it. -/
theorem handshake (h : Counts t) (i : Nat) (extensions id me : Bytes) (known : Bool) :
    Counts (t.handshake i extensions id me known) := by
  unfold Torrent.handshake
  cases hq : t.peers.get i with
  | none => exact h
  | some q =>
      dsimp only
      split
      · exact h
      · next hFirst =>
        simp only [not_or, Decidable.not_not] at hFirst
        have hExt := h.modPeer_same (i := i) (f := fun q => { q with extensions })
          fun _ => ⟨rfl, rfl, rfl, rfl, fun hLive => hLive⟩
        have hExtPeer := get_modPeer_self hq fun q => { q with extensions }
        generalize (t.modPeer i fun q => { q with extensions }) = t₁ at hExt hExtPeer ⊢
        split
        · exact (hExt.setError i _).disconnect i
        · have hId := hExt.modPeer_same (i := i) (f := fun q => { q with peerId := some id })
            fun q => ⟨rfl, rfl, rfl, rfl, fun hLive => by
              unfold Peer.isConnected at hLive ⊢
              simp only [Bool.and_eq_true] at hLive ⊢
              exact ⟨⟨rfl, hLive.1.2⟩, hLive.2⟩⟩
          have hIdPeer := get_modPeer_self hExtPeer fun q => { q with peerId := some id }
          generalize (t₁.modPeer i fun q => { q with peerId := some id }) = t₂
            at hId hIdPeer ⊢
          split
          · exact hId.disconnect i
          · split
            · exact hId.modPeer_same fun _ => ⟨rfl, rfl, rfl, rfl, fun hLive => hLive⟩
            · split
              · next hMeta =>
                have hOld := h.bitfield i q hq
                have hNone : q.bitfield = none := by
                  cases hBf : q.bitfield with
                  | none => rfl
                  | some bf =>
                      have hLive := hOld.connected (hBf ▸ rfl)
                      unfold Peer.isConnected at hLive
                      simp only [Bool.and_eq_true] at hLive
                      exact absurd hLive.1.1 hFirst.2.2.2
                have hZero := hOld.complete_pieces
                unfold Peer.bitsSet at hZero
                rw [hNone] at hZero
                apply hId.change hIdPeer (f := fun q =>
                  { q with bitfield := some (.new t₂.table.totalPieces) })
                · dsimp only
                  omega
                · dsimp only
                  omega
                · intro p _
                  unfold Peer.has
                  dsimp only
                  rw [hNone]
                  exact BitField.getBit_new _ p
                · refine ⟨?_, fun bf hBf => ?_, fun _ => ?_, fun hFalse => ?_⟩
                  · show q.completePieces = ((BitField.new _).count : Nat)
                    unfold BitField.count
                    rw [BitField.weight_new]
                    exact hZero
                  · rw [← Option.some.inj hBf]
                    rfl
                  · unfold Peer.isConnected
                    rw [hFirst.2.2.1.1, hFirst.2.2.1.2]
                    rfl
                  · exact absurd (hFalse.symm.trans hMeta) Bool.false_ne_true
              · exact hId

/-- Before the metadata no peer has a bit field, and the new table counts none. -/
theorem startup (h : Counts t) (pieceLength totalLength : Nat) :
    Counts (t.startup pieceLength totalLength) := by
  unfold Torrent.startup
  split
  · exact h
  · next hMetadata =>
    have hNone : ∀ i q, t.peers.get i = some q → q.bitfield = none :=
      fun i q hq => (h.bitfield i q hq).metadata (Bool.eq_false_iff.mpr hMetadata)
    have hSized : Counts { t with
        hasMetadata := true
        table := Pieces.setTotalLength { t.table with pieceLength } totalLength } := by
      refine ⟨List.length_replicate, fun p _ => ?_, h.interested, h.not_choking, fun i q hq => ?_⟩
      · have hPiece : piece { t with
            hasMetadata := true
            table := Pieces.setTotalLength { t.table with pieceLength } totalLength } p = .new :=
          List.getElem?_getD_replicate_default_eq TorrentPiece.new _ p
        rw [hPiece]
        apply Eq.symm
        apply Table.total_eq_zero
        intro i q hq
        unfold Peer.has
        rw [hNone i q hq]
        rfl
      · have hBf := hNone i q hq
        have hOld := h.bitfield i q hq
        refine ⟨hOld.complete_pieces, fun bf hSome => ?_, hOld.connected, fun _ => hBf⟩
        exact absurd (hBf.symm.trans hSome) nofun
    apply foldl_keeps _ hSized
    intro t i _ hCounts
    split
    · exact hCounts.disconnect i
    · exact hCounts

/-- A new peer is in no count. -/
theorem insert (h : Counts t) (i : Nat) {q : Peer} (hNew : Peer.new.Same q) :
    Counts { t with peers := t.peers.insert i q } := by
  cases hOld : t.peers.get i with
  | some q' =>
      rw [Table.insert_of_some hOld]
      exact h
  | none =>
      have hTotal : ∀ w : Peer → Int, w q = 0 → (t.peers.insert i q).total w = t.peers.total w := by
        intro w hZero
        rw [Table.total_insert hOld, hZero]
        omega
      refine ⟨h.sized, fun p hp => ?_, ?_, ?_, fun j q' hq' => ?_⟩
      · show (t.piece p).sourcesCount = (t.peers.insert i q).total fun q => bit (q.has p)
        rw [hTotal, h.sources p hp]
        unfold Peer.has
        rw [hNew.bitfield]
        rfl
      · show t.amInterestedPeersCount = (t.peers.insert i q).total fun q => bit q.amInterested
        rw [hTotal, h.interested]
        rw [hNew.am_interested]
        rfl
      · show t.amNotChokingPeersCount = (t.peers.insert i q).total fun q => bit (!q.amChoking)
        rw [hTotal, h.not_choking]
        rw [hNew.am_choking]
        rfl
      · change (t.peers.insert i q).get j = some q' at hq'
        rw [Table.get_insert hOld] at hq'
        split at hq'
        · rw [← Option.some.inj hq']
          exact hNew.counted ⟨rfl, by rintro _ ⟨⟩, by rintro ⟨⟩, fun _ => rfl⟩
        · exact h.bitfield j q' hq'

theorem ifConnected (h : Counts t) (i : Nat) {f : Torrent → Torrent} (hf : Counts (f t)) :
    Counts (t.ifConnected i f) := by
  unfold Torrent.ifConnected
  split
  · exact hf
  · exact h

/-- One event keeps the counters exact. -/
theorem act (h : Counts t) (e : Event) : Counts (e.act t) := by
  cases e with
  | add i => exact h.insert i ⟨rfl, rfl, rfl, rfl, id⟩
  | accept i => exact h.insert i ⟨rfl, rfl, rfl, rfl, nofun⟩
  | establish i => exact h.establish i
  | handshake i extensions id me known => exact h.handshake i extensions id me known
  | packet i relaxed stray pkt => exact h.handlePacket i relaxed stray pkt
  | sendDataRequests i d =>
      apply h.ifConnected
      exact (keptByRequests i).sendDataRequests h d
  | requestPiece i p allowed =>
      apply h.ifConnected
      exact (keptByRequests i).sendPieceRequests h p allowed
  | blockStored i piece start len valid =>
      show Counts (if piece < t.table.totalPieces then t.blockStored i piece start len valid else t)
      split
      · next hp => exact h.blockStored i start len hp valid
      · exact h
  | setAmInterested i interest =>
      apply h.ifConnected
      exact h.setAmInterested i interest
  | setAmChoking i c =>
      apply h.ifConnected
      exact h.setAmChoking i c
  | rebuildPiecesNeeded => exact h.rebuildPiecesNeeded
  | startup pieceLength totalLength => exact h.startup pieceLength totalLength
  | disconnect i => exact h.disconnect i
  | fail i msg => exact h.setError i msg
  | remove i => exact h.remove i

end Counts

theorem counts_new : Counts .new where
  sized := rfl
  sources p hp := absurd hp (Nat.not_lt_zero p)
  interested := rfl
  not_choking := rfl
  bitfield i _ hq := absurd ((Table.get_empty (k := i)).symm.trans hq) nofun

theorem counts_of_reach (h : Reach Started (Step fun _ _ => True) t) : Counts t := by
  apply h.invariant (I := Counts)
  · intro t hStart
    exact hStart ▸ counts_new
  · intro t e t' hCounts hStep
    exact hStep.2 ▸ hCounts.act e

/-- In every state reached, the sources of a piece are the connected peers whose
bit field has it, the pieces counted for a peer are the bits set in its bit field,
and the peers we are interested in, and those we do not choke, are counted right. -/
theorem counters_exact (h : Reach Started (Step fun _ _ => True) t) :
    (∀ p < t.table.totalPieces,
      (t.piece p).sourcesCount = (t.peers.count fun q => q.isConnected && q.has p : Nat)) ∧
    (∀ i q, t.peers.get i = some q →
      q.completePieces = ((q.bitfield.map BitField.count).getD 0 : Nat)) ∧
    t.amInterestedPeersCount = (t.peers.count fun q => q.amInterested : Nat) ∧
    t.amNotChokingPeersCount = (t.peers.count fun q => !q.amChoking : Nat) := by
  have hCounts := counts_of_reach h
  refine ⟨fun p hp => ?_, fun i q hq => (hCounts.bitfield i q hq).complete_pieces, ?_, ?_⟩
  · rw [hCounts.sources p hp, ← Table.total_bit]
    apply Table.total_congr
    intro i q hq
    cases hBf : q.bitfield with
    | none =>
        unfold Peer.has
        rw [hBf]
        cases q.isConnected <;> rfl
    | some bf =>
        have hLive := (hCounts.bitfield i q hq).connected (hBf ▸ rfl)
        rw [hLive, Bool.true_and]
  · rw [hCounts.interested, Table.total_bit]
  · rw [hCounts.not_choking, Table.total_bit]

/-- A peer says twice that it has the only piece, and is let download. -/
def saidTwice : List Event :=
  [.startup (2 * blockSize) (2 * blockSize), .add 1, .establish 1,
    .handshake 1 [0, 0, 0, 0, 0, 0, 0, 4] (bytes "peer") (bytes "self") true,
    .packet 1 true 0 (.have 0), .packet 1 true 0 .haveAll, .setAmChoking 1 false]

theorem counters_exact_saidTwice :
    (((saidTwice.foldl Event.act .new).piece 0).sourcesCount = 1 ∧
      (saidTwice.foldl Event.act .new).amInterestedPeersCount = 1) ∧
    ((∀ p < (saidTwice.foldl Event.act .new).table.totalPieces,
        ((saidTwice.foldl Event.act .new).piece p).sourcesCount =
          ((saidTwice.foldl Event.act .new).peers.count fun q => q.isConnected && q.has p : Nat)) ∧
      (∀ i q, (saidTwice.foldl Event.act .new).peers.get i = some q →
        q.completePieces = ((q.bitfield.map BitField.count).getD 0 : Nat)) ∧
      (saidTwice.foldl Event.act .new).amInterestedPeersCount =
        ((saidTwice.foldl Event.act .new).peers.count fun q => q.amInterested : Nat) ∧
      (saidTwice.foldl Event.act .new).amNotChokingPeersCount =
        ((saidTwice.foldl Event.act .new).peers.count fun q => !q.amChoking : Nat)) := by
  have hStart : Reach Started (Step fun _ _ => True) .new := .start rfl
  refine ⟨⟨by decide, by decide⟩, counters_exact (hStart.foldl saidTwice ?_)⟩
  exact ⟨trivial, trivial, trivial, trivial, trivial, trivial, trivial, trivial⟩

end Lftp.Ports.TorrentPeers
