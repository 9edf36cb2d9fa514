import Lftp.Verified.Runs
import Lftp.Verified.Table
import Lftp.Ports.TorrentPacket
import Lftp.Ports.TorrentPieces

/-!
# The peers of a torrent

`TorrentPeer` and the parts of `Torrent` that its methods change, as a system of
events: packets received, requests sent, blocks stored, decisions about interest
and choking, and the life of a connection. A peer's key in the table stands for
its address, which is what the downloader slots hold.

Timers, rates, the disk and the random numbers answer through the arguments of
an event. What a method does last by calling another one that can also run on
its own (`SendDataRequests` after a packet, `ScanPeers` after the last piece) is
an event of its own. Packets that are sent are not part of the state.

* `handlePacket` is `TorrentPeer::HandlePacket`: `check` are the tests that end
  in `SetError` or in nothing, `accept` is the rest.
* `disconnect` is `TorrentPeer::Disconnect`, `clearSentQueue` the method of that
  name, `setDownloader` the update of a slot and its counter.
-/

namespace Lftp.Ports.TorrentPeers

open Lftp.Verified
open Lftp.Ports.TorrentPacket
open Lftp.Ports.TorrentPieces

/-- `PacketRequest`. -/
structure Request where
  index : Nat
  start : Nat
  reqLength : Nat

/-- `TorrentPeer`. `sock` says that the socket is open, `recvBuf` and `sendBuf`
that the buffers are there. -/
structure Peer where
  error : Option Bytes
  sock : Bool
  connected : Bool
  passive : Bool
  recvBuf : Bool
  sendBuf : Bool
  peerId : Option Bytes
  extensions : Bytes
  myself : Bool
  amChoking : Bool
  amInterested : Bool
  peerChoking : Bool
  peerInterested : Bool
  bitfield : Option BitField
  completePieces : Int
  fastSet : List Nat
  suggestedSet : List Nat
  recvQueue : List Request
  sentQueue : List Request
  lastPiece : Option Nat
  invalidPieceCount : Nat

namespace Peer

/-- `TorrentPeer::TorrentPeer`. -/
def new : Peer where
  error := none
  sock := false
  connected := false
  passive := false
  recvBuf := false
  sendBuf := false
  peerId := none
  extensions := List.replicate 8 0
  myself := false
  amChoking := true
  amInterested := false
  peerChoking := true
  peerInterested := false
  bitfield := none
  completePieces := 0
  fastSet := []
  suggestedSet := []
  recvQueue := []
  sentQueue := []
  lastPiece := none
  invalidPieceCount := 0

/-- `TorrentPeer::TorrentPeer` and `Connect`, as `Torrent::Accept` calls them. -/
def accepted : Peer := { new with sock := true, recvBuf := true, connected := true, passive := true }

/-- `TorrentPeer::Connected`. -/
def isConnected (q : Peer) : Bool := q.peerId.isSome && q.sendBuf && q.recvBuf

/-- `FastExtensionEnabled`. -/
def fastExtension (q : Peer) : Bool := q.extensions.getD 7 0 &&& 0x04 != 0

/-- `LTEPExtensionEnabled`. -/
def ltepExtension (q : Peer) : Bool := q.extensions.getD 5 0 &&& 0x10 != 0

/-- The peer has the piece. -/
def has (q : Peer) (p : Nat) : Bool := q.bitfield.any fun bf => bf.getBit p

/-- `TorrentPeer::FindRequest`. -/
def findRequest (q : Peer) (piece start : Nat) : Option Nat :=
  q.sentQueue.findIdx? fun req => req.index == piece && req.start == start

/-- What `TorrentPeer::Disconnect` leaves of the peer, its queue and its bit field
apart. -/
def closed (q : Peer) : Peer :=
  { q with
    recvQueue := []
    peerId := none
    fastSet := []
    suggestedSet := []
    recvBuf := false
    sendBuf := false
    sock := false
    connected := if q.sock then false else q.connected
    amInterested := false
    amChoking := true
    peerInterested := false
    peerChoking := true
    completePieces := 0 }

end Peer

/-- `MAX_QUEUE_LEN`. -/
def maxQueueLen : Nat := 16

/-- `max_uploaders`. -/
def maxUploaders : Nat := 20

/-- The members of `Torrent` that the peers change. The pieces needed are in the
order in which they are tried. -/
structure Torrent where
  hasMetadata : Bool
  table : Pieces
  peers : Table Nat Peer
  amInterestedPeersCount : Int
  amNotChokingPeersCount : Int
  endGame : Bool
  lastPiece : Option Nat
  piecesNeeded : List Nat

namespace Torrent

/-- A torrent without peers or metadata. -/
def new : Torrent := ⟨false, .empty, .empty, 0, 0, false, none, []⟩

def modPeer (t : Torrent) (i : Nat) (f : Peer → Peer) : Torrent :=
  { t with peers := t.peers.modify i f }

def modPiece (t : Torrent) (p : Nat) (f : TorrentPiece → TorrentPiece) : Torrent :=
  { t with table := { t.table with pieceInfo := t.table.pieceInfo.modify p f } }

/-- `piece_info[p]`. -/
def piece (t : Torrent) (p : Nat) : TorrentPiece := t.table.pieceInfo.getD p .new

/-- `piece_info[p].downloader_for(b)`. -/
def slot (t : Torrent) (p b : Nat) : Option Nat := (t.piece p).downloaderFor b

/-- `Torrent::SetDownloader`. -/
def setDownloader (t : Torrent) (p b : Nat) (o n : Option Nat) : Torrent :=
  t.modPiece p fun i => i.setDownloader b o n (t.table.blocksInPieceOf p)

/-- `Torrent::SetPieceNotWanted`. -/
def setPieceNotWanted (t : Torrent) (p : Nat) : Torrent :=
  { t with piecesNeeded := t.piecesNeeded.erase p }

/-- `Torrent::NeedMoreUploaders`; `relaxed` stands for the tests of `validating`,
of the rate and of the timer. -/
def needMoreUploaders (t : Torrent) (relaxed : Bool) : Bool :=
  t.hasMetadata && relaxed && t.amInterestedPeersCount < maxUploaders

/-! ### Interest and choking -/

/-- `TorrentPeer::SetAmInterested`. -/
def setAmInterested (t : Torrent) (i : Nat) (interest : Bool) : Torrent :=
  match t.peers.get i with
  | none => t
  | some q =>
    let interest := if q.invalidPieceCount > 5 then false else interest
    if q.amInterested = interest then t
    else
      { t with
        amInterestedPeersCount := t.amInterestedPeersCount + (bit interest - bit q.amInterested)
      }.modPeer i fun q => { q with amInterested := interest }

/-- `TorrentPeer::SetAmChoking`. Choking empties `recv_queue` with and without
the fast extension. -/
def setAmChoking (t : Torrent) (i : Nat) (c : Bool) : Torrent :=
  match t.peers.get i with
  | none => t
  | some q =>
    if q.amChoking = c then t
    else
      { t with
        amNotChokingPeersCount := t.amNotChokingPeersCount - (bit c - bit q.amChoking)
      }.modPeer i fun q =>
        { q with amChoking := c, recvQueue := if c then [] else q.recvQueue }

/-- `TorrentPeer::SetLastPiece`. -/
def setLastPiece (t : Torrent) (i p : Nat) : Torrent :=
  let stale := fun (last : Option Nat) => last.all fun p => t.table.myBitfield.getBit p
  let t' := t.modPeer i fun q => if stale q.lastPiece then { q with lastPiece := some p } else q
  if stale t.lastPiece then { t' with lastPiece := some p } else t'

/-- `SetPieceHaving` up to `set_bit`. -/
def recordHaving (t : Torrent) (i p : Nat) (having : Bool) (bf : BitField) : Torrent :=
  let diff := bit having - bit (bf.getBit p)
  (t.modPiece p fun piece => piece.addSourcesCount diff).modPeer i fun q =>
    { q with
      completePieces := q.completePieces + diff
      bitfield := some (bf.setBit p having) }

/-- The rest of `SetPieceHaving`: a piece without sources is not tried, and a
peer with a piece that is wanted may be interesting. -/
def considerPiece (t : Torrent) (i p : Nat) (q : Peer) (having relaxed : Bool) : Torrent :=
  let t := if (t.piece p).sourcesCount = 0 then t.setPieceNotWanted p else t
  if having ∧ q.sendBuf ∧ q.amInterested = false ∧ t.table.myBitfield.getBit p = false ∧
      t.needMoreUploaders relaxed then
    (t.setAmInterested i true).setLastPiece i p
  else t

/-- `TorrentPeer::SetPieceHaving`. The null `peer_bitfield` that the method would
dereference does not occur (`Counts.bitfield`). -/
def setPieceHaving (t : Torrent) (i p : Nat) (having relaxed : Bool) : Torrent :=
  match t.peers.get i with
  | none => t
  | some q =>
    match q.bitfield with
    | none => t
    | some bf =>
      if bit having - bit (bf.getBit p) = 0 then t
      else (t.recordHaving i p having bf).considerPiece i p q having relaxed

/-- The loops of `BITFIELD`, `HAVE_ALL`, `HAVE_NONE` and `Disconnect`. -/
def setPiecesHaving (t : Torrent) (i : Nat) (having : Nat → Bool) (relaxed : Bool) : Torrent :=
  (List.range t.table.totalPieces).foldl
    (fun t p => t.setPieceHaving i p (having p) relaxed) t

/-! ### The queue of requests -/

/-- `SetDownloader(req->index,req->begin/BLOCK_SIZE,this,0)`. -/
def release (t : Torrent) (i : Nat) (req : Request) : Torrent :=
  t.setDownloader req.index (req.start / blockSize) (some i) none

/-- `TorrentPeer::ClearSentQueue(int)`. -/
def clearSentQueue (t : Torrent) (i : Nat) (k : Int) : Torrent :=
  match t.peers.get i with
  | none => t
  | some q =>
    if k < 0 then t
    else if q.fastExtension = false then
      ((q.sentQueue.take (k.toNat + 1)).foldl (fun t req => t.release i req) t).modPeer i
        fun q => { q with sentQueue := q.sentQueue.drop (k.toNat + 1) }
    else
      match q.sentQueue[k.toNat]? with
      | none => t
      | some req =>
        (t.release i req).modPeer i fun q => { q with sentQueue := q.sentQueue.eraseIdx k.toNat }

/-- `TorrentPeer::ClearSentQueue()`. -/
def clearSentQueueAll (t : Torrent) (i : Nat) : Torrent :=
  match t.peers.get i with
  | none => t
  | some q => t.clearSentQueue i ((q.sentQueue.length : Int) - 1)

/-- `TorrentPeer::CancelBlock`. -/
def cancelBlock (t : Torrent) (i p start : Nat) : Torrent :=
  match t.peers.get i with
  | none => t
  | some q =>
    if q.sendBuf = false then t
    else
      match q.findRequest p start with
      | none => t
      | some k =>
        (t.setDownloader p (start / blockSize) (some i) none).modPeer i
          fun q => { q with sentQueue := q.sentQueue.eraseIdx k }

/-! ### The connection -/

/-- The loop of `Disconnect` over the pieces, and `peer_bitfield=0`. -/
def dropBitfield (t : Torrent) (i : Nat) : Torrent :=
  match t.peers.get i with
  | none => t
  | some q =>
    if q.bitfield.isSome then
      (t.setPiecesHaving i (fun _ => false) false).modPeer i fun q => { q with bitfield := none }
    else t

/-- The members of the peer and of `parent` that `Disconnect` resets. -/
def close (t : Torrent) (i : Nat) : Torrent :=
  match t.peers.get i with
  | none => t
  | some q =>
    { t with
      amInterestedPeersCount := t.amInterestedPeersCount - bit q.amInterested
      amNotChokingPeersCount := t.amNotChokingPeersCount - bit (!q.amChoking)
    }.modPeer i Peer.closed

/-- `TorrentPeer::Disconnect`. -/
def disconnect (t : Torrent) (i : Nat) : Torrent :=
  ((t.clearSentQueueAll i).dropBitfield i).close i

/-- `TorrentPeer::SetError`. -/
def setError (t : Torrent) (i : Nat) (msg : Bytes) : Torrent :=
  (t.modPeer i fun q => { q with error := some msg }).disconnect i

/-- `TorrentPeer::Do` from the socket to the buffers, when the connection is
there. -/
def establish (t : Torrent) (i : Nat) : Torrent :=
  t.modPeer i fun q =>
    if q.error.isSome ∨ q.myself ∨ (q.sock = false ∧ q.passive) then q
    else { q with sock := true, connected := true, recvBuf := true, sendBuf := true }

/-- `RecvHandshake` and the rest of the handshake in `Do`; `known` says that the
info hash is ours, `me` is `my_peer_id`. -/
def handshake (t : Torrent) (i : Nat) (extensions id me : Bytes) (known : Bool) : Torrent :=
  match t.peers.get i with
  | none => t
  | some q =>
    if q.error.isSome ∨ q.myself ∨ ¬ (q.recvBuf ∧ q.sendBuf) ∨ q.peerId.isSome then t
    else
      let t := t.modPeer i fun q => { q with extensions }
      if known = false then (t.setError i (bytes "peer info_hash mismatch")).disconnect i
      else
        let t := t.modPeer i fun q => { q with peerId := some id }
        if t.hasMetadata = false ∧ { q with extensions }.ltepExtension = false then t.disconnect i
        else if id = me then t.modPeer i fun q => { q with myself := true }
        else if t.hasMetadata then
          t.modPeer i fun q => { q with bitfield := some (.new t.table.totalPieces) }
        else t

/-- `Delete(peer)`: `PrepareToDie` disconnects it. -/
def remove (t : Torrent) (i : Nat) : Torrent :=
  { t.disconnect i with peers := (t.disconnect i).peers.erase i }

/-- `Torrent::RestartPeers`. -/
def restartPeers (t : Torrent) : Torrent :=
  t.peers.ids.foldl
    (fun t i => if (t.peers.get i).any fun q => q.isConnected then t.disconnect i else t) t

/-- The metadata have arrived: `SetTotalLength`, and the end of `Startup`. -/
def startup (t : Torrent) (pieceLength totalLength : Nat) : Torrent :=
  if t.hasMetadata then t
  else
    { t with
      hasMetadata := true
      table := { t.table with pieceLength }.setTotalLength totalLength
    }.restartPeers

/-! ### Sending requests -/

/-- The test of `SendDataRequests(p)` that leaves a block to other peers, or to a
request already sent. -/
def blockTaken (t : Torrent) (i p b : Nat) : Bool :=
  match t.slot p b with
  | none => false
  | some d =>
    t.endGame == false || d == i ||
      (t.peers.get i).any fun q => (q.findRequest p (b * blockSize)).isSome

/-- `len` for block `b`. -/
def requestLength (t : Torrent) (p b : Nat) : Nat :=
  if b + 1 = t.table.blocksInPieceOf p then
    min blockSize (t.table.pieceLengthOf p - b * blockSize)
  else blockSize

/-- A request for block `b`, sent. -/
def requestBlock (t : Torrent) (i p b len : Nat) : Torrent :=
  let t := t.setDownloader p b none (some i)
  let t := t.modPeer i fun q => { q with sentQueue := q.sentQueue ++ [⟨p, b * blockSize, len⟩] }
  t.setLastPiece i p

/-- The loop of `SendDataRequests(p)`; `allowed` is `bytes_allowed`, and the
result comes with `sent`. -/
def requestBlocks (i p : Nat) : List Nat → Nat → Nat → Torrent → Torrent × Nat
  | [], _, sent, t => (t, sent)
  | b :: bs, allowed, sent, t =>
    if t.table.blockPresent p b ∨ t.blockTaken i p b then requestBlocks i p bs allowed sent t
    else
      let len := t.requestLength p b
      if allowed < len then (t, sent)
      else
        let t := t.requestBlock i p b len
        if (t.peers.get i).any fun q => maxQueueLen ≤ q.sentQueue.length then (t, sent + 1)
        else requestBlocks i p bs (allowed - len) (sent + 1) t

/-- `TorrentPeer::SendDataRequests(unsigned)`. -/
def sendPieceRequests (t : Torrent) (i p allowed : Nat) : Torrent × Nat :=
  if t.table.myBitfield.getBit p ∨ ((t.peers.get i).any fun q => q.has p) = false then (t, 0)
  else requestBlocks i p (List.range (t.table.blocksInPieceOf p)) allowed 0 t

/-- `TorrentPeer::GetLastPiece`. -/
def getLastPiece (t : Torrent) (q : Peer) : Option Nat :=
  let wanted := fun p => !t.table.myBitfield.getBit p && q.has p
  let begun := fun p => (t.piece p).blockMap.isSome
  match q.lastPiece.filter fun p => wanted p && begun p with
  | some p => some p
  | none => (t.lastPiece.filter wanted).or (q.lastPiece.filter wanted)

/-- What the environment answers while requests are sent: the bytes allowed at
each attempt, and the coin thrown for a piece not begun. -/
structure Draws where
  allowedToGet : Bool
  allowed : Nat → Nat
  coin : Nat → Bool
  interestTimer : Bool

/-- The attempt at the last piece. -/
def tryLast (d : Draws) (i : Nat) : Option Nat → Torrent → Torrent × Nat
  | none, t => (t, 0)
  | some p, t => t.sendPieceRequests i p (d.allowed 0)

/-- The loop over the fast set: a piece stays in it while it is being got. -/
def tryFast (d : Draws) (i : Nat) : Nat → List Nat → Torrent → Torrent
  | _, [], t => t.modPeer i fun q => { q with fastSet := [] }
  | k, p :: ps, t =>
    let r := t.sendPieceRequests i p (d.allowed k)
    if 0 < r.2 then r.1.modPeer i fun q => { q with fastSet := p :: ps }
    else tryFast d i (k + 1) ps r.1

/-- The loop over the suggested set; the number is that of the next attempt. -/
def trySuggested (d : Draws) (i : Nat) : Nat → List Nat → Torrent → Torrent × Option Nat
  | k, [], t => (t.modPeer i fun q => { q with suggestedSet := [] }, some k)
  | k, p :: ps, t =>
    let r := t.sendPieceRequests i p (d.allowed k)
    if 0 < r.2 then (r.1.modPeer i fun q => { q with suggestedSet := ps }, none)
    else trySuggested d i (k + 1) ps r.1

/-- The loop over the pieces needed; `found` says that the peer has one. -/
def tryNeeded (d : Draws) (i : Nat) : Nat → Bool → List Nat → Torrent → Torrent
  | _, found, [], t =>
    if found = false ∧ d.interestTimer then t.setAmInterested i false else t
  | k, found, p :: ps, t =>
    if ((t.peers.get i).any fun q => q.has p) = false then tryNeeded d i k found ps t
    else if t.table.myBitfield.getBit p then tryNeeded d i k true ps t
    else if (t.piece p).blockMap.isNone ∧ d.coin p then tryNeeded d i k true ps t
    else
      let r := t.sendPieceRequests i p (d.allowed k)
      if 0 < r.2 then r.1 else tryNeeded d i (k + 1) true ps r.1

/-- `TorrentPeer::SendDataRequests()`. -/
def sendDataRequests (t : Torrent) (i : Nat) (d : Draws) : Torrent :=
  match t.peers.get i with
  | none => t
  | some q =>
    if q.amInterested = false ∨ (q.peerChoking ∧ q.fastExtension = false) ∨
        maxQueueLen ≤ q.sentQueue.length ∨ d.allowedToGet = false then t
    else
      let last :=
        if q.peerChoking then (t.getLastPiece q).filter fun p => q.fastSet.contains p
        else t.getLastPiece q
      let r := tryLast d i last t
      if 0 < r.2 then r.1
      else if q.peerChoking then tryFast d i 1 q.fastSet r.1
      else
        match trySuggested d i 1 q.suggestedSet r.1 with
        | (t, none) => t
        | (t, some k) => tryNeeded d i k false t.piecesNeeded t

/-! ### Storing a block -/

/-- `TorrentPeer::MarkPieceInvalid`. -/
def markPieceInvalid (t : Torrent) (i p : Nat) : Torrent :=
  let t := t.modPeer i fun q => { q with invalidPieceCount := q.invalidPieceCount + 1 }
  let t := t.setPieceHaving i p false false
  match t.peers.get i with
  | none => t
  | some q => t.setAmInterested i q.amInterested

/-- `StoreBlock` up to the write. -/
def cancelBlocks (t : Torrent) (p start : Nat) : Torrent :=
  t.peers.ids.foldl (fun t j => t.cancelBlock j p start) t

/-- The loop over `SetBlockPresent`. -/
def setBlocksPresent (t : Torrent) (piece start len : Nat) : Torrent :=
  { t with
    table := (List.range' (start / blockSize) ((len + blockSize - 1) / blockSize)).foldl
      (fun table b => table.setBlockPresent piece b) t.table }

/-- `StoreBlock` for a piece that is now there. -/
def pieceComplete (t : Torrent) (piece : Nat) : Torrent :=
  let t := { t with table := t.table.pieceOk piece }.setPieceNotWanted piece
  if t.table.myBitfield.hasAllSet 0 t.table.myBitfield.bitLength ∧ t.table.complete = false then
    { t with table := { t.table with complete := true }, endGame := false }
  else t

/-- `StoreBlock` for a piece whose digest is wrong. -/
def pieceCorrupt (t : Torrent) (i piece : Nat) : Torrent :=
  { t with table := t.table.pieceBad piece }.markPieceInvalid i piece

/-- `StoreBlock` after the write; `valid` is the verdict of the digest. -/
def blockStored (t : Torrent) (i piece start len : Nat) (valid : Bool) : Torrent :=
  let t := t.setBlocksPresent piece start len
  if t.table.allBlocksPresent piece ∧ t.table.myBitfield.getBit piece = false then
    if valid then t.pieceComplete piece else t.pieceCorrupt i piece
  else t

/-- `PiecesNeededCmp(a,b)<=0`. -/
def neededLe (t : Torrent) (a b : Nat) : Bool :=
  (t.piece a).sourcesCount < (t.piece b).sourcesCount ||
    ((t.piece a).sourcesCount == (t.piece b).sourcesCount && a ≤ b)

/-- `Torrent::RebuildPiecesNeeded`. A piece that is missing and has no sources
is not cleaned up. -/
def rebuildPiecesNeeded (t : Torrent) : Torrent :=
  let missing := (List.range t.table.totalPieces).filter fun p => !t.table.myBitfield.getBit p
  let needed := missing.filter fun p => (t.piece p).sourcesCount ≠ 0
  let cleaned := (List.range t.table.totalPieces).filter fun p =>
    t.table.myBitfield.getBit p || (t.piece p).sourcesCount ≠ 0
  let endGame := missing.all fun p => 0 < (t.piece p).downloaderCount
  { cleaned.foldl (fun t p => t.modPiece p TorrentPiece.cleanup) t with
    piecesNeeded := needed.mergeSort fun a b => t.neededLe a b
    endGame := t.endGame || endGame }

/-! ### Packets -/

/-- How `HandlePacket` goes on after its tests. -/
inductive Verdict
  | ignore
  | error (msg : Bytes)
  | accept

/-- A test that ends in `SetError`, before the rest of the tests. -/
def orError (bad : Prop) [Decidable bad] (msg : String) (rest : Verdict) : Verdict :=
  if bad then .error (bytes msg) else rest

/-- `if(!parent->HasMetadata()) break;`. -/
def needMetadata (t : Torrent) (rest : Verdict) : Verdict :=
  if t.hasMetadata then rest else .ignore

/-- The tests shared by `PIECE` and `REQUEST`. -/
def checkSpan (t : Torrent) (index start len : Nat) (rest : Verdict) : Verdict :=
  orError (t.table.totalPieces ≤ index) "invalid piece index" <|
  orError (t.table.pieceLengthOf index ≤ start) "invalid data offset" <|
  orError (t.table.pieceLengthOf index < start + len) "invalid data length" rest

/-- The tests of each branch of `HandlePacket`, in their order. -/
def check (t : Torrent) (q : Peer) : Packet → Verdict
  | .have piece =>
    t.needMetadata <| orError (t.table.totalPieces ≤ piece.toNat) "invalid piece index" .accept
  | .bitfield bf =>
    t.needMetadata <|
      orError (bf.bytes.length < t.table.totalPieces / 8) "invalid bitfield length" <|
      orError (bf.hasAnySet t.table.totalPieces bf.bitLength = true)
        "bitfield has spare bits set" .accept
  | .haveAll | .haveNone =>
    orError (q.fastExtension = false) "fast extension is disabled" <| t.needMetadata .accept
  | .suggestPiece piece | .allowedFast piece =>
    orError (q.fastExtension = false) "fast extension is disabled" <|
      t.needMetadata <| orError (t.table.totalPieces ≤ piece.toNat) "invalid piece index" .accept
  | .rejectRequest .. => orError (q.fastExtension = false) "fast extension is disabled" .accept
  | .piece index start data =>
    t.needMetadata <| t.checkSpan index.toNat start.toNat data.length .accept
  | .request index start reqLength =>
    orError (blockSize * 2 < reqLength.toNat) "too large request" <|
      t.needMetadata <|
        if q.amChoking then .ignore
        else
          t.checkSpan index.toNat start.toNat reqLength.toNat <|
            orError (maxQueueLen * 16 ≤ q.recvQueue.length) "too many requests" .accept
  | _ => .accept

/-- What an accepted packet does. `stray` is the byte behind a short bit field.
`PORT`, the keep-alive and the extended messages change nothing here. -/
def accept (t : Torrent) (i : Nat) (q : Peer) (relaxed : Bool) (stray : UInt8) :
    Packet → Torrent
  | .choke => (t.modPeer i fun q => { q with peerChoking := true }).clearSentQueueAll i
  | .unchoke => t.modPeer i fun q => { q with peerChoking := false }
  | .interested => t.modPeer i fun q => { q with peerInterested := true }
  | .uninterested => t.modPeer i fun q => { q with recvQueue := [], peerInterested := false }
  | .have piece => t.setPieceHaving i piece.toNat true relaxed
  | .bitfield bf => t.setPiecesHaving i (fun p => bf.getBitOr stray p) relaxed
  | .haveAll => t.setPiecesHaving i (fun _ => true) relaxed
  | .haveNone => t.setPiecesHaving i (fun _ => false) relaxed
  | .suggestPiece piece =>
    t.modPeer i fun q => { q with suggestedSet := q.suggestedSet ++ [piece.toNat] }
  | .allowedFast piece => t.modPeer i fun q => { q with fastSet := q.fastSet ++ [piece.toNat] }
  | .rejectRequest index start _ =>
    match q.findRequest index.toNat start.toNat with
    | none => t
    | some k => t.clearSentQueue i k
  | .piece index start _ =>
    match q.findRequest index.toNat start.toNat with
    | none => t
    | some k => (t.clearSentQueue i k).cancelBlocks index.toNat start.toNat
  | .request index start reqLength =>
    t.modPeer i fun q =>
      { q with recvQueue := q.recvQueue ++ [⟨index.toNat, start.toNat, reqLength.toNat⟩] }
  | .cancel index start _ =>
    t.modPeer i fun q =>
      { q with
        recvQueue := q.recvQueue.eraseP fun req =>
          req.index == index.toNat && req.start == start.toNat }
  | _ => t

/-- `TorrentPeer::HandlePacket`; `Do` calls it after the handshake. -/
def handlePacket (t : Torrent) (i : Nat) (relaxed : Bool) (stray : UInt8) (pkt : Packet) :
    Torrent :=
  match t.peers.get i with
  | none => t
  | some q =>
    if q.isConnected = false ∨ q.error.isSome ∨ q.myself then t
    else
      match t.check q pkt with
      | .ignore => t
      | .error msg => t.setError i msg
      | .accept => t.accept i q relaxed stray pkt

end Torrent

/-! ## Events -/

inductive Event
  | add (i : Nat)
  | accept (i : Nat)
  | establish (i : Nat)
  | handshake (i : Nat) (extensions id me : Bytes) (known : Bool)
  | packet (i : Nat) (relaxed : Bool) (stray : UInt8) (pkt : Packet)
  | sendDataRequests (i : Nat) (d : Torrent.Draws)
  | requestPiece (i p allowed : Nat)
  | blockStored (i piece start len : Nat) (valid : Bool)
  | setAmInterested (i : Nat) (interest : Bool)
  | setAmChoking (i : Nat) (c : Bool)
  | rebuildPiecesNeeded
  | startup (pieceLength totalLength : Nat)
  | disconnect (i : Nat)
  | fail (i : Nat) (msg : Bytes)
  | remove (i : Nat)

/-- The calls that only reach connected peers. -/
def Torrent.ifConnected (t : Torrent) (i : Nat) (f : Torrent → Torrent) : Torrent :=
  if (t.peers.get i).any fun q => q.isConnected then f t else t

/-- A block is stored for a packet that `HandlePacket` has let pass. -/
def Event.act (t : Torrent) : Event → Torrent
  | add i => { t with peers := t.peers.insert i .new }
  | accept i => { t with peers := t.peers.insert i .accepted }
  | establish i => t.establish i
  | handshake i extensions id me known => t.handshake i extensions id me known
  | packet i relaxed stray pkt => t.handlePacket i relaxed stray pkt
  | sendDataRequests i d => t.ifConnected i fun t => t.sendDataRequests i d
  | requestPiece i p allowed => t.ifConnected i fun t => (t.sendPieceRequests i p allowed).1
  | blockStored i piece start len valid =>
    if piece < t.table.totalPieces then t.blockStored i piece start len valid else t
  | setAmInterested i interest => t.ifConnected i fun t => t.setAmInterested i interest
  | setAmChoking i c => t.ifConnected i fun t => t.setAmChoking i c
  | rebuildPiecesNeeded => t.rebuildPiecesNeeded
  | startup pieceLength totalLength => t.startup pieceLength totalLength
  | disconnect i => t.disconnect i
  | fail i msg => t.setError i msg
  | remove i => t.remove i

/-- A step whose event meets `ok` in the state before it. -/
def Step (ok : Torrent → Event → Prop) : Torrent → Event → Torrent → Prop :=
  Guarded Event.act ok

def Started (t : Torrent) : Prop := t = .new

/-! ## Reading a state that was changed -/

namespace Torrent

theorem get_modPeer (t : Torrent) (i : Nat) (f : Peer → Peer) (j : Nat) :
    (t.modPeer i f).peers.get j = if j = i then (t.peers.get j).map f else t.peers.get j :=
  Table.get_modify t.peers i f j

theorem get_modPeer_self {t : Torrent} {i : Nat} {q : Peer} (h : t.peers.get i = some q)
    (f : Peer → Peer) : (t.modPeer i f).peers.get i = some (f q) := by
  rw [get_modPeer, if_pos rfl, h]
  rfl

theorem get_modPeer_ne (t : Torrent) {i j : Nat} (h : j ≠ i) (f : Peer → Peer) :
    (t.modPeer i f).peers.get j = t.peers.get j := by
  rw [get_modPeer, if_neg h]

theorem piece_modPiece (t : Torrent) (p : Nat) (f : TorrentPiece → TorrentPiece) (q : Nat) :
    (t.modPiece p f).piece q =
      if q = p ∧ p < t.table.pieceInfo.length then f (t.piece q) else t.piece q := by
  show (t.table.pieceInfo.modify p f).getD q .new = _
  unfold piece
  rw [List.getD_eq_getElem?_getD, List.getD_eq_getElem?_getD, List.getElem?_modify]
  by_cases hq : q = p
  · subst hq
    by_cases hLt : q < t.table.pieceInfo.length
    · rw [if_pos ⟨rfl, hLt⟩, List.getElem?_eq_getElem hLt]
      simp
    · rw [if_neg fun h => hLt h.2, List.getElem?_eq_none (Nat.le_of_not_lt hLt)]
      rfl
  · rw [if_neg fun h => hq h.1]
    simp [Ne.symm hq]

/-- What `f` does not change in a piece does not change. -/
theorem piece_modPiece_congr {α : Type} (g : TorrentPiece → α) {f : TorrentPiece → TorrentPiece}
    (h : ∀ i, g (f i) = g i) (t : Torrent) (p q : Nat) :
    g ((t.modPiece p f).piece q) = g (t.piece q) := by
  rw [piece_modPiece]
  split
  · exact h _
  · rfl

theorem table_setLastPiece (t : Torrent) (i p : Nat) : (t.setLastPiece i p).table = t.table := by
  unfold setLastPiece
  dsimp only
  split <;> rfl

theorem table_setAmInterested (t : Torrent) (i : Nat) (interest : Bool) :
    (t.setAmInterested i interest).table = t.table := by
  unfold setAmInterested
  split
  · rfl
  · dsimp only
    split
    · split <;> rfl
    · split <;> rfl

theorem table_considerPiece (t : Torrent) (i p : Nat) (q : Peer) (having relaxed : Bool) :
    (t.considerPiece i p q having relaxed).table = t.table := by
  have hNeeded : (if (t.piece p).sourcesCount = 0 then t.setPieceNotWanted p else t).table =
      t.table := by
    split <;> rfl
  unfold considerPiece
  dsimp only
  generalize (if (t.piece p).sourcesCount = 0 then t.setPieceNotWanted p else t) = t' at hNeeded ⊢
  split
  · rw [table_setLastPiece, table_setAmInterested]
    exact hNeeded
  · exact hNeeded

theorem totalPieces_setPieceHaving (t : Torrent) (i p : Nat) (having relaxed : Bool) :
    (t.setPieceHaving i p having relaxed).table.totalPieces = t.table.totalPieces := by
  unfold setPieceHaving
  split
  · rfl
  · split
    · rfl
    · split
      · rfl
      · rw [table_considerPiece]
        rfl

/-- What is kept by each step of a loop is kept by the loop. -/
theorem foldl_keeps {α : Type} {I : Torrent → Prop} {f : Torrent → α → Torrent}
    {l : List α} (hStep : ∀ t, ∀ a ∈ l, I t → I (f t a)) {t : Torrent} (h : I t) :
    I (l.foldl f t) := by
  induction l generalizing t with
  | nil => exact h
  | cons a l ih =>
      apply ih
      · exact fun t a' ha' => hStep t a' (List.mem_cons_of_mem a ha')
      · exact hStep t a List.mem_cons_self h

/-! ## Sending requests, step by step -/

/-- `SendDataRequests` does nothing to a state but these steps. -/
structure KeptByRequests (I : Torrent → Prop) (i : Nat) : Prop where
  request : ∀ t p b len, I t → b < t.table.blocksInPieceOf p → I (t.requestBlock i p b len)
  fastSet : ∀ t ps, I t → I (t.modPeer i fun q => { q with fastSet := ps })
  suggestedSet : ∀ t ps, I t → I (t.modPeer i fun q => { q with suggestedSet := ps })
  interest : ∀ t, I t → I (t.setAmInterested i false)

namespace KeptByRequests

variable {I : Torrent → Prop} {i p : Nat} {t : Torrent}

theorem requestBlocks (h : KeptByRequests I i) (bs : List Nat) (hI : I t)
    (hbs : ∀ b ∈ bs, b < t.table.blocksInPieceOf p) (allowed sent : Nat) :
    I (requestBlocks i p bs allowed sent t).1 := by
  induction bs generalizing t allowed sent with
  | nil => exact hI
  | cons b bs ih =>
      unfold Torrent.requestBlocks
      have hRest : ∀ b' ∈ bs, b' < t.table.blocksInPieceOf p :=
        fun b' hb' => hbs b' (List.mem_cons_of_mem b hb')
      split
      · exact ih hI hRest allowed sent
      · dsimp only
        split
        · exact hI
        · have hSent := h.request t p b (t.requestLength p b) hI (hbs b List.mem_cons_self)
          split
          · exact hSent
          · apply ih hSent
            intro b' hb'
            unfold requestBlock
            dsimp only
            rw [table_setLastPiece]
            exact hRest b' hb'

theorem sendPieceRequests (h : KeptByRequests I i) (hI : I t) (p allowed : Nat) :
    I (t.sendPieceRequests i p allowed).1 := by
  unfold Torrent.sendPieceRequests
  split
  · exact hI
  · exact h.requestBlocks _ hI (fun b hb => List.mem_range.mp hb) allowed 0

theorem tryFast (h : KeptByRequests I i) (d : Draws) (ps : List Nat) (hI : I t) (k : Nat) :
    I (tryFast d i k ps t) := by
  induction ps generalizing t k with
  | nil => exact h.fastSet t [] hI
  | cons p ps ih =>
      unfold Torrent.tryFast
      have hTried := h.sendPieceRequests hI p (d.allowed k)
      dsimp only
      split
      · exact h.fastSet _ (p :: ps) hTried
      · exact ih hTried (k + 1)

theorem trySuggested (h : KeptByRequests I i) (d : Draws) (ps : List Nat) (hI : I t) (k : Nat) :
    I (trySuggested d i k ps t).1 := by
  induction ps generalizing t k with
  | nil => exact h.suggestedSet t [] hI
  | cons p ps ih =>
      unfold Torrent.trySuggested
      have hTried := h.sendPieceRequests hI p (d.allowed k)
      dsimp only
      split
      · exact h.suggestedSet _ ps hTried
      · exact ih hTried (k + 1)

theorem tryNeeded (h : KeptByRequests I i) (d : Draws) (ps : List Nat) (hI : I t) (k : Nat)
    (found : Bool) : I (tryNeeded d i k found ps t) := by
  induction ps generalizing t k found with
  | nil =>
      unfold Torrent.tryNeeded
      split
      · exact h.interest t hI
      · exact hI
  | cons p ps ih =>
      unfold Torrent.tryNeeded
      have hTried := h.sendPieceRequests hI p (d.allowed k)
      split
      · exact ih hI k found
      · split
        · exact ih hI k true
        · split
          · exact ih hI k true
          · dsimp only
            split
            · exact hTried
            · exact ih hTried (k + 1) true

theorem sendDataRequests (h : KeptByRequests I i) (hI : I t) (d : Draws) :
    I (t.sendDataRequests i d) := by
  unfold Torrent.sendDataRequests
  split
  · exact hI
  · next q _ =>
    split
    · exact hI
    · dsimp only
      generalize (if q.peerChoking = true then
        (t.getLastPiece q).filter fun p => q.fastSet.contains p else t.getLastPiece q) = last
      have hLast : I (tryLast d i last t).1 := by
        cases last with
        | none => exact hI
        | some p => exact h.sendPieceRequests hI p (d.allowed 0)
      split
      · exact hLast
      · split
        · exact h.tryFast d q.fastSet hLast 1
        · have hSuggested := h.trySuggested d q.suggestedSet hLast 1
          split
          · next hTried =>
            rw [hTried] at hSuggested
            exact hSuggested
          · next hTried =>
            rw [hTried] at hSuggested
            exact h.tryNeeded d _ hSuggested _ false

end KeptByRequests

end Torrent

end Lftp.Ports.TorrentPeers
