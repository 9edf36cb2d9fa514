import Lftp.Ports.TorrentPacket

/-!
# Fetching the metadata from a peer

A translation of the `ut_metadata` exchange: `SendMetadataRequest`, the parts of
`HandleExtendedMessage` that serve the extended handshake and the metadata
messages, and `Torrent::MetadataDownloaded`. The handler is one function for
both ends, so the serving side of the exchange is translated with it.

* `Answers` describes a peer that holds a metadata string and answers each
  request with the block asked for; `answers_reply` says the handler is one.
* `Awaiting` is the state between two messages, `awaiting_round` what one block
  does to it.
* `metadata_downloaded_iff` says which lengths the download ends for: the end is
  recognised by a short last block only.
-/

namespace Lftp.Ports.TorrentMetadata

open Lftp.Verified
open Lftp.Ports.Bencode
open Lftp.Ports.TorrentPacket

/-- `Torrent::BLOCK_SIZE`. -/
def blockSize : Nat := 0x4000

/-- `MSG_EXT_HANDSHAKE` and `MSG_EXT_METADATA`. -/
def msgExtHandshake : UInt8 := 0
def msgExtMetadata : UInt8 := 2

/-- `UT_METADATA_REQUEST`, `UT_METADATA_DATA` and `UT_METADATA_REJECT`. -/
def utMetadataRequest : BitVec 64 := 0
def utMetadataData : BitVec 64 := 1
def utMetadataReject : BitVec 64 := 2

/-- `INT_MAX/Torrent::BLOCK_SIZE`, the first piece number that is refused. -/
def pieceLimit : Int := (2 ^ 31 - 1) / 0x4000

/-- The members of `Torrent` the exchange reads and writes. A string that is
not set is `none`. `downloaded` records what `MetadataDownloaded` was run on. -/
structure Torrent where
  metadata : Option Bytes
  infoHash : Option Bytes
  mdDownload : Option Bytes
  metadataSize : BitVec 64
  downloaded : List Bytes

/-- Why a peer connection ended: `SetError` or `Disconnect`, with the text. -/
inductive Stop where
  | error (text : String)
  | disconnect (text : String)
deriving DecidableEq

/-- The members of `TorrentPeer`. -/
structure TorrentPeer where
  msgExtMetadata : BitVec 32
  msgExtPex : BitVec 32
  metadataSize : BitVec 64
  uploadOnly : Bool
  passive : Bool
  port : Option (BitVec 32)
  stop : Option Stop
  sendBuf : List Packet

structure Session where
  torrent : Torrent
  peer : TorrentPeer

/-- What the exchange takes from outside: the hash of the crypto library, and
the content of a cached metadata file that `LoadMetadata` accepts. -/
structure Env where
  sha1 : Bytes → Bytes
  cached : Option Bytes

/-- What a passive peer's address turns out to be once its port is known. -/
inductive ConnectBack where
  | fresh | blackListed | duplicate

/-! ## Lookup in a dictionary -/

/-- The member `dict`; it is empty unless the node is a dictionary. -/
def dict : BeNode → List (Bytes × BeNode)
  | .dict _ d => d
  | _ => []

/-- `lookup(key,BE_INT)`. -/
def lookupInt? (n : BeNode) (key : String) : Option (BitVec 64) :=
  match (dict n).lookup (bytes key) with
  | some (.int num) => some num
  | _ => none

/-- `lookup_int(key)`. -/
def lookupInt (n : BeNode) (key : String) : BitVec 64 := (lookupInt? n key).getD 0

/-- `lookup(key,BE_DICT)`. -/
def lookupDict? (n : BeNode) (key : String) : Option BeNode :=
  match (dict n).lookup (bytes key) with
  | some (.dict raw d) => some (.dict raw d)
  | _ => none

def isDict : BeNode → Bool
  | .dict .. => true
  | _ => false

/-! ## The handlers -/

namespace Session

def setError (s : Session) (text : String) : Session :=
  { s with peer.stop := some (.error text) }

/-- `Torrent::StartMetadataDownload`. -/
def startMetadataDownload (e : Env) (t : Torrent) : Torrent :=
  match e.cached with
  | some md => { t with metadata := some md }
  | none => { t with mdDownload := some [] }

/-- `Torrent::MetadataDownloaded` and the hash check of `SetMetadata`. -/
def metadataDownloaded (e : Env) (t : Torrent) (md : Bytes) : Torrent :=
  let t := { t with downloaded := t.downloaded ++ [md] }
  if t.infoHash.isSome ∧ t.infoHash ≠ some (e.sha1 md) then startMetadataDownload e t
  else { t with metadata := some md, infoHash := some (e.sha1 md), mdDownload := none }

/-- The request for the block after the `n` bytes already here. -/
def metadataRequest (n : Nat) : BeNode :=
  .dict [] [(bytes "msg_type", .int utMetadataRequest),
    (bytes "piece", .int (BitVec.ofNat 64 (n / blockSize)))]

/-- Pack an extended message of the peer's code for `ut_metadata`. -/
def sendMetadata (s : Session) (data : BeNode) (appendix : Bytes) : Session :=
  { s with peer.sendBuf := s.peer.sendBuf ++
      [.extended (.ofNat s.peer.msgExtMetadata.toNat) (some data) appendix] }

/-- `SendMetadataRequest`. -/
def sendMetadataRequest (s : Session) : Session :=
  match s.torrent.mdDownload with
  | none => s
  | some md =>
    if s.peer.msgExtMetadata = 0 ∨ s.peer.metadataSize.toNat ≤ md.length
        ∨ md.length % blockSize ≠ 0 then s
    else s.sendMetadata (metadataRequest md.length) []

/-- The end of the handshake of a passive peer, and whether the handler goes
on after it. -/
def connectBack (s : Session) (data : BeNode) (c : ConnectBack) : Session × Bool :=
  let p := (lookupInt data "p").setWidth 32
  if s.peer.passive ∧ (1024 : Int) ≤ p.toInt ∧ p.toInt ≤ 65535 then
    let s := { s with peer.port := some p, peer.passive := false }
    match c with
    | .fresh => (s, true)
    | .blackListed => (s.setError "blacklisted", false)
    | .duplicate => (s, false)
  else (s, true)

/-- `HandleExtendedMessage` for `MSG_EXT_HANDSHAKE`. -/
def handleHandshake (s : Session) (data : BeNode) (c : ConnectBack) : Session :=
  let s := match lookupDict? data "m" with
    | some m => { s with
        peer.msgExtMetadata := (lookupInt m "ut_metadata").setWidth 32
        peer.msgExtPex := (lookupInt m "ut_pex").setWidth 32 }
    | none => s
  let size := lookupInt data "metadata_size"
  let s := { s with
    torrent.metadataSize := size
    peer.metadataSize := size
    peer.uploadOnly := lookupInt data "upload_only" ≠ 0 }
  if s.torrent.metadata = none ∧ s.peer.msgExtMetadata = 0 then
    { s with peer.stop := some (.disconnect "peer cannot provide metadata") }
  else
    match s.connectBack data c with
    | (s, false) => s
    | (s, true) => s.sendMetadataRequest

/-- `UT_METADATA_REQUEST`. -/
def handleRequest (s : Session) (piece : BitVec 64) (offset : Nat) : Session :=
  let metadata := s.torrent.metadata.getD []
  if metadata.length < offset then
    s.sendMetadata (.dict [] [(bytes "msg_type", .int utMetadataReject),
      (bytes "piece", .int piece)]) []
  else
    s.sendMetadata (.dict [] [(bytes "msg_type", .int utMetadataData),
      (bytes "piece", .int piece),
      (bytes "total_size", .int (BitVec.ofNat 64 metadata.length))])
      ((metadata.drop offset).take blockSize)

/-- The block of a `UT_METADATA_DATA` that continues the bytes `md`, after the
check of `total_size`. -/
def appendBlock (e : Env) (s : Session) (md appendix : Bytes) : Session :=
  let md := md ++ appendix
  let s := { s with torrent.mdDownload := some md }
  if appendix.length < blockSize then
    { s with torrent := metadataDownloaded e s.torrent md }
  else s

/-- `UT_METADATA_DATA`. -/
def handleData (e : Env) (s : Session) (data : BeNode) (offset : Nat)
    (appendix : Bytes) : Session :=
  match s.torrent.mdDownload with
  | none => s
  | some md =>
    if offset = md.length then
      match lookupInt? data "total_size" with
      | some size =>
        if s.peer.metadataSize ≠ 0 ∧ s.peer.metadataSize ≠ size then
          s.setError "metadata_size mismatch with total_size"
        else
          let s := { s with torrent.metadataSize := size, peer.metadataSize := size }
          (appendBlock e s md appendix).sendMetadataRequest
      | none => (appendBlock e s md appendix).sendMetadataRequest
    else s.sendMetadataRequest

/-- `HandleExtendedMessage` for `MSG_EXT_METADATA`. -/
def handleMetadata (e : Env) (s : Session) (data : BeNode) (appendix : Bytes) : Session :=
  match lookupInt? data "msg_type" with
  | none => s.setError "ut_metadata msg_type bad or missing"
  | some msgType =>
    match lookupInt? data "piece" with
    | none => s.setError "ut_metadata piece bad or missing"
    | some piece =>
      if piece.toInt < 0 ∨ pieceLimit ≤ piece.toInt then
        s.setError "ut_metadata piece bad or missing"
      else
        let offset := piece.toNat * blockSize
        if msgType = utMetadataRequest then s.handleRequest piece offset
        else if msgType = utMetadataData then s.handleData e data offset appendix
        else if msgType = utMetadataReject then s
        else s.setError "ut_metadata msg_type invalid value"

/-- `HandleExtendedMessage`, without the peer exchange. -/
def handleExtendedMessage (e : Env) (s : Session) (c : ConnectBack) (code : UInt8)
    (data : BeNode) (appendix : Bytes) : Session :=
  if isDict data = false then s.setError "extended type must be DICT"
  else if code = msgExtHandshake then s.handleHandshake data c
  else if code = msgExtMetadata then s.handleMetadata e data appendix
  else s

end Session

/-! ## The serving peer -/

/-- `data` and `appendix` are the correct `ut_metadata` message with block `n` of `md`. -/
structure DataMessage (md : Bytes) (n : Nat) (data : BeNode) (appendix : Bytes) : Prop where
  dict : isDict data = true
  msg_type : lookupInt? data "msg_type" = some utMetadataData
  piece : ∃ v, lookupInt? data "piece" = some v ∧ v.toInt = n
  total_size : ∀ v, lookupInt? data "total_size" = some v → v.toInt = md.length
  block : appendix = (md.drop (n * blockSize)).take blockSize

/-- The request for block `n`, as a peer receives it that gave `ut_metadata` the code `id`. -/
def request (id : UInt8) (n : Nat) : Packet :=
  .extended id (some (Session.metadataRequest (n * blockSize))) []

/-- A peer that answers the request for each block of `md` with the correct message. -/
def Answers (id : UInt8) (md : Bytes) (reply : Packet → BeNode × Bytes) : Prop :=
  ∀ n, n * blockSize < md.length →
    DataMessage md n (reply (request id n)).1 (reply (request id n)).2

/-- The extended handshake of a peer that holds `md` and gives `ut_metadata` the code `id`. -/
structure Announces (id : UInt8) (md : Bytes) (data : BeNode) : Prop where
  dict : isDict data = true
  id_ne : id ≠ 0
  code : ∃ m, lookupDict? data "m" = some m ∧ (lookupInt m "ut_metadata").toInt = id.toNat
  size : (lookupInt data "metadata_size").toInt = md.length

/-- A connected peer of a torrent whose metadata download has just been started. -/
structure Fresh (s : Session) : Prop where
  stop : s.peer.stop = none
  download : s.torrent.mdDownload = some []
  downloaded : s.torrent.downloaded = []
  sendBuf : s.peer.sendBuf = []

/-- The first request of the send buffer is answered and the answer is handled. -/
def round (e : Env) (reply : Packet → BeNode × Bytes) (s : Session) : Session :=
  match s.peer.stop, s.peer.sendBuf with
  | none, req :: rest =>
    { s with peer.sendBuf := rest }.handleExtendedMessage e .fresh msgExtMetadata
      (reply req).1 (reply req).2
  | _, _ => s

def rounds (e : Env) (reply : Packet → BeNode × Bytes) (n : Nat) (s : Session) : Session :=
  (round e reply)^[n] s

/-- The number of messages it takes to send `md`. -/
def blocks (md : Bytes) : Nat := (md.length + blockSize - 1) / blockSize

/-! ## What one block does -/

/-- `n` whole blocks of `md` are here, and the exchange is neither over nor failed. -/
structure Holding (md : Bytes) (id : UInt8) (n : Nat) (s : Session) : Prop where
  stop : s.peer.stop = none
  download : s.torrent.mdDownload = some (md.take (n * blockSize))
  downloaded : s.torrent.downloaded = []
  size : s.peer.metadataSize.toNat = md.length
  code : s.peer.msgExtMetadata.toNat = id.toNat
  id_ne : id ≠ 0

/-- The state between two messages: the next block has been asked for. -/
structure Awaiting (md : Bytes) (id : UInt8) (n : Nat) (s : Session) : Prop
    extends Holding md id n s where
  sendBuf : s.peer.sendBuf = [request id n]

variable {e : Env} {md : Bytes} {id : UInt8} {n : Nat} {s : Session}
  {reply : Packet → BeNode × Bytes}

/-- The request for the block that follows the whole blocks already here. -/
theorem awaiting_sendMetadataRequest (h : Holding md id n s) (hBuf : s.peer.sendBuf = [])
    (hMore : n * blockSize < md.length) : Awaiting md id n s.sendMetadataRequest := by
  have hLen : (md.take (n * blockSize)).length = n * blockSize := by
    rw [List.length_take]
    omega
  have hCode : s.peer.msgExtMetadata ≠ 0 := by
    intro h0
    have hId : id.toNat = 0 := by rw [← h.code, h0]; rfl
    exact h.id_ne (UInt8.toNat_inj.mp hId)
  have hSend : s.sendMetadataRequest =
      s.sendMetadata (Session.metadataRequest (n * blockSize)) [] := by
    unfold Session.sendMetadataRequest
    rw [h.download]
    dsimp only
    rw [hLen, if_neg]
    rintro (h0 | hEnd | hMod)
    · exact hCode h0
    · rw [h.size] at hEnd
      omega
    · exact hMod (Nat.mul_mod_left n blockSize)
  rw [hSend]
  have hId : UInt8.ofNat s.peer.msgExtMetadata.toNat = id := by
    rw [h.code, UInt8.ofNat_toNat]
  exact {
    stop := h.stop, download := h.download, downloaded := h.downloaded
    size := h.size, code := h.code, id_ne := h.id_ne
    sendBuf := by
      show s.peer.sendBuf ++ [_] = _
      rw [hBuf, hId]
      rfl }

theorem toNat_of_toInt {v : BitVec 64} {n : Nat} (h : v.toInt = n) : v.toNat = n := by
  have hNat := BitVec.toInt_eq_toNat_cond v
  split at hNat <;> omega

/-- A peer that is neither black-listed nor connected twice goes on. -/
theorem holding_connectBack (h : Holding md id n s) (hBuf : s.peer.sendBuf = [])
    (data : BeNode) :
    ∃ s', s.connectBack data .fresh = (s', true) ∧ Holding md id n s' ∧ s'.peer.sendBuf = [] := by
  unfold Session.connectBack
  dsimp only
  split
  · exact ⟨_, rfl, ⟨h.stop, h.download, h.downloaded, h.size, h.code, h.id_ne⟩, hBuf⟩
  · exact ⟨s, rfl, h, hBuf⟩

/-- The handshake starts the exchange. -/
theorem awaiting_handshake (hs : Fresh s) {data : BeNode} (hData : Announces id md data)
    (hmd : md ≠ []) (appendix : Bytes) :
    Awaiting md id 0 (s.handleExtendedMessage e .fresh msgExtHandshake data appendix) := by
  rcases hData.code with ⟨m, hM, hId⟩
  have hWidth : ((lookupInt m "ut_metadata").setWidth 32).toNat = id.toNat := by
    have hLt := id.toNat_lt
    rw [BitVec.toNat_setWidth, toNat_of_toInt hId]
    omega
  have hCode : (lookupInt m "ut_metadata").setWidth 32 ≠ 0 := by
    intro h0
    rw [h0] at hWidth
    exact hData.id_ne (UInt8.toNat_inj.mp hWidth.symm)
  have hNone : s.torrent.mdDownload = some (md.take (0 * blockSize)) := by
    rw [hs.download, Nat.zero_mul, List.take_zero]
  have hPos : 0 * blockSize < md.length := by
    have := List.length_pos_iff.mpr hmd
    omega
  unfold Session.handleExtendedMessage
  rw [if_neg (by simp [hData.dict]), if_pos rfl]
  unfold Session.handleHandshake
  rw [hM]
  dsimp only
  rw [if_neg (fun h => hCode h.2)]
  generalize hState : Session.mk _ _ = s₀
  have hHold : Holding md id 0 s₀ := by
    rw [← hState]
    exact ⟨hs.stop, hNone, hs.downloaded, toNat_of_toInt hData.size, hWidth, hData.id_ne⟩
  have hBuf : s₀.peer.sendBuf = [] := by
    rw [← hState]
    exact hs.sendBuf
  rcases holding_connectBack hHold hBuf data with ⟨s', hBack, hHold', hBuf'⟩
  rw [hBack]
  exact awaiting_sendMetadataRequest hHold' hBuf' hPos

/-- A block in its turn is handed to `appendBlock`, and the next one is asked for. -/
theorem round_eq (h : Awaiting md id n s) (hReply : Answers id md reply)
    (hIn : n * blockSize < md.length) (hLimit : (n : Int) < pieceLimit) :
    ∃ s', Holding md id n s' ∧ s'.peer.sendBuf = [] ∧
      round e reply s = (Session.appendBlock e s' (md.take (n * blockSize))
        ((md.drop (n * blockSize)).take blockSize)).sendMetadataRequest := by
  have hMsg := hReply n hIn
  rcases hMsg.piece with ⟨v, hPiece, hv⟩
  have hOffset : v.toNat * blockSize = (md.take (n * blockSize)).length := by
    rw [toNat_of_toInt hv, List.length_take]
    omega
  have hRound : round e reply s = ({ s with peer.sendBuf := [] } : Session).handleData e
      (reply (request id n)).1 (v.toNat * blockSize) (reply (request id n)).2 := by
    unfold round
    rw [h.stop, h.sendBuf]
    dsimp only
    unfold Session.handleExtendedMessage
    rw [if_neg (by simp [hMsg.dict]), if_neg (by decide), if_pos rfl]
    unfold Session.handleMetadata
    rw [hMsg.msg_type, hPiece]
    dsimp only
    rw [if_neg (by omega), if_neg (by decide), if_pos rfl]
  rw [hRound, ← hMsg.block]
  unfold Session.handleData
  rw [show ({ s with peer.sendBuf := [] } : Session).torrent.mdDownload = _ from h.download]
  dsimp only
  rw [if_pos hOffset]
  rcases hTotal : lookupInt? (reply (request id n)).1 "total_size" with _ | size
  · exact ⟨{ s with peer.sendBuf := [] },
      ⟨h.stop, h.download, h.downloaded, h.size, h.code, h.id_ne⟩, rfl, rfl⟩
  · have hSize : size.toNat = md.length := toNat_of_toInt (hMsg.total_size size hTotal)
    have hSame : s.peer.metadataSize = size := by
      apply BitVec.eq_of_toNat_eq
      rw [h.size, hSize]
    dsimp only
    rw [if_neg (fun hNe => hNe.2 hSame)]
    exact ⟨{ s with
        torrent.metadataSize := size, peer.sendBuf := [], peer.metadataSize := size },
      ⟨h.stop, h.download, h.downloaded, hSize, h.code, h.id_ne⟩, rfl, rfl⟩

theorem take_append_block (md : Bytes) (n : Nat) :
    md.take (n * blockSize) ++ (md.drop (n * blockSize)).take blockSize =
      md.take ((n + 1) * blockSize) := by
  rw [Nat.succ_mul, List.take_add]

/-- A block that is not the last leaves the exchange waiting for the next one. -/
theorem awaiting_round (h : Awaiting md id n s) (hReply : Answers id md reply)
    (hMore : (n + 1) * blockSize < md.length) (hLimit : (n : Int) < pieceLimit) :
    Awaiting md id (n + 1) (round e reply s) := by
  have hStep : (n + 1) * blockSize = n * blockSize + blockSize := Nat.succ_mul n blockSize
  have hIn : n * blockSize < md.length := by omega
  rcases round_eq (e := e) h hReply hIn hLimit with ⟨s', hs', hBuf, hRound⟩
  have hFull : ((md.drop (n * blockSize)).take blockSize).length = blockSize := by
    rw [List.length_take, List.length_drop]
    omega
  rw [hRound]
  unfold Session.appendBlock
  dsimp only
  rw [if_neg (by omega), take_append_block]
  exact awaiting_sendMetadataRequest ⟨hs'.stop, rfl, hs'.downloaded, hs'.size, hs'.code,
    hs'.id_ne⟩ hBuf hMore

/-- `SendMetadataRequest` touches nothing but the send buffer. -/
theorem torrent_sendMetadataRequest (s : Session) :
    s.sendMetadataRequest.torrent = s.torrent := by
  unfold Session.sendMetadataRequest
  split
  · rfl
  · split <;> rfl

theorem downloaded_metadataDownloaded (e : Env) (t : Torrent) (md : Bytes) :
    (Session.metadataDownloaded e t md).downloaded = t.downloaded ++ [md] := by
  unfold Session.metadataDownloaded Session.startMetadataDownload
  dsimp only
  split
  · split <;> rfl
  · rfl

/-- A short block ends the download with the whole string. -/
theorem downloaded_round_of_lt (h : Awaiting md id n s) (hReply : Answers id md reply)
    (hIn : n * blockSize < md.length) (hLast : md.length < (n + 1) * blockSize)
    (hLimit : (n : Int) < pieceLimit) :
    (round e reply s).torrent.downloaded = [md] := by
  rcases round_eq (e := e) h hReply hIn hLimit with ⟨s', hs', -, hRound⟩
  have hShort : ((md.drop (n * blockSize)).take blockSize).length < blockSize := by
    rw [List.length_take, List.length_drop]
    rw [Nat.succ_mul] at hLast
    omega
  rw [hRound, torrent_sendMetadataRequest]
  unfold Session.appendBlock
  dsimp only
  rw [if_pos hShort, downloaded_metadataDownloaded, take_append_block,
    List.take_of_length_le hLast.le]
  show s'.torrent.downloaded ++ [md] = [md]
  rw [hs'.downloaded, List.nil_append]

/-- A last block of full length does not. -/
theorem downloaded_round_of_eq (h : Awaiting md id n s) (hReply : Answers id md reply)
    (hLast : md.length = (n + 1) * blockSize) (hLimit : (n : Int) < pieceLimit) :
    (round e reply s).torrent.downloaded = [] := by
  have hStep : (n + 1) * blockSize = n * blockSize + blockSize := Nat.succ_mul n blockSize
  have hBlock : blockSize = 16384 := rfl
  rcases round_eq (e := e) h hReply (by omega) hLimit with ⟨s', hs', -, hRound⟩
  have hFull : ((md.drop (n * blockSize)).take blockSize).length = blockSize := by
    rw [List.length_take, List.length_drop]
    omega
  rw [hRound, torrent_sendMetadataRequest]
  unfold Session.appendBlock
  dsimp only
  rw [if_neg (by omega)]
  exact hs'.downloaded

/-- A block number from `pieceLimit` on is refused, though it was asked for. -/
theorem stop_round_of_le (h : Awaiting md id n s) (hReply : Answers id md reply)
    (hIn : n * blockSize < md.length) (hLimit : pieceLimit ≤ n) :
    (round e reply s).peer.stop ≠ none ∧ (round e reply s).torrent.downloaded = [] := by
  have hMsg := hReply n hIn
  rcases hMsg.piece with ⟨v, hPiece, hv⟩
  unfold round
  rw [h.stop, h.sendBuf]
  dsimp only
  unfold Session.handleExtendedMessage
  rw [if_neg (by simp [hMsg.dict]), if_neg (by decide), if_pos rfl]
  unfold Session.handleMetadata
  rw [hMsg.msg_type, hPiece]
  dsimp only
  rw [if_pos (by omega)]
  exact ⟨nofun, h.downloaded⟩

/-! ## The whole exchange -/

theorem rounds_succ (n : Nat) : rounds e reply (n + 1) s = round e reply (rounds e reply n s) :=
  Function.iterate_succ_apply' ..

theorem rounds_of_stop (h : s.peer.stop ≠ none) (n : Nat) : rounds e reply n s = s := by
  have hRound : round e reply s = s := by
    rcases Option.ne_none_iff_exists'.mp h with ⟨why, hWhy⟩
    unfold round
    rw [hWhy]
  exact Function.iterate_fixed hRound n

theorem awaiting_rounds (h : Awaiting md id 0 s) (hReply : Answers id md reply)
    (hIn : n * blockSize < md.length) (hLimit : (n : Int) ≤ pieceLimit) :
    Awaiting md id n (rounds e reply n s) := by
  induction n with
  | zero => exact h
  | succ n ih =>
    have hStep : (n + 1) * blockSize = n * blockSize + blockSize := Nat.succ_mul n blockSize
    have hPrev : Awaiting md id n (rounds e reply n s) := ih (by omega) (by omega)
    rw [rounds_succ]
    exact awaiting_round hPrev hReply hIn (by omega)

theorem downloaded_rounds_of_lt (h : Awaiting md id 0 s) (hReply : Answers id md reply)
    (hIn : n * blockSize < md.length) (hLast : md.length < (n + 1) * blockSize)
    (hLimit : (n : Int) < pieceLimit) :
    (rounds e reply (n + 1) s).torrent.downloaded = [md] := by
  rw [rounds_succ]
  exact downloaded_round_of_lt (awaiting_rounds h hReply hIn hLimit.le) hReply hIn hLast hLimit

theorem downloaded_rounds_of_eq (h : Awaiting md id 0 s) (hReply : Answers id md reply)
    (hLast : md.length = (n + 1) * blockSize) (hLimit : (n : Int) < pieceLimit) :
    (rounds e reply (n + 1) s).torrent.downloaded = [] := by
  have hStep : (n + 1) * blockSize = n * blockSize + blockSize := Nat.succ_mul n blockSize
  have hBlock : blockSize = 16384 := rfl
  rw [rounds_succ]
  exact downloaded_round_of_eq (awaiting_rounds h hReply (by omega) hLimit.le) hReply hLast hLimit

theorem downloaded_rounds_of_le (h : Awaiting md id 0 s) (hReply : Answers id md reply)
    (hIn : n * blockSize < md.length) (hLimit : pieceLimit ≤ n) :
    (rounds e reply (n + 1) s).torrent.downloaded = [] := by
  obtain ⟨m, hPiece⟩ : ∃ m : Nat, pieceLimit = m := ⟨131071, by decide⟩
  rw [hPiece] at hLimit
  have hLe : m ≤ n := by omega
  have hFar : m * blockSize < md.length := by
    have := Nat.mul_le_mul_right blockSize hLe
    omega
  have hAt : Awaiting md id m (rounds e reply m s) := awaiting_rounds h hReply hFar hPiece.ge
  have hStop := stop_round_of_le (e := e) hAt hReply hFar hPiece.le
  rw [← rounds_succ] at hStop
  obtain ⟨k, hk⟩ : ∃ k, n + 1 = k + (m + 1) := ⟨n - m, by omega⟩
  have hSplit : rounds e reply (n + 1) s = rounds e reply k (rounds e reply (m + 1) s) := by
    rw [hk]
    exact Function.iterate_add_apply ..
  rw [hSplit, rounds_of_stop hStop.1]
  exact hStop.2

/-- The messages with which lftp itself answers, when it holds `md`. -/
def serve (e : Env) (s : Session) (req : Packet) : BeNode × Bytes :=
  match req with
  | .extended _ (some d) a =>
    match (s.handleExtendedMessage e .fresh msgExtMetadata d a).peer.sendBuf.getLast? with
    | some (.extended _ (some d) a) => (d, a)
    | _ => (.dict [] [], [])
  | _ => (.dict [] [], [])

/-- The handler is a peer that answers correctly. -/
theorem answers_serve (e : Env) (h : s.torrent.metadata = some md)
    (hLimit : (md.length : Int) ≤ pieceLimit * blockSize) : Answers id md (serve e s) := by
  intro n hIn
  have hBlock : blockSize = 16384 := rfl
  have hPiece : pieceLimit = 131071 := by decide
  rw [hBlock, hPiece] at hLimit
  rw [hBlock] at hIn
  have hReq : n * blockSize / blockSize = n := Nat.mul_div_cancel n (by decide)
  have hNat : (BitVec.ofNat 64 n).toNat = n := by
    rw [BitVec.toNat_ofNat]
    omega
  have hInt : (BitVec.ofNat 64 n).toInt = n := by
    rw [BitVec.toInt_eq_toNat_of_lt (by omega), hNat]
  have hServe : serve e s (request id n) =
      (.dict [] [(bytes "msg_type", .int utMetadataData), (bytes "piece", .int (BitVec.ofNat 64 n)),
        (bytes "total_size", .int (BitVec.ofNat 64 md.length))],
        (md.drop (n * blockSize)).take blockSize) := by
    unfold serve request Session.metadataRequest Session.handleExtendedMessage
    rw [hReq]
    dsimp only
    rw [if_neg (by simp [isDict]), if_neg (by decide), if_pos rfl]
    unfold Session.handleMetadata
    rw [show lookupInt? _ "msg_type" = some utMetadataRequest from rfl,
      show lookupInt? _ "piece" = some (BitVec.ofNat 64 n) from rfl]
    dsimp only
    rw [if_neg (by omega), if_pos rfl]
    unfold Session.handleRequest
    rw [h, hNat]
    dsimp only [Option.getD_some]
    rw [if_neg (by rw [hBlock]; omega)]
    unfold Session.sendMetadata
    dsimp only
    rw [List.getLast?_concat]
  rw [hServe]
  exact {
    dict := rfl
    msg_type := rfl
    piece := ⟨_, rfl, hInt⟩
    total_size := by
      rintro v hv
      cases hv
      rw [BitVec.toInt_eq_toNat_of_lt, BitVec.toNat_ofNat]
      · omega
      · rw [BitVec.toNat_ofNat]
        omega
    block := rfl }

/-- The metadata arrives complete exactly when its last block is a short one
and none of its blocks has a number that the handler refuses. -/
theorem metadata_downloaded_iff (e : Env) (hmd : md ≠ []) (hReply : Answers id md reply)
    (hs : Fresh s) {data : BeNode} (hData : Announces id md data) (appendix : Bytes) :
    (rounds e reply (blocks md)
        (s.handleExtendedMessage e .fresh msgExtHandshake data appendix)).torrent.downloaded = [md]
      ↔ md.length % blockSize ≠ 0 ∧ ((md.length / blockSize : Nat) : Int) < pieceLimit := by
  have hStart : Awaiting md id 0 (s.handleExtendedMessage e .fresh msgExtHandshake data appendix) :=
    awaiting_handshake hs hData hmd appendix
  have hBlock : blockSize = 16384 := rfl
  have hPos : 0 < md.length := List.length_pos_iff.mpr hmd
  obtain ⟨n, hn⟩ : ∃ n, blocks md = n + 1 := by
    rw [blocks, hBlock]
    exact ⟨(md.length + 16384 - 1) / 16384 - 1, by omega⟩
  have hRange : n * blockSize < md.length ∧ md.length ≤ (n + 1) * blockSize := by
    rw [blocks, hBlock] at hn
    rw [hBlock]
    omega
  rw [hn]
  by_cases hLimit : (n : Int) < pieceLimit
  · rcases hRange.2.lt_or_eq with hLast | hLast
    · rw [downloaded_rounds_of_lt hStart hReply hRange.1 hLast hLimit]
      rw [hBlock] at hRange hLast ⊢
      have hDiv : md.length / 16384 = n := by omega
      rw [hDiv]
      exact iff_of_true rfl ⟨by omega, hLimit⟩
    · rw [downloaded_rounds_of_eq hStart hReply hLast hLimit]
      apply iff_of_false nofun
      rintro ⟨hMod, -⟩
      rw [hBlock] at hLast hMod
      omega
  · rw [downloaded_rounds_of_le hStart hReply hRange.1 (by omega)]
    apply iff_of_false nofun
    rintro ⟨-, hDiv⟩
    rw [hBlock] at hRange hDiv
    omega

/-! ## Two exchanges -/

/-- No metadata is cached, and the torrent's hash is not known beforehand. -/
def sampleEnv : Env := ⟨fun md => md.take 20, none⟩

def sampleSession (md : Option Bytes) : Session :=
  ⟨⟨md, none, some [], 0, []⟩, ⟨0, 0, 0, false, false, none, none, []⟩⟩

/-- The handshake of lftp holding `n` bytes of metadata. -/
def sampleHandshake (n : Nat) : BeNode :=
  .dict [] [(bytes "m", .dict [] [(bytes "ut_metadata", .int 2)]),
    (bytes "metadata_size", .int (BitVec.ofNat 64 n))]

theorem fresh_sampleSession : Fresh (sampleSession none) := ⟨rfl, rfl, rfl, rfl⟩

theorem announces_sampleHandshake (md : Bytes) (h : md.length < 2 ^ 63) :
    Announces 2 md (sampleHandshake md.length) := by
  have hSize : (BitVec.ofNat 64 md.length).toInt = md.length := by
    rw [BitVec.toInt_eq_toNat_of_lt, BitVec.toNat_ofNat]
    · omega
    · rw [BitVec.toNat_ofNat]
      omega
  exact ⟨rfl, by decide, ⟨_, rfl, by decide⟩, hSize⟩

theorem metadata_downloaded_short :
    (rounds sampleEnv (serve sampleEnv (sampleSession (some [1, 2, 3]))) (blocks [1, 2, 3])
        ((sampleSession none).handleExtendedMessage sampleEnv .fresh msgExtHandshake
          (sampleHandshake 3) [])).torrent.downloaded = [[1, 2, 3]] :=
  (metadata_downloaded_iff sampleEnv (by decide) (answers_serve sampleEnv rfl (by decide))
    fresh_sampleSession (announces_sampleHandshake [1, 2, 3] (by decide)) []).mpr
    ⟨by decide, by decide⟩

/-- One block of full length: the data arrives, and the download never ends. -/
theorem not_metadata_downloaded :
    (rounds sampleEnv (serve sampleEnv (sampleSession (some (List.replicate blockSize 0))))
        (blocks (List.replicate blockSize 0))
        ((sampleSession none).handleExtendedMessage sampleEnv .fresh msgExtHandshake
          (sampleHandshake blockSize) [])).torrent.downloaded ≠ [List.replicate blockSize 0] := by
  have hLen : (List.replicate blockSize (0 : UInt8)).length = blockSize := List.length_replicate
  have hBlocks : blocks (List.replicate blockSize 0) = 0 + 1 := by
    rw [blocks, hLen]
    decide
  have hData : Announces 2 (List.replicate blockSize 0) (sampleHandshake blockSize) := by
    have h := announces_sampleHandshake (List.replicate blockSize 0)
      (by rw [hLen]; decide)
    rwa [hLen] at h
  have hNonempty : List.replicate blockSize (0 : UInt8) ≠ [] := by
    intro h
    rw [h] at hLen
    cases hLen
  have hReply : Answers 2 (List.replicate blockSize 0)
      (serve sampleEnv (sampleSession (some (List.replicate blockSize 0)))) :=
    answers_serve sampleEnv rfl (by rw [hLen]; decide)
  rw [hBlocks, downloaded_rounds_of_eq (awaiting_handshake fresh_sampleSession hData hNonempty [])
    hReply (by rw [hLen]; rfl) (by decide)]
  nofun

end Lftp.Ports.TorrentMetadata
