import Lftp.Verified.BigEndian
import Lftp.Ports.Bencode
import Lftp.Ports.BitField

/-!
# The packets of the peer wire protocol

A translation of `TorrentPeer::Packet` and its subclasses: `ComputeLength`,
`Pack` and `Unpack`, with the buffer helpers they use. The `Unpack` methods
check the header against the frame length once and then read against the
buffer's size, so the model keeps a `Cursor`: the counter `unpacked` and the
spans of the buffer that were really read.

* `unpackPacket` is `TorrentPeer::UnpackPacket`.
* `inside_iff` says which buffers are decoded within their frame.
* `unpackPacket_pack` is the round trip.
-/

namespace Lftp.Ports.TorrentPacket

open Lftp.Verified
open Lftp.Ports.Bencode

/-- `packet_type`. -/
inductive PacketType where
  | keepalive | choke | unchoke | interested | uninterested | have | bitfield | request
  | piece | cancel | port | suggestPiece | haveAll | haveNone | rejectRequest
  | allowedFast | extended
deriving DecidableEq

/-- The value of the enumerator. -/
def PacketType.code : PacketType → Int
  | .keepalive => -1 | .choke => 0 | .unchoke => 1 | .interested => 2
  | .uninterested => 3 | .have => 4 | .bitfield => 5 | .request => 6 | .piece => 7
  | .cancel => 8 | .port => 9 | .suggestPiece => 13 | .haveAll => 14 | .haveNone => 15
  | .rejectRequest => 16 | .allowedFast => 17 | .extended => 20

/-- `is_valid_reply`. -/
def isValidReply (p : Int) : Bool :=
  (0 ≤ p && p ≤ PacketType.port.code)
    || (PacketType.suggestPiece.code ≤ p && p ≤ PacketType.allowedFast.code)
    || p == PacketType.extended.code

/-- `is_valid_reply(t)` and the cast `(packet_type)t` together. -/
def PacketType.ofCode : Nat → Option PacketType
  | 0 => some .choke | 1 => some .unchoke | 2 => some .interested
  | 3 => some .uninterested | 4 => some .have | 5 => some .bitfield
  | 6 => some .request | 7 => some .piece | 8 => some .cancel | 9 => some .port
  | 13 => some .suggestPiece | 14 => some .haveAll | 15 => some .haveNone
  | 16 => some .rejectRequest | 17 => some .allowedFast | 20 => some .extended
  | _ => none

/-- The packet classes. `Packet` itself serves the types without a payload. -/
inductive Packet where
  | keepalive | choke | unchoke | interested | uninterested | haveAll | haveNone
  | have (piece : UInt32)
  | suggestPiece (piece : UInt32)
  | allowedFast (piece : UInt32)
  | bitfield (bitfield : BitField)
  | request (index start reqLength : UInt32)
  | cancel (index start reqLength : UInt32)
  | rejectRequest (index start reqLength : UInt32)
  | piece (index start : UInt32) (data : Bytes)
  | port (port : UInt32)
  | extended (code : UInt8) (data : Option BeNode) (appendix : Bytes)

namespace Packet

/-- The member `type`. -/
def packetType : Packet → PacketType
  | .keepalive => .keepalive | .choke => .choke | .unchoke => .unchoke
  | .interested => .interested | .uninterested => .uninterested
  | .haveAll => .haveAll | .haveNone => .haveNone
  | .have _ => .have | .suggestPiece _ => .suggestPiece | .allowedFast _ => .allowedFast
  | .bitfield _ => .bitfield | .request .. => .request | .cancel .. => .cancel
  | .rejectRequest .. => .rejectRequest | .piece .. => .piece | .port _ => .port
  | .extended .. => .extended

/-- `Packet::ComputeLength`: `length=(type>=0)`. -/
def baseLength (p : Packet) : Nat := if 0 ≤ p.packetType.code then 1 else 0

/-- What each subclass adds to `length`. -/
def bodyLength : Packet → Nat
  | .have _ | .suggestPiece _ | .allowedFast _ => 4
  | .bitfield bf => bf.bytes.length
  | .request .. | .cancel .. | .rejectRequest .. => 12
  | .piece _ _ data => 8 + data.length
  | .port _ => 2
  | .extended _ data appendix =>
    1 + (match data with | some d => computeLength d | none => 0) + appendix.length
  | _ => 0

/-- `ComputeLength`. The constructors and `SetAppendix` leave the same sum in
the member `length`. -/
def computeLength (p : Packet) : Nat := p.baseLength + p.bodyLength

end Packet

/-! ## Packing -/

/-- `Buffer::PackUINT32BE`. -/
def packUINT32BE (data : Nat) : Bytes := beBytes 4 data

/-- `Buffer::PackUINT16BE`. -/
def packUINT16BE (data : Nat) : Bytes := beBytes 2 data

/-- `Buffer::PackUINT8`. -/
def packUINT8 (data : Nat) : Bytes := beBytes 1 data

/-- `Packet::Pack`. -/
def packHeader (p : Packet) : Bytes :=
  packUINT32BE p.computeLength ++
    if 0 ≤ p.packetType.code then packUINT8 p.packetType.code.toNat else []

/-- What each subclass packs after `Packet::Pack`. -/
def packBody : Packet → Bytes
  | .have piece | .suggestPiece piece | .allowedFast piece => packUINT32BE piece.toNat
  | .bitfield bf => bf.bytes
  | .request index start reqLength | .cancel index start reqLength
  | .rejectRequest index start reqLength =>
    packUINT32BE index.toNat ++ packUINT32BE start.toNat ++ packUINT32BE reqLength.toNat
  | .piece index start data =>
    packUINT32BE index.toNat ++ packUINT32BE start.toNat ++ data
  | .port port => packUINT16BE port.toNat
  | .extended code data appendix =>
    packUINT8 code.toNat ++ (match data with | some d => pack d | none => []) ++ appendix
  | _ => []

/-- `Pack`. -/
def packPacket (p : Packet) : Bytes := packHeader p ++ packBody p

/-! ## Unpacking -/

/-- The receive buffer: its contents and the end-of-file mark. -/
structure RecvBuf where
  data : Bytes
  eof : Bool

/-- How unpacking ends without a packet. The last case is not a status of the
code: the copy of a negative number of bytes is undefined. -/
inductive Stop where
  | wrongFormat | prematureEof | noDataYet | fault
deriving DecidableEq

/-- `b->Eof()?UNPACK_PREMATURE_EOF:UNPACK_NO_DATA_YET`. -/
def starved (b : RecvBuf) : Stop := if b.eof then .prematureEof else .noDataYet

/-- The member `unpacked`, and the spans `(offset, count)` read so far. -/
structure Cursor where
  unpacked : Nat
  reads : List (Nat × Nat)
deriving DecidableEq

/-- `b->UnpackUINTnBE(unpacked); unpacked+=n;` with `n` in bytes. A buffer that
is too short yields zero. -/
def fetch (n : Nat) (b : RecvBuf) (c : Cursor) : Nat × Cursor :=
  if b.data.length < c.unpacked + n then (0, { c with unpacked := c.unpacked + n })
  else
    (be ((b.data.drop c.unpacked).take n),
      { unpacked := c.unpacked + n, reads := c.reads ++ [(c.unpacked, n)] })

/-- What `Packet::Unpack` leaves in the packet. -/
structure Header where
  length : Nat
  type : PacketType
  cursor : Cursor

/-- `Packet::Unpack`. -/
def unpackHeader (b : RecvBuf) : Except Stop Header :=
  if b.data.length < 4 then .error (starved b)
  else
    let (raw, c) := fetch 4 b ⟨0, []⟩
    let length : Int := (raw : Int).bmod (2 ^ 32)
    if length = 0 then .ok ⟨0, .keepalive, c⟩
    else if length < 0 ∨ length > 1024 * 1024 then .error .wrongFormat
    else if (b.data.length : Int) < length + 4 then .error (starved b)
    else
      let (t, c) := fetch 1 b c
      match PacketType.ofCode t with
      | none => .error .wrongFormat
      | some type => .ok ⟨length.toNat, type, c⟩

/-- A packet with its members `length` and `unpacked`. -/
structure Unpacked where
  packet : Packet
  length : Nat
  cursor : Cursor

/-- `_PacketPiece::Unpack` after the header. -/
def unpackPieceNo (mk : UInt32 → Packet) (b : RecvBuf) (h : Header) : Unpacked :=
  let (piece, c) := fetch 4 b h.cursor
  ⟨mk (.ofNat piece), h.length, c⟩

/-- `_PacketIBL::Unpack` after the header. -/
def unpackIBL (mk : UInt32 → UInt32 → UInt32 → Packet) (b : RecvBuf) (h : Header) :
    Unpacked :=
  let (index, c) := fetch 4 b h.cursor
  let (start, c) := fetch 4 b c
  let (reqLength, c) := fetch 4 b c
  ⟨mk (.ofNat index) (.ofNat start) (.ofNat reqLength), h.length, c⟩

/-- `PacketPort::Unpack` after the header. -/
def unpackPort (b : RecvBuf) (h : Header) : Unpacked :=
  let (port, c) := fetch 2 b h.cursor
  ⟨.port (.ofNat port), h.length, c⟩

/-- The copy of the `length+4-unpacked` bytes up to the end of the frame. -/
def takeRest (b : RecvBuf) (length : Nat) (c : Cursor) : Bytes × Cursor :=
  let bytes := length + 4 - c.unpacked
  ((b.data.drop c.unpacked).take bytes,
    { unpacked := c.unpacked + bytes, reads := c.reads ++ [(c.unpacked, bytes)] })

/-- `PacketBitField::Unpack` after the header. -/
def unpackBitField (b : RecvBuf) (h : Header) : Unpacked :=
  let (bytes, c) := takeRest b h.length h.cursor
  ⟨.bitfield (.ofBytes bytes), h.length, c⟩

/-- `PacketPiece::Unpack` after the header. -/
def unpackPiece (b : RecvBuf) (h : Header) : Except Stop Unpacked :=
  let (index, c) := fetch 4 b h.cursor
  let (start, c) := fetch 4 b c
  if h.length + 4 < c.unpacked then .error .fault
  else
    let (data, c) := takeRest b h.length c
    .ok ⟨.piece (.ofNat index) (.ofNat start) data, h.length, c⟩

/-- `UnpackBencoded`. -/
def unpackBencoded (b : RecvBuf) (c : Cursor) (limit : Nat) :
    Except Stop (BeNode × Cursor) :=
  let rest0 := limit - c.unpacked
  match parse ((b.data.drop c.unpacked).take rest0) with
  | (none, rest) => .error (if 0 < rest then .wrongFormat else starved b)
  | (some out, rest) =>
    .ok (out, { unpacked := c.unpacked + (rest0 - rest),
                reads := c.reads ++ [(c.unpacked, rest0)] })

/-- `PacketExtended::Unpack` after the header. -/
def unpackExtended (b : RecvBuf) (h : Header) : Except Stop Unpacked :=
  let (code, c) := fetch 1 b h.cursor
  match unpackBencoded b c (h.length + 4) with
  | .error e => .error e
  | .ok (data, c) =>
    if c.unpacked < h.length + 4 then
      let (appendix, c) := takeRest b h.length c
      .ok ⟨.extended (.ofNat code) (some data) appendix, h.length, c⟩
    else .ok ⟨.extended (.ofNat code) (some data) [], h.length, c⟩

/-- The dispatch of `UnpackPacket`. Each subclass unpacks the header again, with
the result the probe had. -/
def unpackBody (b : RecvBuf) (h : Header) : Except Stop Unpacked :=
  match h.type with
  | .keepalive => .ok ⟨.keepalive, h.length, h.cursor⟩
  | .choke => .ok ⟨.choke, h.length, h.cursor⟩
  | .unchoke => .ok ⟨.unchoke, h.length, h.cursor⟩
  | .interested => .ok ⟨.interested, h.length, h.cursor⟩
  | .uninterested => .ok ⟨.uninterested, h.length, h.cursor⟩
  | .haveAll => .ok ⟨.haveAll, h.length, h.cursor⟩
  | .haveNone => .ok ⟨.haveNone, h.length, h.cursor⟩
  | .have => .ok (unpackPieceNo .have b h)
  | .bitfield => .ok (unpackBitField b h)
  | .request => .ok (unpackIBL .request b h)
  | .piece => unpackPiece b h
  | .cancel => .ok (unpackIBL .cancel b h)
  | .port => .ok (unpackPort b h)
  | .suggestPiece => .ok (unpackPieceNo .suggestPiece b h)
  | .allowedFast => .ok (unpackPieceNo .allowedFast b h)
  | .rejectRequest => .ok (unpackIBL .rejectRequest b h)
  | .extended => unpackExtended b h

/-- `TorrentPeer::UnpackPacket`. -/
def unpackPacket (b : RecvBuf) : Except Stop Unpacked :=
  match unpackHeader b with
  | .error e => .error e
  | .ok h => unpackBody b h

/-- `Packet::DropData`. -/
def dropData (b : RecvBuf) (u : Unpacked) : RecvBuf :=
  { b with data := b.data.drop (4 + u.length) }

/-! ## The cursor -/

/-- Nothing at or past `n` has been read or counted. -/
structure Cursor.Within (c : Cursor) (n : Nat) : Prop where
  unpacked : c.unpacked ≤ n
  reads : ∀ r ∈ c.reads, r.1 + r.2 ≤ n

@[simp] theorem fetch_unpacked (n : Nat) (b : RecvBuf) (c : Cursor) :
    (fetch n b c).2.unpacked = c.unpacked + n := by
  unfold fetch
  split <;> rfl

theorem Cursor.Within.span {c : Cursor} {n k : Nat} (h : c.Within n)
    (hRoom : c.unpacked + k ≤ n) :
    Cursor.Within ⟨c.unpacked + k, c.reads ++ [(c.unpacked, k)]⟩ n := by
  refine ⟨hRoom, fun r hr => ?_⟩
  rw [List.mem_append, List.mem_singleton] at hr
  rcases hr with hr | rfl
  · exact h.reads r hr
  · exact hRoom

theorem Cursor.Within.fetch {c : Cursor} {n k : Nat} (h : c.Within n)
    (hRoom : c.unpacked + k ≤ n) (b : RecvBuf) : (fetch k b c).2.Within n := by
  unfold TorrentPacket.fetch
  split
  · exact ⟨hRoom, h.reads⟩
  · exact h.span hRoom

theorem Cursor.Within.takeRest {c : Cursor} {length : Nat} (h : c.Within (4 + length))
    (b : RecvBuf) : (takeRest b length c).2.Within (4 + length) := by
  have hle := h.unpacked
  exact h.span (by omega)

/-! ## The header -/

/-- The length field and the type byte of the first frame in the buffer. -/
def frameLength (b : RecvBuf) : Nat := be (b.data.take 4)

def typeByte (b : RecvBuf) : Nat := be ((b.data.drop 4).take 1)

theorem frameLength_lt (b : RecvBuf) : frameLength b < 2 ^ 32 := by
  refine Nat.lt_of_lt_of_le (be_lt _) ?_
  calc 256 ^ (b.data.take 4).length ≤ 256 ^ 4 :=
        Nat.pow_le_pow_right (by decide) (List.length_take_le ..)
    _ = 2 ^ 32 := by decide

/-- The header of a complete frame. -/
structure Complete (b : RecvBuf) (h : Header) : Prop where
  pos : 1 ≤ h.length
  max : h.length ≤ 1024 * 1024
  room : h.length + 4 ≤ b.data.length
  length_eq : frameLength b = h.length
  type_eq : PacketType.ofCode (typeByte b) = some h.type
  cursor_eq : h.cursor = ⟨5, [(0, 4), (4, 1)]⟩

theorem bmod_eq_zero_iff {n : Nat} (hn : n < 2 ^ 32) :
    (n : Int).bmod (2 ^ 32) = 0 ↔ n = 0 := by
  rw [Int.bmod_def]
  split <;> omega

theorem bmod_in_range_iff {n : Nat} (hn : n < 2 ^ 32) :
    (¬ ((n : Int).bmod (2 ^ 32) < 0 ∨ (n : Int).bmod (2 ^ 32) > 1024 * 1024)) ↔
      n ≤ 1024 * 1024 := by
  rw [Int.bmod_def]
  split <;> omega

theorem bmod_of_le {n : Nat} (hn : n ≤ 1024 * 1024) : (n : Int).bmod (2 ^ 32) = n :=
  Int.bmod_eq_of_le (by omega) (by omega)

theorem fetch_four {b : RecvBuf} (hSize : 4 ≤ b.data.length) :
    fetch 4 b ⟨0, []⟩ = (frameLength b, ⟨4, [(0, 4)]⟩) := by
  have hNot : ¬ b.data.length < 0 + 4 := by omega
  simp only [fetch, if_neg hNot, List.drop_zero, frameLength, List.nil_append, Nat.zero_add]

theorem fetch_type {b : RecvBuf} (hSize : 5 ≤ b.data.length) :
    fetch 1 b ⟨4, [(0, 4)]⟩ = (typeByte b, ⟨5, [(0, 4), (4, 1)]⟩) := by
  have hNot : ¬ b.data.length < 4 + 1 := by omega
  simp only [fetch, if_neg hNot, typeByte, List.cons_append, List.nil_append]

theorem unpackHeader_of_long {b : RecvBuf} (hSize : 4 ≤ b.data.length)
    (hLong : 1024 * 1024 < frameLength b) : unpackHeader b = .error .wrongFormat := by
  have hlt := frameLength_lt b
  have hNonzero : ¬ (frameLength b : Int).bmod (2 ^ 32) = 0 := by
    rw [bmod_eq_zero_iff hlt]
    omega
  have hRange : (frameLength b : Int).bmod (2 ^ 32) < 0 ∨
      (frameLength b : Int).bmod (2 ^ 32) > 1024 * 1024 := by
    by_contra hc
    rw [bmod_in_range_iff hlt] at hc
    omega
  unfold unpackHeader
  rw [if_neg (Nat.not_lt.mpr hSize), fetch_four hSize]
  dsimp only
  rw [if_neg hNonzero, if_pos hRange]

/-- A header is unpacked from a keep-alive or from a complete frame. -/
theorem unpackHeader_eq_ok_iff (b : RecvBuf) (h : Header) :
    unpackHeader b = .ok h ↔
      (4 ≤ b.data.length ∧ frameLength b = 0 ∧ h = ⟨0, .keepalive, ⟨4, [(0, 4)]⟩⟩) ∨
        Complete b h := by
  have hlt := frameLength_lt b
  unfold unpackHeader
  by_cases hSize : b.data.length < 4
  · rw [if_pos hSize]
    refine ⟨fun hErr => (by cases hErr), ?_⟩
    rintro (hKeep | hFull)
    · omega
    · have := hFull.room
      omega
  rw [if_neg hSize, fetch_four (by omega)]
  dsimp only
  by_cases hZero : frameLength b = 0
  · rw [if_pos ((bmod_eq_zero_iff hlt).mpr hZero), Except.ok.injEq]
    refine ⟨fun he => .inl ⟨by omega, hZero, he.symm⟩, ?_⟩
    rintro (hKeep | hFull)
    · exact hKeep.2.2.symm
    · have hpos := hFull.pos
      have heq := hFull.length_eq
      omega
  rw [if_neg (mt (bmod_eq_zero_iff hlt).mp hZero)]
  by_cases hMax : frameLength b ≤ 1024 * 1024
  swap
  · rw [if_pos (by_contra fun hc => hMax ((bmod_in_range_iff hlt).mp hc))]
    refine ⟨fun hErr => (by cases hErr), ?_⟩
    rintro (hKeep | hFull)
    · exact absurd hKeep.2.1 hZero
    · exact absurd (hFull.length_eq ▸ hFull.max) hMax
  rw [if_neg ((bmod_in_range_iff hlt).mpr hMax), bmod_of_le hMax]
  by_cases hRoom : (b.data.length : Int) < frameLength b + 4
  · rw [if_pos hRoom]
    refine ⟨fun hErr => (by cases hErr), ?_⟩
    rintro (hKeep | hFull)
    · exact absurd hKeep.2.1 hZero
    · have hroom := hFull.room
      have heq := hFull.length_eq
      omega
  rw [if_neg hRoom, fetch_type (by omega)]
  dsimp only
  constructor
  · intro hOk
    split at hOk
    · cases hOk
    · next type hType =>
      cases hOk
      exact .inr
        { pos := by simp only [Int.toNat_natCast]; omega
          max := by simpa only [Int.toNat_natCast] using hMax
          room := by simp only [Int.toNat_natCast]; omega
          length_eq := (Int.toNat_natCast _).symm
          type_eq := hType
          cursor_eq := rfl }
  · rintro (hKeep | hFull)
    · exact absurd hKeep.2.1 hZero
    · obtain ⟨length, type, cursor⟩ := h
      simp only [hFull.type_eq, Int.toNat_natCast, hFull.length_eq, ← hFull.cursor_eq]

/-! ## Which buffers are decoded inside their frame -/

/-- A packet decoded inside its frame: nothing behind the frame was read or
counted, and the data of a piece fills what the fixed fields leave. -/
structure Inside (u : Unpacked) : Prop where
  reads : ∀ r ∈ u.cursor.reads, r.1 + r.2 ≤ 4 + u.length
  unpacked : u.cursor.unpacked ≤ 4 + u.length
  piece : ∀ index start data, u.packet = .piece index start data →
    data.length + 9 = u.length

/-- Unpacking stays defined, and what it returns was decoded inside its frame. -/
def DecodesInside (b : RecvBuf) : Prop :=
  unpackPacket b ≠ .error .fault ∧ ∀ u, unpackPacket b = .ok u → Inside u

/-- The length a frame needs for the type byte and the fixed fields that the
packet class reads unconditionally. An extended packet too short for its code
byte never unpacks, so it needs no more than its type. -/
def fixedLength : PacketType → Nat
  | .keepalive => 0
  | .have | .suggestPiece | .allowedFast => 5
  | .request | .cancel | .rejectRequest => 13
  | .piece => 9
  | .port => 3
  | _ => 1

/-- If the buffer starts with a complete frame of a known type, then the frame
is long enough for the fixed fields of that type. -/
def LongEnough (b : RecvBuf) : Prop :=
  ∀ type, 1 ≤ frameLength b → frameLength b ≤ 1024 * 1024 →
    frameLength b + 4 ≤ b.data.length → PacketType.ofCode (typeByte b) = some type →
    fixedLength type ≤ frameLength b

theorem Cursor.Within.inside {u : Unpacked} (h : u.cursor.Within (4 + u.length))
    (hOther : ∀ index start data, u.packet ≠ .piece index start data) : Inside u where
  reads := h.reads
  unpacked := h.unpacked
  piece := fun index start data he => absurd he (hOther index start data)

theorem Complete.within {b : RecvBuf} {h : Header} (hFull : Complete b h) :
    h.cursor.Within (4 + h.length) := by
  have hpos := hFull.pos
  rw [hFull.cursor_eq]
  refine ⟨by dsimp only; omega, fun r hr => ?_⟩
  simp only [List.mem_cons, List.not_mem_nil, or_false] at hr
  rcases hr with rfl | rfl <;> dsimp only <;> omega

theorem Complete.unpacked {b : RecvBuf} {h : Header} (hFull : Complete b h) :
    h.cursor.unpacked = 5 := by
  rw [hFull.cursor_eq]

/-! One lemma for each shape of packet. -/

variable {b : RecvBuf} {h : Header}

theorem inside_header_only (hFull : Complete b h) {p : Packet}
    (hOther : ∀ index start data, p ≠ .piece index start data) :
    Inside ⟨p, h.length, h.cursor⟩ :=
  Cursor.Within.inside (u := ⟨p, h.length, h.cursor⟩) hFull.within hOther

theorem inside_unpackPieceNo_iff (hFull : Complete b h) {mk : UInt32 → Packet}
    (hOther : ∀ n index start data, mk n ≠ .piece index start data) :
    Inside (unpackPieceNo mk b h) ↔ 5 ≤ h.length := by
  constructor
  · intro hIn
    have hle := hIn.unpacked
    simp only [unpackPieceNo, fetch_unpacked, hFull.unpacked] at hle
    omega
  · intro hLong
    refine Cursor.Within.inside ?_ (hOther _)
    exact hFull.within.fetch (by rw [hFull.unpacked]; omega) b

theorem inside_unpackIBL_iff (hFull : Complete b h)
    {mk : UInt32 → UInt32 → UInt32 → Packet}
    (hOther : ∀ i s l index start data, mk i s l ≠ .piece index start data) :
    Inside (unpackIBL mk b h) ↔ 13 ≤ h.length := by
  constructor
  · intro hIn
    have hle := hIn.unpacked
    simp only [unpackIBL, fetch_unpacked, hFull.unpacked] at hle
    omega
  · intro hLong
    have hPos := hFull.unpacked
    have hIndex := fetch_unpacked 4 b h.cursor
    have hStart := fetch_unpacked 4 b (fetch 4 b h.cursor).2
    refine Cursor.Within.inside ?_ (hOther _ _ _)
    exact ((hFull.within.fetch (by omega) b).fetch (by omega) b).fetch (by omega) b

theorem inside_unpackPort_iff (hFull : Complete b h) :
    Inside (unpackPort b h) ↔ 3 ≤ h.length := by
  constructor
  · intro hIn
    have hle := hIn.unpacked
    simp only [unpackPort, fetch_unpacked, hFull.unpacked] at hle
    omega
  · intro hLong
    refine Cursor.Within.inside ?_ (by simp [unpackPort])
    exact hFull.within.fetch (by rw [hFull.unpacked]; omega) b

theorem inside_unpackBitField (hFull : Complete b h) : Inside (unpackBitField b h) := by
  refine Cursor.Within.inside ?_ (by simp [unpackBitField])
  exact hFull.within.takeRest b

/-- A piece is unpacked inside its frame, or its byte count is negative. -/
theorem unpackPiece_spec (hFull : Complete b h) :
    if 9 ≤ h.length then ∃ u, unpackPiece b h = .ok u ∧ Inside u
    else unpackPiece b h = .error .fault := by
  have hPos := hFull.unpacked
  have hRoom := hFull.room
  unfold unpackPiece
  simp only [fetch_unpacked, hPos]
  split
  · next hLong =>
    rw [if_neg (by omega)]
    refine ⟨_, rfl, ?_⟩
    have hIndex := fetch_unpacked 4 b h.cursor
    have hIn : ((fetch 4 b (fetch 4 b h.cursor).2).2).Within (4 + h.length) :=
      (hFull.within.fetch (by omega) b).fetch (by omega) b
    refine ⟨(hIn.takeRest b).reads, (hIn.takeRest b).unpacked, ?_⟩
    intro index start data he
    simp only [Packet.piece.injEq] at he
    rw [← he.2.2]
    simp only [takeRest, fetch_unpacked, hPos, List.length_take, List.length_drop]
    omega
  · next hShort => rw [if_pos (by omega)]

theorem starved_ne_fault (b : RecvBuf) : starved b ≠ .fault := by
  unfold starved
  split <;> simp

/-- The dictionary ends inside the frame, for it is parsed from the frame. -/
theorem unpackBencoded_spec {c : Cursor} {limit : Nat} (hIn : c.Within limit) :
    unpackBencoded b c limit ≠ .error .fault ∧
      ∀ data c', unpackBencoded b c limit = .ok (data, c') → c'.Within limit := by
  unfold unpackBencoded
  dsimp only
  split
  · refine ⟨?_, fun data c' he => by cases he⟩
    simp only [ne_eq, Except.error.injEq]
    split
    · simp
    · exact starved_ne_fault b
  · next data rest hParse =>
    refine ⟨by simp, fun data' c' he => ?_⟩
    simp only [Except.ok.injEq, Prod.mk.injEq] at he
    have hRest := rest_lt hParse
    rw [List.length_take] at hRest
    have hle := hIn.unpacked
    rw [← he.2]
    refine ⟨by dsimp only; omega, fun r hr => ?_⟩
    rw [List.mem_append, List.mem_singleton] at hr
    rcases hr with hr | rfl
    · exact hIn.reads r hr
    · dsimp only
      omega

/-- An extended packet of a one-byte frame reads its code behind the frame, and
is refused for having no dictionary. -/
theorem unpackExtended_spec (hFull : Complete b h) :
    unpackExtended b h ≠ .error .fault ∧ ∀ u, unpackExtended b h = .ok u → Inside u := by
  have hPos := hFull.unpacked
  have hCode := fetch_unpacked 1 b h.cursor
  unfold unpackExtended
  dsimp only
  by_cases hLong : 2 ≤ h.length
  · have hIn := hFull.within.fetch (k := 1) (by omega) b
    rw [Nat.add_comm] at hIn
    obtain ⟨hFault, hData⟩ := unpackBencoded_spec (b := b) hIn
    cases hOut : unpackBencoded b (fetch 1 b h.cursor).2 (h.length + 4) with
    | error e =>
        rw [hOut] at hFault
        exact ⟨by simpa using hFault, fun u hu => by cases hu⟩
    | ok out =>
        obtain ⟨data, c⟩ := out
        have hc := hData data c hOut
        rw [Nat.add_comm] at hc
        dsimp only
        split
        · refine ⟨by simp, fun u hu => ?_⟩
          cases hu
          exact Cursor.Within.inside (hc.takeRest b) (by simp)
        · refine ⟨by simp, fun u hu => ?_⟩
          cases hu
          exact Cursor.Within.inside hc (by simp)
  · have hEmpty : h.length + 4 - (fetch 1 b h.cursor).2.unpacked = 0 := by omega
    have hNone : parse [] = (none, 0) := rfl
    simp only [unpackBencoded, hEmpty, List.take_zero, hNone]
    refine ⟨?_, fun u hu => by cases hu⟩
    simpa using starved_ne_fault b

/-- The dispatch: the body of a complete frame is decoded inside the frame exactly
when the frame holds the fixed fields of its type. -/
theorem unpackBody_iff (hFull : Complete b h) :
    (unpackBody b h ≠ .error .fault ∧ ∀ u, unpackBody b h = .ok u → Inside u) ↔
      fixedLength h.type ≤ h.length := by
  have hpos := hFull.pos
  -- A body that always unpacks contributes its own lemma.
  have hOk : ∀ {p : Unpacked} {n : Nat}, unpackBody b h = .ok p → (Inside p ↔ n ≤ h.length) →
      ((unpackBody b h ≠ .error .fault ∧ ∀ u, unpackBody b h = .ok u → Inside u) ↔
        n ≤ h.length) := by
    intro p n hBody hIff
    rw [hBody, ← hIff]
    constructor
    · exact fun hIn => hIn.2 p rfl
    · intro hIn
      refine ⟨by simp, fun u hu => ?_⟩
      cases hu
      exact hIn
  have hBare : ∀ p : Packet, (∀ index start data, p ≠ .piece index start data) →
      (Inside ⟨p, h.length, h.cursor⟩ ↔ 1 ≤ h.length) := fun p hOther =>
    iff_of_true (inside_header_only hFull hOther) hpos
  cases hType : h.type with
  | keepalive =>
      have hByte := hFull.type_eq
      rw [hType] at hByte
      unfold PacketType.ofCode at hByte
      split at hByte <;> cases hByte
  | choke | unchoke | interested | uninterested | haveAll | haveNone =>
      exact hOk (by rw [unpackBody, hType]) (hBare _ (by simp))
  | «have» =>
      exact hOk (by rw [unpackBody, hType]) (inside_unpackPieceNo_iff hFull (by simp))
  | suggestPiece =>
      exact hOk (by rw [unpackBody, hType]) (inside_unpackPieceNo_iff hFull (by simp))
  | allowedFast =>
      exact hOk (by rw [unpackBody, hType]) (inside_unpackPieceNo_iff hFull (by simp))
  | bitfield =>
      exact hOk (by rw [unpackBody, hType]) (iff_of_true (inside_unpackBitField hFull) hpos)
  | request =>
      exact hOk (by rw [unpackBody, hType]) (inside_unpackIBL_iff hFull (by simp))
  | cancel =>
      exact hOk (by rw [unpackBody, hType]) (inside_unpackIBL_iff hFull (by simp))
  | rejectRequest =>
      exact hOk (by rw [unpackBody, hType]) (inside_unpackIBL_iff hFull (by simp))
  | port =>
      exact hOk (by rw [unpackBody, hType]) (inside_unpackPort_iff hFull)
  | piece =>
      have hPiece := unpackPiece_spec hFull
      have hBody : unpackBody b h = unpackPiece b h := by rw [unpackBody, hType]
      by_cases hLong : 9 ≤ h.length
      · rw [if_pos hLong] at hPiece
        obtain ⟨u, hu, hIn⟩ := hPiece
        exact hOk (hBody.trans hu) (iff_of_true hIn hLong)
      · rw [if_neg hLong] at hPiece
        rw [hBody, hPiece]
        simp [fixedLength, hLong]
  | extended =>
      have hBody : unpackBody b h = unpackExtended b h := by rw [unpackBody, hType]
      rw [hBody]
      exact iff_of_true (unpackExtended_spec hFull) hpos

theorem unpackHeader_ne_fault (b : RecvBuf) : unpackHeader b ≠ .error .fault := by
  have hStarved := starved_ne_fault b
  unfold unpackHeader
  repeat' first | split | dsimp only
  all_goals simp [hStarved]

/-- Exactly the buffers that do not start with a complete frame too short for its
type are decoded inside the frame. -/
theorem decodesInside_iff (b : RecvBuf) : DecodesInside b ↔ LongEnough b := by
  unfold DecodesInside unpackPacket
  cases hHead : unpackHeader b with
  | error e =>
      refine iff_of_true ⟨?_, fun u hu => by cases hu⟩ ?_
      · intro he
        cases he
        exact unpackHeader_ne_fault b hHead
      · intro type hpos hmax hroom hType
        have hOk := (unpackHeader_eq_ok_iff b ⟨frameLength b, type, ⟨5, [(0, 4), (4, 1)]⟩⟩).mpr
          (.inr ⟨hpos, hmax, hroom, rfl, hType, rfl⟩)
        rw [hHead] at hOk
        cases hOk
  | ok h =>
      rcases (unpackHeader_eq_ok_iff b h).mp hHead with ⟨hSize, hZero, rfl⟩ | hFull
      · refine iff_of_true ⟨by simp [unpackBody], fun u hu => ?_⟩ ?_
        · cases hu
          exact ⟨by simp, by simp, by simp⟩
        · intro type hpos
          omega
      · dsimp only
        rw [unpackBody_iff hFull]
        constructor
        · intro hLong type hpos hmax hroom hType
          rw [hFull.type_eq, Option.some.injEq] at hType
          rw [hFull.length_eq, ← hType]
          exact hLong
        · intro hLong
          have heq := hFull.length_eq
          have hlen := hLong h.type (heq ▸ hFull.pos) (heq ▸ hFull.max) (heq ▸ hFull.room)
            hFull.type_eq
          rwa [heq] at hlen

/-- A "have" whose frame is one byte long: the piece number is not in the frame. -/
def shortHave : RecvBuf := ⟨[0, 0, 0, 1, 4], false⟩

theorem not_decodesInside_shortHave :
    ¬ ∀ b : RecvBuf, unpackPacket b ≠ .error .fault ∧
      ∀ u, unpackPacket b = .ok u → Inside u := by
  intro hAll
  have hIn := (hAll shortHave).2 _ rfl
  exact absurd hIn.unpacked (by decide)

/-! ## The bytes written -/

/-- What a peer sends: a port is a UDP port, and the data of an extended packet is
a dictionary. -/
def Packet.Sendable : Packet → Prop
  | .port n => n.toNat < 2 ^ 16
  | .extended _ data _ => ∃ raw d, data = some (.dict raw d) ∧ BeNode.WellKeyed (.dict raw d)
  | _ => True

/-- Packets with the same type and the same fields. -/
inductive Packet.Same : Packet → Packet → Prop
  | refl (p : Packet) : Same p p
  | bitfield {bf bf' : BitField} (bytes : bf.bytes = bf'.bytes) :
      Same (.bitfield bf) (.bitfield bf')
  | extended {d d' : BeNode} (data : BeNode.Same d d') (code : UInt8) (appendix : Bytes) :
      Same (.extended code (some d) appendix) (.extended code (some d') appendix)

theorem Packet.Same.packetType {p q : Packet} (h : Same p q) :
    q.packetType = p.packetType := by
  cases h <;> rfl

theorem length_packHeader (p : Packet) : (packHeader p).length = 4 + p.baseLength := by
  unfold packHeader Packet.baseLength
  split <;> simp [packUINT32BE, packUINT8]

theorem length_packBody {p : Packet} (hp : p.Sendable) :
    (packBody p).length = p.bodyLength := by
  cases p with
  | extended code data appendix =>
      obtain ⟨raw, d, rfl, hKeys⟩ := hp
      simp only [packBody, Packet.bodyLength, packUINT8, List.length_append, length_beBytes,
        computeLength_eq hKeys]
  | _ => simp [packBody, Packet.bodyLength, packUINT32BE, packUINT16BE] <;> omega

theorem length_packPacket {p : Packet} (hp : p.Sendable) :
    (packPacket p).length = 4 + p.computeLength := by
  rw [packPacket, List.length_append, length_packHeader, length_packBody hp,
    Packet.computeLength, Nat.add_assoc]

/-! ## Reading the bytes back -/

/-- What the cursor still has before it. -/
def Ahead (b : RecvBuf) (c : Cursor) (s : Bytes) : Prop := b.data.drop c.unpacked = s

theorem Ahead.fetch {b : RecvBuf} {c : Cursor} {n v : Nat} {s : Bytes}
    (h : Ahead b c (beBytes n v ++ s)) (hWidth : 0 < n) (hVal : v < 256 ^ n) :
    (fetch n b c).1 = v ∧ Ahead b (fetch n b c).2 s := by
  have hLen := congrArg List.length h
  rw [List.length_drop, List.length_append, length_beBytes] at hLen
  have hRoom : ¬ b.data.length < c.unpacked + n := by omega
  rw [TorrentPacket.fetch, if_neg hRoom]
  refine ⟨?_, ?_⟩
  · dsimp only
    rw [h, List.take_left' (length_beBytes n v), be_beBytes hVal]
  · simp only [Ahead, ← List.drop_drop, show b.data.drop c.unpacked = _ from h,
      List.drop_left' (length_beBytes n v)]

theorem Ahead.takeRest {b : RecvBuf} {c : Cursor} {mid s : Bytes}
    (h : Ahead b c (mid ++ s)) (length : Nat) (hLen : c.unpacked + mid.length = length + 4) :
    (takeRest b length c).1 = mid ∧ (takeRest b length c).2.unpacked = length + 4 := by
  have hBytes : length + 4 - c.unpacked = mid.length := by omega
  simp only [TorrentPacket.takeRest, hBytes, show b.data.drop c.unpacked = _ from h,
    List.take_left, hLen, and_self]

/-- The header of a packet of an allowed length is read as it was written. -/
theorem complete_packPacket {p : Packet} (hp : p.Sendable)
    (hType : p.packetType ≠ .keepalive) (hMax : p.computeLength ≤ 1024 * 1024)
    (r : Bytes) (eof : Bool) :
    Complete ⟨packPacket p ++ r, eof⟩
      ⟨p.computeLength, p.packetType, ⟨5, [(0, 4), (4, 1)]⟩⟩ := by
  have hCode : 0 ≤ p.packetType.code := by
    cases hCase : p.packetType <;> first | exact absurd hCase hType | decide
  have hBase : p.baseLength = 1 := if_pos hCode
  have hOf : PacketType.ofCode p.packetType.code.toNat = some p.packetType := by
    cases hCase : p.packetType <;> first | exact absurd hCase hType | rfl
  have hByte : p.packetType.code.toNat < 256 ^ 1 := by
    cases p.packetType <;> decide
  have hData : packPacket p ++ r = beBytes 4 p.computeLength ++
      (beBytes 1 p.packetType.code.toNat ++ (packBody p ++ r)) := by
    rw [packPacket, packHeader, if_pos hCode]
    simp only [packUINT32BE, packUINT8, List.append_assoc]
  refine
    { pos := ?_
      max := hMax
      room := ?_
      length_eq := ?_
      type_eq := ?_
      cursor_eq := rfl }
  · simp only [Packet.computeLength, hBase]
    omega
  · simp only [List.length_append, length_packPacket hp]
    omega
  · simp only [frameLength, hData]
    rw [List.take_left' (length_beBytes 4 _), be_beBytes (by omega)]
  · simp only [typeByte, hData]
    rw [List.drop_left' (length_beBytes 4 _), List.take_left' (length_beBytes 1 _),
      be_beBytes hByte, hOf]

/-- A header in front of the bytes of its body. -/
structure Placed (b : RecvBuf) (h : Header) (body : Bytes) : Prop where
  ahead : ∃ r, Ahead b h.cursor (body ++ r)
  unpacked : h.cursor.unpacked = 5
  length : h.length + 4 = 5 + body.length

theorem unpackPieceNo_packed {n : UInt32} (hPlaced : Placed b h (packUINT32BE n.toNat))
    (mk : UInt32 → Packet) :
    (unpackPieceNo mk b h).packet = mk n ∧
      (unpackPieceNo mk b h).cursor.unpacked = h.length + 4 := by
  obtain ⟨r, hAhead⟩ := hPlaced.ahead
  obtain ⟨hPiece, -⟩ := hAhead.fetch (by decide) n.toNat_lt
  have hLen := hPlaced.length
  simp only [packUINT32BE, length_beBytes] at hLen
  simp only [unpackPieceNo, hPiece, UInt32.ofNat_toNat, fetch_unpacked, hPlaced.unpacked]
  exact ⟨trivial, by omega⟩

theorem unpackPort_packed {n : UInt32} (hPlaced : Placed b h (packUINT16BE n.toNat))
    (hPort : n.toNat < 2 ^ 16) :
    (unpackPort b h).packet = .port n ∧
      (unpackPort b h).cursor.unpacked = h.length + 4 := by
  obtain ⟨r, hAhead⟩ := hPlaced.ahead
  obtain ⟨hVal, -⟩ := hAhead.fetch (by decide) hPort
  have hLen := hPlaced.length
  simp only [packUINT16BE, length_beBytes] at hLen
  simp only [unpackPort, hVal, UInt32.ofNat_toNat, fetch_unpacked, hPlaced.unpacked]
  exact ⟨trivial, by omega⟩

theorem unpackIBL_packed {i s l : UInt32}
    (hPlaced : Placed b h
      (packUINT32BE i.toNat ++ packUINT32BE s.toNat ++ packUINT32BE l.toNat))
    (mk : UInt32 → UInt32 → UInt32 → Packet) :
    (unpackIBL mk b h).packet = mk i s l ∧
      (unpackIBL mk b h).cursor.unpacked = h.length + 4 := by
  obtain ⟨r, hAhead⟩ := hPlaced.ahead
  have hLen := hPlaced.length
  simp only [packUINT32BE, List.length_append, length_beBytes] at hLen
  simp only [packUINT32BE, List.append_assoc] at hAhead
  obtain ⟨hIndex, hAhead⟩ := hAhead.fetch (by decide) i.toNat_lt
  obtain ⟨hStart, hAhead⟩ := hAhead.fetch (by decide) s.toNat_lt
  obtain ⟨hLength, -⟩ := hAhead.fetch (by decide) l.toNat_lt
  simp only [unpackIBL, hIndex, hStart, hLength, UInt32.ofNat_toNat, fetch_unpacked,
    hPlaced.unpacked]
  exact ⟨trivial, by omega⟩

theorem unpackBitField_packed {bytes : Bytes} (hPlaced : Placed b h bytes) :
    (unpackBitField b h).packet = .bitfield (.ofBytes bytes) ∧
      (unpackBitField b h).cursor.unpacked = h.length + 4 := by
  obtain ⟨r, hAhead⟩ := hPlaced.ahead
  obtain ⟨hBytes, hEnd⟩ := hAhead.takeRest h.length (by
    rw [hPlaced.unpacked, hPlaced.length])
  simp only [unpackBitField, hBytes, hEnd, and_self]

theorem unpackPiece_packed {i s : UInt32} {data : Bytes}
    (hPlaced : Placed b h (packUINT32BE i.toNat ++ packUINT32BE s.toNat ++ data)) :
    ∃ u, unpackPiece b h = .ok u ∧ u.packet = .piece i s data ∧ u.length = h.length ∧
      u.cursor.unpacked = h.length + 4 := by
  obtain ⟨r, hAhead⟩ := hPlaced.ahead
  have hLen := hPlaced.length
  simp only [packUINT32BE, List.length_append, length_beBytes] at hLen
  simp only [packUINT32BE, List.append_assoc] at hAhead
  obtain ⟨hIndex, hAhead⟩ := hAhead.fetch (by decide) i.toNat_lt
  obtain ⟨hStart, hAhead⟩ := hAhead.fetch (by decide) s.toNat_lt
  have hPos : (fetch 4 b (fetch 4 b h.cursor).2).2.unpacked = 13 := by
    rw [fetch_unpacked, fetch_unpacked, hPlaced.unpacked]
  obtain ⟨hBytes, hEnd⟩ := hAhead.takeRest h.length (by omega)
  refine ⟨⟨.piece i s data, h.length, (takeRest b h.length
    (fetch 4 b (fetch 4 b h.cursor).2).2).2⟩, ?_, rfl, rfl, hEnd⟩
  unfold unpackPiece
  simp only [hPos, hIndex, hStart, hBytes, UInt32.ofNat_toNat]
  rw [if_neg (by omega)]

/-- The parser finds the end of the dictionary, and with it the appendix. -/
theorem unpackExtended_packed {code : UInt8} {d : BeNode} {appendix : Bytes}
    (hKeys : BeNode.WellKeyed d) (hSize : (pack d).length < 2 ^ 31)
    (hPlaced : Placed b h (packUINT8 code.toNat ++ pack d ++ appendix)) :
    ∃ u d', unpackExtended b h = .ok u ∧ u.packet = .extended code (some d') appendix ∧
      BeNode.Same d d' ∧ u.length = h.length ∧ u.cursor.unpacked = h.length + 4 := by
  obtain ⟨r, hAhead⟩ := hPlaced.ahead
  have hLen := hPlaced.length
  simp only [packUINT8, List.length_append, length_beBytes] at hLen
  simp only [packUINT8, List.append_assoc] at hAhead
  obtain ⟨hCode, hAhead⟩ := hAhead.fetch (by decide) code.toNat_lt
  have hPos : (fetch 1 b h.cursor).2.unpacked = 6 := by
    rw [fetch_unpacked, hPlaced.unpacked]
  obtain ⟨⟨d', hParse, hSame⟩, -, -⟩ := parse_pack hKeys hSize appendix
  have hWindow : (b.data.drop 6).take (h.length + 4 - 6) = pack d ++ appendix := by
    rw [← hPos, show b.data.drop _ = _ from hAhead, ← List.append_assoc,
      List.take_left' (by rw [List.length_append]; omega)]
  obtain ⟨c, hc⟩ : ∃ c : Cursor, c =
      { unpacked := 6 + (h.length + 4 - 6 - appendix.length)
        reads := (fetch 1 b h.cursor).2.reads ++ [(6, h.length + 4 - 6)] } := ⟨_, rfl⟩
  have hBencoded : unpackBencoded b (fetch 1 b h.cursor).2 (h.length + 4) = .ok (d', c) := by
    unfold unpackBencoded
    simp only [hPos, hWindow, hParse, hc]
  have hcPos : c.unpacked = 6 + (pack d).length := by
    simp only [hc]
    omega
  unfold unpackExtended
  simp only [hBencoded, hCode, UInt8.ofNat_toNat]
  by_cases hMore : c.unpacked < h.length + 4
  · have hAhead' : Ahead b c (appendix ++ r) := by
      have hDrop : b.data.drop 6 = pack d ++ (appendix ++ r) := hPos ▸ hAhead
      simp only [Ahead, hcPos, ← List.drop_drop, hDrop, List.drop_left]
    obtain ⟨hBytes, hEnd⟩ := hAhead'.takeRest h.length (by omega)
    rw [if_pos hMore]
    exact ⟨_, d', rfl, by simp only [hBytes], hSame, rfl, hEnd⟩
  · have hNil : appendix = [] := List.eq_nil_of_length_eq_zero (by omega)
    rw [if_neg hMore]
    exact ⟨_, d', rfl, by simp only [hNil], hSame, rfl, by dsimp only; omega⟩

/-! ## The round trip -/

theorem placed_packPacket {p : Packet} (hp : p.Sendable)
    (hType : p.packetType ≠ .keepalive) (r : Bytes) (eof : Bool) :
    Placed ⟨packPacket p ++ r, eof⟩
      ⟨p.computeLength, p.packetType, ⟨5, [(0, 4), (4, 1)]⟩⟩ (packBody p) := by
  have hBase : p.baseLength = 1 := by
    unfold Packet.baseLength
    cases hCase : p.packetType <;> first | exact absurd hCase hType | rfl
  refine ⟨⟨r, ?_⟩, rfl, ?_⟩
  · simp only [Ahead, packPacket, List.append_assoc]
    rw [List.drop_left' (by rw [length_packHeader, hBase])]
  · simp only [Packet.computeLength, hBase, length_packBody hp]
    omega

/-- The body written for a packet is read back as that packet. -/
theorem unpackBody_packBody {p : Packet} (hp : p.Sendable)
    (hMax : p.computeLength ≤ 1024 * 1024) {b : RecvBuf} {h : Header}
    (hType : h.type = p.packetType) (hPlaced : Placed b h (packBody p)) :
    ∃ u, unpackBody b h = .ok u ∧ p.Same u.packet ∧ u.length = h.length ∧
      u.cursor.unpacked = h.length + 4 := by
  have hEnd : packBody p = [] → h.cursor.unpacked = h.length + 4 := by
    intro hNil
    have hLen := hPlaced.length
    rw [hNil, List.length_nil] at hLen
    rw [hPlaced.unpacked, hLen]
  unfold unpackBody
  rw [hType]
  cases p with
  | keepalive | choke | unchoke | interested | uninterested | haveAll | haveNone =>
      exact ⟨_, rfl, .refl _, rfl, hEnd rfl⟩
  | «have» n | suggestPiece n | allowedFast n =>
      obtain ⟨hPacket, hPos⟩ := unpackPieceNo_packed hPlaced _
      exact ⟨_, rfl, hPacket ▸ .refl _, rfl, hPos⟩
  | request i s l | cancel i s l | rejectRequest i s l =>
      obtain ⟨hPacket, hPos⟩ := unpackIBL_packed hPlaced _
      exact ⟨_, rfl, hPacket ▸ .refl _, rfl, hPos⟩
  | bitfield bf =>
      obtain ⟨hPacket, hPos⟩ := unpackBitField_packed hPlaced
      exact ⟨_, rfl, hPacket ▸ .bitfield rfl, rfl, hPos⟩
  | port n =>
      obtain ⟨hPacket, hPos⟩ := unpackPort_packed hPlaced hp
      exact ⟨_, rfl, hPacket ▸ .refl _, rfl, hPos⟩
  | piece i s data =>
      obtain ⟨u, hu, hPacket, hLen, hPos⟩ := unpackPiece_packed hPlaced
      exact ⟨u, hu, hPacket ▸ .refl _, hLen, hPos⟩
  | extended code data appendix =>
      obtain ⟨raw, d, rfl, hKeys⟩ := hp
      have hSize : (pack (.dict raw d)).length < 2 ^ 31 := by
        have hBody := computeLength_eq hKeys
        simp only [Packet.computeLength, Packet.bodyLength] at hMax
        omega
      obtain ⟨u, d', hu, hPacket, hSame, hLen, hPos⟩ :=
        unpackExtended_packed hKeys hSize hPlaced
      exact ⟨u, hu, hPacket ▸ .extended hSame code appendix, hLen, hPos⟩

/-- A packet whose length the receiver accepts comes back as it was, whatever
follows it in the stream, and takes exactly its own bytes out of the buffer. -/
theorem unpackPacket_packPacket {p : Packet} (hp : p.Sendable)
    (hMax : p.computeLength ≤ 1024 * 1024) (r : Bytes) (eof : Bool) :
    (packPacket p).length = 4 + p.computeLength ∧
      ∃ u, unpackPacket ⟨packPacket p ++ r, eof⟩ = .ok u ∧ p.Same u.packet ∧
        u.packet.packetType = p.packetType ∧ u.cursor.unpacked = (packPacket p).length ∧
        (dropData ⟨packPacket p ++ r, eof⟩ u).data = r := by
  have hLen := length_packPacket hp
  refine ⟨hLen, ?_⟩
  by_cases hType : p.packetType = .keepalive
  · have hKeep : p = .keepalive := by
      cases p <;> first | rfl | cases hType
    subst hKeep
    have hBytes : packPacket .keepalive = [0, 0, 0, 0] := by decide
    have hHead := (unpackHeader_eq_ok_iff ⟨packPacket .keepalive ++ r, eof⟩ _).mpr
      (.inl ⟨by simp [hBytes], by simp [frameLength, hBytes, be], rfl⟩)
    exact ⟨⟨.keepalive, 0, ⟨4, [(0, 4)]⟩⟩, by rw [unpackPacket, hHead]; rfl, .refl _, rfl,
      by rw [hBytes]; rfl, by simp [dropData, hBytes]⟩
  · have hHead := (unpackHeader_eq_ok_iff _ _).mpr
      (.inr (complete_packPacket hp hType hMax r eof))
    obtain ⟨u, hu, hSame, hLength, hPos⟩ :=
      unpackBody_packBody hp hMax rfl (placed_packPacket hp hType r eof)
    refine ⟨u, by rw [unpackPacket, hHead]; exact hu, hSame, hSame.packetType, ?_, ?_⟩
    · rw [hPos, hLen, Nat.add_comm]
    · simp only [dropData, hLength]
      rw [List.drop_left' hLen]

/-- An extended message with a dictionary and an appendix. -/
def sampleExtended : Packet :=
  .extended 2 (some (.dict [] [([98], .int 1), ([97], .str [7])])) [1, 2, 3]

theorem sendable_sampleExtended : sampleExtended.Sendable := by
  refine ⟨_, _, rfl, .dict (by decide) fun e he => ?_⟩
  simp only [List.mem_cons, List.not_mem_nil, or_false] at he
  rcases he with rfl | rfl
  · exact .int _
  · exact .str _

theorem computeLength_sampleExtended_le :
    sampleExtended.computeLength ≤ 1024 * 1024 := by
  have hLen : sampleExtended.computeLength = 19 := by decide
  omega

/-- The start of the next packet. -/
def nextBytes : Bytes := [0, 0, 0]

theorem unpackPacket_packPacket_sample :
    (packPacket sampleExtended).length = 4 + sampleExtended.computeLength ∧
      ∃ u, unpackPacket ⟨packPacket sampleExtended ++ nextBytes, false⟩ = .ok u ∧
        sampleExtended.Same u.packet ∧
        u.packet.packetType = sampleExtended.packetType ∧
        u.cursor.unpacked = (packPacket sampleExtended).length ∧
        (dropData ⟨packPacket sampleExtended ++ nextBytes, false⟩ u).data = nextBytes :=
  unpackPacket_packPacket sendable_sampleExtended computeLength_sampleExtended_le
    nextBytes false

/-- A longer packet is written all the same, and refused by the receiver. -/
theorem unpackPacket_of_long {p : Packet} (hLong : 1024 * 1024 < p.computeLength)
    (hWord : p.computeLength < 256 ^ 4) (r : Bytes) (eof : Bool) :
    unpackPacket ⟨packPacket p ++ r, eof⟩ = .error .wrongFormat := by
  have hData : packPacket p ++ r = beBytes 4 p.computeLength ++
      ((if 0 ≤ p.packetType.code then packUINT8 p.packetType.code.toNat else []) ++
        packBody p ++ r) := by
    simp only [packPacket, packHeader, packUINT32BE, List.append_assoc]
  have hSize : 4 ≤ (packPacket p ++ r).length := by
    rw [hData, List.length_append, length_beBytes]
    omega
  have hFrame : frameLength ⟨packPacket p ++ r, eof⟩ = p.computeLength := by
    rw [frameLength, hData, List.take_left' (length_beBytes 4 _), be_beBytes hWord]
  rw [unpackPacket, unpackHeader_of_long hSize (hFrame.symm ▸ hLong)]

/-- A message with an empty dictionary and `n` bytes after it. -/
def padded (n : Nat) : Packet :=
  .extended 2 (some (.dict [] [])) (List.replicate n 0)

theorem sendable_padded (n : Nat) : (padded n).Sendable :=
  ⟨_, _, rfl, .dict (by simp) (by simp)⟩

theorem computeLength_padded (n : Nat) : (padded n).computeLength = n + 4 := by
  have hDict : Bencode.computeLength (.dict [] []) = 2 := by decide
  have hBase : (padded n).baseLength = 1 := rfl
  rw [Packet.computeLength, hBase]
  simp only [padded, Packet.bodyLength, hDict, List.length_replicate]
  omega

theorem not_unpackPacket_packPacket :
    ¬ ∀ p : Packet, p.Sendable → ∀ (r : Bytes) (eof : Bool),
      (packPacket p).length = 4 + p.computeLength ∧
        ∃ u, unpackPacket ⟨packPacket p ++ r, eof⟩ = .ok u ∧ p.Same u.packet ∧
          u.packet.packetType = p.packetType ∧ u.cursor.unpacked = (packPacket p).length ∧
          (dropData ⟨packPacket p ++ r, eof⟩ u).data = r := by
  intro hAll
  have hLen := computeLength_padded (1024 * 1024)
  obtain ⟨-, u, hu, -⟩ := hAll (padded (1024 * 1024)) (sendable_padded _) [] false
  have hLong : 1024 * 1024 < (padded (1024 * 1024)).computeLength := by omega
  have hWord : (padded (1024 * 1024)).computeLength < 256 ^ 4 := by omega
  rw [unpackPacket_of_long hLong hWord [] false] at hu
  cases hu

end Lftp.Ports.TorrentPacket
