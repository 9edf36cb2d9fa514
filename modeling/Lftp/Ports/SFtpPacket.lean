import Lftp.Verified.Cursor

/-!
# SFTP packets

The packets of `SFtp`: how replies are unpacked, and how attributes and requests
are packed. What a packet needs of `Buffer` is here as well.

Lengths and offsets are `int`, with its overflow. Where the process cannot go on
(a string of negative length, which `xmalloc` cannot find room for, and a `new[]`
with a negative count) unpacking ends with `died`.
-/

namespace Lftp.Ports.SFtp

open Lftp.Verified

/-! ## Buffers -/

/-- A receive buffer. Its size is an `int`. -/
structure Buffer where
  bytes : Bytes
  eof : Bool
  size_lt : bytes.length < 2 ^ 31

def Buffer.size (b : Buffer) : Int := b.bytes.length

/-- `UnpackUINT8`, `UnpackUINT32BE` and `UnpackUINT64BE`, with `n` the number of bytes.
Nothing is looked at when the buffer ends too early. -/
def unpackUINT (n : Nat) (b : Bytes) (offset : Int) : Nat × Int :=
  if int32 (b.length - offset) < n then (0, 0)
  else (be ((b.drop offset.toNat).take n), n)

/-- `PackUINT8`. -/
def pack8 (data : UInt32) : Bytes := beBytes 1 data.toNat

/-- `PackUINT32BE`. -/
def pack32 (data : UInt32) : Bytes := beBytes 4 data.toNat

/-- `PackUINT64BE`. -/
def pack64 (data : UInt64) : Bytes := beBytes 8 data.toNat

/-- `PackINT32BE`. -/
def pack32Signed (data : Int32) : Bytes :=
  pack32 (if data < 0 then ((-data).toUInt32 ^^^ 0xFFFFFFFF) + 1 else data.toUInt32)

/-- `PackINT64BE`. -/
def pack64Signed (data : Int64) : Bytes :=
  pack64 (if data < 0 then ((-data).toUInt64 ^^^ 0xFFFFFFFFFFFFFFFF) + 1 else data.toUInt64)

/-! ## Packets -/

/-- `packet_type`, without the requests that are never made. -/
inductive PacketType
  | init | version | open | close | read | write | fstat | setstat | fsetstat | opendir | readdir
  | remove | mkdir | rmdir | realpath | stat | rename | readlink | symlink | link
  | status | handle | data | name | attrs | extendedReply
  deriving DecidableEq

def PacketType.code : PacketType → UInt32
  | .init => 1 | .version => 2 | .open => 3 | .close => 4 | .read => 5 | .write => 6
  | .fstat => 8 | .setstat => 9 | .fsetstat => 10 | .opendir => 11 | .readdir => 12
  | .remove => 13 | .mkdir => 14 | .rmdir => 15 | .realpath => 16 | .stat => 17
  | .rename => 18 | .readlink => 19 | .symlink => 20 | .link => 21
  | .status => 101 | .handle => 102 | .data => 103 | .name => 104 | .attrs => 105
  | .extendedReply => 201

/-- `is_valid_reply`, with the type of the reply. -/
def validReply (t : Nat) : Option PacketType :=
  if t = 2 then some .version
  else if t = 101 then some .status
  else if t = 102 then some .handle
  else if t = 103 then some .data
  else if t = 104 then some .name
  else if t = 105 then some .attrs
  else if t = 201 then some .extendedReply
  else none

/-- `HasID`. -/
def PacketType.hasID (t : PacketType) : Bool := t ≠ .init && t ≠ .version

/-- The ways in which unpacking ends without a packet. -/
inductive Failure
  | wrongFormat
  | prematureEof
  | noDataYet
  | died
  deriving DecidableEq

abbrev Unpack (α : Type) := Reader Failure α

/-- The members of `Packet`. -/
structure Header where
  length : Int
  type : PacketType
  id : UInt32

/-- The result when the buffer ends too early. -/
def Buffer.short (b : Buffer) : Failure := if b.eof then .prematureEof else .noDataYet

/-- `Packet::Unpack`. -/
def packetUnpack (b : Buffer) : Except Failure (Header × Cursor) :=
  if b.size < 4 then .error b.short
  else
    let (n, looked) := unpackUINT 4 b.bytes 0
    let length := int32 n
    if length < 1 then .error .wrongFormat
    else if b.size < int32 (length + 4) then .error b.short
    else
      let (t, looked') := unpackUINT 1 b.bytes 4
      let moves := [⟨0, 4, looked⟩, ⟨4, 1, looked'⟩]
      match validReply t with
      | none => .error .wrongFormat
      | some type =>
        if type.hasID then
          if length < 5 then .error .wrongFormat
          else
            let (id, looked'') := unpackUINT 4 b.bytes 5
            .ok (⟨length, type, .ofNat id⟩, ⟨9, moves ++ [⟨5, 4, looked''⟩]⟩)
        else .ok (⟨length, type, 0⟩, ⟨5, moves⟩)

/-- `UNPACK_GENERIC`. -/
def unpackGeneric (n : Nat) : Unpack Nat := fun b limit c =>
  if int32 (limit - c.offset) < n then .error .wrongFormat
  else
    let (v, looked) := unpackUINT n b c.offset
    .ok (v, ⟨int32 (c.offset + n), c.moves ++ [⟨c.offset, n, looked⟩]⟩)

def unpack8 : Unpack UInt32 := do return .ofNat (← unpackGeneric 1)
def unpack32 : Unpack UInt32 := do return .ofNat (← unpackGeneric 4)
def unpack64 : Unpack UInt64 := do return .ofNat (← unpackGeneric 8)

/-- `UNPACK32_SIGNED`. -/
def unpack32Signed : Unpack Int32 := do
  let n ← unpack32
  return if n &&& 0x80000000 ≠ 0 then -(n ^^^ 0xFFFFFFFF).toInt32 - 1 else n.toInt32

/-- `UNPACK64_SIGNED`. -/
def unpack64Signed : Unpack Int64 := do
  let n ← unpack64
  return if n &&& 0x8000000000000000 ≠ 0 then -(n ^^^ 0xFFFFFFFFFFFFFFFF).toInt64 - 1
    else n.toInt64

/-- `UnpackString`. The length is only compared with what is left; `nset` copies that
many bytes. -/
def unpackString : Unpack Bytes := fun b limit c =>
  if int32 (limit - c.offset) < 4 then .error .wrongFormat
  else
    let (n, looked) := unpackUINT 4 b c.offset
    let len := int32 n
    if len > int32 (int32 (limit - c.offset) - 4) then .error .wrongFormat
    else if len < 0 then .error .died
    else
      let start := int32 (c.offset + 4)
      .ok ((b.drop start.toNat).take len.toNat,
        ⟨int32 (start + len), c.moves ++ [⟨c.offset, 4, looked⟩, ⟨start, len, len⟩]⟩)

/-- `PackString` with the length of the string. -/
def packStringN (s : Bytes) : Bytes := pack32 (.ofNat s.length) ++ s

/-- `PackString` without a length. -/
def packString (s : Bytes) : Bytes := packStringN (s.takeWhile (· ≠ 0))

/-! ## Attributes -/

def attrSize : UInt32 := 0x00000001
def attrUidgid : UInt32 := 0x00000002
def attrPermissions : UInt32 := 0x00000004
def attrAccesstime : UInt32 := 0x00000008
def attrAcmodtime : UInt32 := 0x00000008
def attrCreatetime : UInt32 := 0x00000010
def attrModifytime : UInt32 := 0x00000020
def attrAcl : UInt32 := 0x00000040
def attrOwnergroup : UInt32 := 0x00000080
def attrSubsecondTimes : UInt32 := 0x00000100
def attrBits : UInt32 := 0x00000200
def attrTextHint : UInt32 := 0x00000800
def attrMimeType : UInt32 := 0x00001000
def attrLinkCount : UInt32 := 0x00002000
def attrUntranslatedName : UInt32 := 0x00004000
def attrCtime : UInt32 := 0x00008000
def attrExtended : UInt32 := 0x80000000

def attrMaskV3 : UInt32 := 0x8000000F
def attrMaskV4 : UInt32 := 0x800001FD
def attrMaskV5 : UInt32 := 0x800003FD
def attrMaskV6 : UInt32 := 0x8000FFFD

/-- The type of a file for its `permissions & S_IFMT`. -/
def typeOf (permissions : UInt32) : UInt32 :=
  match permissions &&& 0o170000 with
  | 0o100000 => 1
  | 0o040000 => 2
  | 0o120000 => 3
  | 0o010000 => 4
  | 0o020000 => 4
  | 0o060000 => 4
  | _ => 5

structure ExtFileAttr where
  extendedType : Bytes
  extendedData : Bytes

structure FileACE where
  aceType : UInt32
  aceFlag : UInt32
  aceMask : UInt32
  who : Bytes

structure FileAttrs where
  flags : UInt32 := 0
  type : UInt32 := 0
  size : Int64 := -1
  owner : Bytes := []
  group : Bytes := []
  uid : UInt32 := 0
  gid : UInt32 := 0
  permissions : UInt32 := 0
  atime : Int64 := -1
  atimeNseconds : UInt32 := 0
  createtime : Int64 := -1
  createtimeNseconds : UInt32 := 0
  mtime : Int64 := -1
  mtimeNseconds : UInt32 := 0
  ctime : Int64 := -1
  ctimeNseconds : UInt32 := 0
  aceCount : UInt32 := 0
  ace : List FileACE := []
  attribBits : UInt32 := 0
  attribBitsValid : UInt32 := 0
  textHint : UInt8 := 0
  mimeType : Bytes := []
  linkCount : UInt32 := 0
  untranslatedName : Bytes := []
  extendedCount : UInt32 := 0
  extendedAttrs : List ExtFileAttr := []

/-- The flag `bit` is set. -/
def Has (flags bit : UInt32) : Prop := flags &&& bit ≠ 0

instance (flags bit : UInt32) : Decidable (Has flags bit) :=
  inferInstanceAs (Decidable (_ ≠ _))

def ExtFileAttr.unpack : Unpack ExtFileAttr := do
  let extendedType ← unpackString
  let extendedData ← unpackString
  return { extendedType, extendedData }

def ExtFileAttr.pack (a : ExtFileAttr) : Bytes :=
  packString a.extendedType ++ packString a.extendedData

def FileACE.unpack : Unpack FileACE := do
  let aceType ← unpack32
  let aceFlag ← unpack32
  let aceMask ← unpack32
  let who ← unpackString
  return { aceType, aceFlag, aceMask, who }

def FileACE.pack (a : FileACE) : Bytes :=
  pack32 a.aceType ++ (pack32 a.aceFlag ++ (pack32 a.aceMask ++ packString a.who))

def unpackSize : Unpack Int64 := do return (← unpack64).toInt64

def unpackHint : Unpack UInt8 := do return (← unpack8).toUInt8

/-- A time, with its nanoseconds when there are any. -/
def unpackTime (flags : UInt32) : Unpack (Int64 × UInt32) := do
  let time ← unpack64Signed
  let nseconds ← .given (Has flags attrSubsecondTimes) 0 unpack32
  return (time, nseconds)

def packTime (flags : UInt32) (time : Int64) (nseconds : UInt32) : Bytes :=
  pack64Signed time ++ if Has flags attrSubsecondTimes then pack32 nseconds else []

/-- The two times of the old versions. -/
def unpackACModTime : Unpack (Int64 × Int64) := do
  let atime ← unpack32Signed
  let mtime ← unpack32Signed
  return (atime.toInt64, mtime.toInt64)

/-- The two numbers of the old versions. -/
def unpackUidGid : Unpack (UInt32 × UInt32) := do
  let uid ← unpack32
  let gid ← unpack32
  return (uid, gid)

def unpackOwnerGroup : Unpack (Bytes × Bytes) := do
  let owner ← unpackString
  let group ← unpackString
  return (owner, group)

/-- A count, and so many fields. -/
def unpackCounted {α : Type} (u : Unpack α) : Unpack (UInt32 × List α) := do
  let count ← unpack32
  let l ← .times u count.toNat
  return (count, l)

def unpackBits (protocolVersion : Int) : Unpack (UInt32 × UInt32) := do
  let attribBits ← unpack32
  let attribBitsValid ← .given (protocolVersion ≥ 6) 0 unpack32
  return (attribBits, attribBitsValid)

/-- `FileAttrs::Unpack`. -/
def FileAttrs.unpack (protocolVersion : Int) : Unpack FileAttrs := do
  let flags ← unpack32
  let type ← .given (protocolVersion ≥ 4) 0 unpack8
  let size ← .given (Has flags attrSize) (-1) unpackSize
  let (uid, gid) ← .given (protocolVersion ≤ 3 ∧ Has flags attrUidgid) (0, 0) unpackUidGid
  let (owner, group) ← .given (protocolVersion ≥ 4 ∧ Has flags attrOwnergroup) ([], [])
    unpackOwnerGroup
  let permissions ← .given (Has flags attrPermissions) 0 unpack32
  let type := if Has flags attrPermissions ∧ protocolVersion ≤ 3 then typeOf permissions else type
  let (atime, mtime) ← .given (protocolVersion ≤ 3 ∧ Has flags attrAcmodtime) (-1, -1)
    unpackACModTime
  let flags := if protocolVersion ≤ 3 ∧ Has flags attrAcmodtime then flags ||| attrModifytime
    else flags
  let (atime, atimeNseconds) ← .given (protocolVersion ≥ 4 ∧ Has flags attrAccesstime) (atime, 0)
    (unpackTime flags)
  let (createtime, createtimeNseconds) ← .given (protocolVersion ≥ 4 ∧ Has flags attrCreatetime)
    (-1, 0) (unpackTime flags)
  let (mtime, mtimeNseconds) ← .given (protocolVersion ≥ 4 ∧ Has flags attrModifytime) (mtime, 0)
    (unpackTime flags)
  let (ctime, ctimeNseconds) ← .given (protocolVersion ≥ 5 ∧ Has flags attrCtime) (-1, 0)
    (unpackTime flags)
  .require (atimeNseconds ≤ 999999999 ∧ createtimeNseconds ≤ 999999999
    ∧ mtimeNseconds ≤ 999999999 ∧ ctimeNseconds ≤ 999999999) .wrongFormat
  let (aceCount, ace) ← .given (protocolVersion ≥ 4 ∧ Has flags attrAcl) (0, [])
    (unpackCounted FileACE.unpack)
  let (attribBits, attribBitsValid) ← .given (protocolVersion ≥ 5 ∧ Has flags attrBits) (0, 0)
    (unpackBits protocolVersion)
  let textHint ← .given (protocolVersion ≥ 6 ∧ Has flags attrTextHint) 0 unpackHint
  let mimeType ← .given (protocolVersion ≥ 6 ∧ Has flags attrMimeType) [] unpackString
  let linkCount ← .given (protocolVersion ≥ 6 ∧ Has flags attrLinkCount) 0 unpack32
  let untranslatedName ← .given (protocolVersion ≥ 6 ∧ Has flags attrUntranslatedName) []
    unpackString
  let (extendedCount, extendedAttrs) ← .given (Has flags attrExtended) (0, [])
    (unpackCounted ExtFileAttr.unpack)
  return {
    flags := flags, type, size, owner, group, uid, gid, permissions, atime, atimeNseconds,
    createtime, createtimeNseconds, mtime, mtimeNseconds, ctime, ctimeNseconds, aceCount, ace,
    attribBits, attribBitsValid, textHint, mimeType, linkCount, untranslatedName, extendedCount,
    extendedAttrs }

namespace FileAttrs

/-- Old versions have the modification time only together with the access time. -/
def acmod (protocolVersion : Int) (a : FileAttrs) : FileAttrs :=
  if protocolVersion ≤ 3 ∧ Has a.flags attrModifytime ∧ ¬ Has a.flags attrAccesstime then
    { a with flags := a.flags ||| attrAcmodtime, atime := a.mtime }
  else a

/-- New versions need a type. -/
def typed (protocolVersion : Int) (a : FileAttrs) : FileAttrs :=
  if protocolVersion ≥ 4 ∧ a.type = 0 then { a with type := typeOf a.permissions } else a

/-- What `Pack` makes of the attributes themselves. -/
def settled (protocolVersion : Int) (a : FileAttrs) : FileAttrs :=
  (a.acmod protocolVersion).typed protocolVersion

/-- The flags that are sent. -/
def flagsMask (protocolVersion : Int) : UInt32 :=
  if protocolVersion ≥ 6 then attrMaskV6
  else if protocolVersion = 5 then attrMaskV5
  else if protocolVersion = 4 then attrMaskV4
  else attrMaskV3

/-- The fields, as `Pack` puts them one after another. -/
def packFields (v : Int) (a : FileAttrs) : Bytes :=
  pack32 (a.flags &&& flagsMask v)
  ++ ((if v ≥ 4 then pack8 a.type else [])
  ++ ((if Has a.flags attrSize then pack64 a.size.toUInt64 else [])
  ++ ((if v ≤ 3 ∧ Has a.flags attrUidgid then pack32 a.uid ++ pack32 a.gid else [])
  ++ ((if v ≥ 4 ∧ Has a.flags attrOwnergroup then packString a.owner ++ packString a.group else [])
  ++ ((if Has a.flags attrPermissions then pack32 a.permissions else [])
  ++ ((if v ≤ 3 ∧ Has a.flags attrAcmodtime then
      pack32Signed a.atime.toInt32 ++ pack32Signed a.mtime.toInt32 else [])
  ++ ((if v ≥ 4 ∧ Has a.flags attrAccesstime then packTime a.flags a.atime a.atimeNseconds else [])
  ++ ((if v ≥ 4 ∧ Has a.flags attrCreatetime then
      packTime a.flags a.createtime a.createtimeNseconds else [])
  ++ ((if v ≥ 4 ∧ Has a.flags attrModifytime then packTime a.flags a.mtime a.mtimeNseconds else [])
  ++ ((if v ≥ 5 ∧ Has a.flags attrCtime then packTime a.flags a.ctime a.ctimeNseconds else [])
  ++ ((if v ≥ 4 ∧ Has a.flags attrAcl then
      pack32 a.aceCount ++ (a.ace.take a.aceCount.toNat).flatMap FileACE.pack else [])
  ++ ((if v ≥ 5 ∧ Has a.flags attrBits then
      pack32 a.attribBits ++ (if v ≥ 6 then pack32 a.attribBitsValid else []) else [])
  ++ ((if v ≥ 6 ∧ Has a.flags attrTextHint then pack8 a.textHint.toUInt32 else [])
  ++ ((if v ≥ 6 ∧ Has a.flags attrMimeType then packString a.mimeType else [])
  ++ ((if v ≥ 6 ∧ Has a.flags attrLinkCount then pack32 a.linkCount else [])
  ++ ((if v ≥ 6 ∧ Has a.flags attrUntranslatedName then packString a.untranslatedName else [])
  ++ (if Has a.flags attrExtended then
      pack32 a.extendedCount
        ++ (a.extendedAttrs.take a.extendedCount.toNat).flatMap ExtFileAttr.pack else [])
  ))))))))))))))))

/-- `FileAttrs::Pack`. -/
def pack (protocolVersion : Int) (a : FileAttrs) : Bytes :=
  (a.settled protocolVersion).packFields protocolVersion

/-- `FileAttrs::ComputeLength`, the size of a buffer with the packed attributes. -/
def computeLength (protocolVersion : Int) (a : FileAttrs) : Int :=
  int32 (a.pack protocolVersion).length

end FileAttrs

/-! ## Replies -/

structure NameAttrs where
  name : Bytes
  longname : Bytes
  attrs : FileAttrs

/-- The replies, with what each class holds. -/
inductive Reply
  | version (data : UInt32)
  | status (code : UInt32) (message language : Bytes)
  | handle (string : Bytes)
  | data (string : Bytes) (eof : Bool)
  | name (count : Int) (names : List NameAttrs) (eof : Bool)
  | attrs (attrs : FileAttrs)

/-- `PacketUINT32::Unpack` after the header. The length of the packet is not looked at. -/
def unpackUINT32 : Unpack Reply := fun b _ c =>
  let (v, looked) := unpackUINT 4 b c.offset
  .ok (.version (.ofNat v), ⟨int32 (c.offset + 4), c.moves ++ [⟨c.offset, 4, looked⟩]⟩)

def unpackEof : Unpack Bool := do
  let m ← .more
  if m then return (← unpack8) ≠ 0 else return false

/-- `NameAttrs::Unpack`. -/
def NameAttrs.unpack (protocolVersion : Int) : Unpack NameAttrs := do
  let name ← unpackString
  let longname ← .given (protocolVersion ≤ 3) [] unpackString
  let attrs ← FileAttrs.unpack protocolVersion
  return { name := name, longname, attrs }

/-- `new NameAttrs[count]`, and the loop over it. -/
def unpackNames (protocolVersion : Int) (count : Int) : Unpack (List NameAttrs) := do
  .require (0 ≤ count) .died
  .times (NameAttrs.unpack protocolVersion) count.toNat

/-- `Reply_NAME::Unpack`. -/
def unpackNAME (protocolVersion : Int) : Unpack Reply := do
  let n ← unpack32
  let count := int32 n.toNat
  let names ← unpackNames protocolVersion count
  let eof ← unpackEof
  return .name count names eof

/-- `Reply_DATA::Unpack`. -/
def unpackDATA : Unpack Reply := do
  let string ← unpackString
  let eof ← unpackEof
  return .data string eof

def unpackHANDLE : Unpack Reply := do return .handle (← unpackString)

def unpackATTRS (protocolVersion : Int) : Unpack Reply := do
  return .attrs (← FileAttrs.unpack protocolVersion)

/-- The message of a status and its language, either of which may be missing. -/
def unpackMessage (code : UInt32) : Unpack Reply := do
  let m ← .more
  if m then do
    let message ← unpackString
    let m ← .more
    if m then return .status code message (← unpackString)
    else return .status code message []
  else return .status code [] []

/-- `Reply_STATUS::Unpack`. -/
def unpackSTATUS (protocolVersion : Int) : Unpack Reply := do
  let code ← unpack32
  if protocolVersion ≥ 3 then unpackMessage code else return .status code [] []

/-- The rest of a packet, after its header. -/
def unpackBody (protocolVersion : Int) : PacketType → Unpack Reply
  | .version => unpackUINT32
  | .name => unpackNAME protocolVersion
  | .attrs => unpackATTRS protocolVersion
  | .status => unpackSTATUS protocolVersion
  | .handle => unpackHANDLE
  | .data => unpackDATA
  | _ => .fail .wrongFormat

/-- `SFtp::UnpackPacket`. -/
def unpackPacket (protocolVersion : Int) (b : Buffer) :
    Except Failure (Header × Reply × Cursor) := do
  let (h, c) ← packetUnpack b
  let (r, c) ← unpackBody protocolVersion h.type b.bytes (int32 (h.length + 4)) c
  return (h, r, c)

/-! ## Requests -/

inductive Request
  | init (version : UInt32)
  | realpath (path : Bytes)
  | fstat (handle : Bytes) (flags : UInt32)
  | stat (path : Bytes) (flags : UInt32)
  | open (name : Bytes) (pflags desiredAccess flags : UInt32) (attrs : FileAttrs)
  | close (handle : Bytes)
  | opendir (name : Bytes)
  | readdir (handle : Bytes)
  | read (handle : Bytes) (pos : Int64) (len : UInt32)
  | write (handle : Bytes) (pos : Int64) (data : Bytes)
  | fsetstat (handle : Bytes) (attrs : FileAttrs)
  | setstat (name : Bytes) (attrs : FileAttrs)
  | mkdir (name : Bytes) (attrs : FileAttrs)
  | rmdir (name : Bytes)
  | remove (name : Bytes)
  | rename (oldpath newpath : Bytes) (flags : UInt32)
  | readlink (name : Bytes)
  | symlink (oldpath newpath : Bytes)
  | link (oldpath newpath : Bytes) (symbolic : Bool)

namespace Request

def type : Request → PacketType
  | init .. => .init
  | realpath .. => .realpath
  | fstat .. => .fstat
  | stat .. => .stat
  | .open .. => .open
  | close .. => .close
  | opendir .. => .opendir
  | readdir .. => .readdir
  | read .. => .read
  | write .. => .write
  | fsetstat .. => .fsetstat
  | setstat .. => .setstat
  | mkdir .. => .mkdir
  | rmdir .. => .rmdir
  | remove .. => .remove
  | rename .. => .rename
  | readlink .. => .readlink
  | symlink .. => .symlink
  | link .. => .link

/-- `strlen`. -/
def strlen (s : Bytes) : Nat := (s.takeWhile (· ≠ 0)).length

/-- `Packet::ComputeLength`. -/
def packetLength (t : PacketType) : Int := 1 + 4 * if t.hasID then 1 else 0

/-- `PacketSTRING::ComputeLength`. -/
def stringLength (t : PacketType) (s : Bytes) : Int := packetLength t + (4 + s.length)

/-- `Request_FSTAT::ComputeLength`, also for `Request_STAT`. -/
def fstatLength (v : Int) (t : PacketType) (s : Bytes) : Int :=
  stringLength t s + if v ≥ 4 then 4 else 0

/-- `PacketSTRING_ATTRS::ComputeLength`. -/
def attrsLength (v : Int) (t : PacketType) (s : Bytes) (a : FileAttrs) : Int :=
  stringLength t s + a.computeLength v

/-- `ComputeLength` of each request. -/
def computeLength (v : Int) (r : Request) : Int :=
  int32 <| match r with
  | init _ => packetLength .init + 4
  | realpath s | close s | opendir s | readdir s | rmdir s | remove s | readlink s =>
    stringLength r.type s
  | fstat s _ | stat s _ => fstatLength v r.type s
  | .open s _ _ _ a => attrsLength v r.type s a + (4 + 4 * if v ≥ 5 then 1 else 0)
  | read s _ _ => stringLength r.type s + (8 + 4)
  | write s _ data => stringLength r.type s + (8 + 4 + data.length)
  | fsetstat s a | setstat s a | mkdir s a => attrsLength v r.type s a
  | rename oldpath newpath _ =>
    packetLength r.type + (4 + strlen oldpath + 4 + strlen newpath) + if v ≥ 5 then 4 else 0
  | symlink oldpath newpath => packetLength r.type + (4 + strlen oldpath + 4 + strlen newpath)
  | link oldpath newpath _ => packetLength r.type + (4 + strlen oldpath + 4 + strlen newpath + 1)

/-- `Packet::Pack`. -/
def packetPack (length : Int) (t : PacketType) (id : UInt32) : Bytes :=
  pack32 (.ofInt length) ++ (pack8 t.code ++ if t.hasID then pack32 id else [])

/-- What follows the header of each request. -/
def packBody (v : Int) : Request → Bytes
  | init version => pack32 version
  | realpath s | close s | opendir s | readdir s | rmdir s | remove s | readlink s => packStringN s
  | fstat s flags | stat s flags => packStringN s ++ if v ≥ 4 then pack32 flags else []
  | .open s pflags desiredAccess flags a =>
    packStringN s ++ ((if v ≤ 4 then pack32 pflags else [])
      ++ ((if v ≥ 5 then pack32 desiredAccess ++ pack32 flags else []) ++ a.pack v))
  | read s pos len => packStringN s ++ (pack64 pos.toUInt64 ++ pack32 len)
  | write s pos data =>
    packStringN s ++ (pack64 pos.toUInt64 ++ (pack32 (.ofNat data.length) ++ data))
  | fsetstat s a | setstat s a | mkdir s a => packStringN s ++ a.pack v
  | rename oldpath newpath flags =>
    packString oldpath ++ (packString newpath ++ if v ≥ 5 then pack32 flags else [])
  | symlink oldpath newpath => packString oldpath ++ packString newpath
  | link oldpath newpath symbolic =>
    packString newpath ++ (packString oldpath ++ pack8 (if symbolic then 1 else 0))

/-- `Pack` of each request, after `ComputeLength` and `SetID`. -/
def pack (v : Int) (id : UInt32) (r : Request) : Bytes :=
  packetPack (r.computeLength v) r.type id ++ r.packBody v

end Request

end Lftp.Ports.SFtp
