import Lftp.Ports.SFtpPacket

/-!
# Replies inside their frame

What the receive buffer may hold comes from the server. `Framed` says what is meant
by decoding a reply inside its frame, for every content of the buffer and for what
`HandleExpect` then does with the reply.

* `Forward` is proved of each `Unpack` function but one, from the primitives up.
* `packetUnpack_ok` says when a header is accepted, and how it is read.
* `framed_iff` has the three kinds of buffers that are not decoded inside the frame.
-/

namespace Lftp.Ports.SFtp

open Lftp.Verified

/-! ## The primitives -/

theorem unpackUINT_looked (n : Nat) (b : Bytes) (offset : Int) :
    0 ≤ (unpackUINT n b offset).2 ∧ (unpackUINT n b offset).2 ≤ n := by
  unfold unpackUINT
  split
  · exact ⟨le_rfl, by simp⟩
  · exact ⟨by simp, le_rfl⟩

theorem forward_generic (n : Nat) : Forward (unpackGeneric n) := by
  intro b limit c r c' hPos hLe hLimit h
  have hLeft : int32 (limit - c.offset) = limit - c.offset :=
    int32_of_range (by omega) (by omega)
  have hLooked := unpackUINT_looked n b c.offset
  simp only [unpackGeneric, hLeft] at h
  by_cases hShort : limit - c.offset < n
  · rw [if_pos hShort] at h
    cases h
  · rw [if_neg hShort] at h
    cases h
    have hOffset : int32 (c.offset + n) = c.offset + n := int32_of_range (by omega) (by omega)
    refine ⟨?_, _, rfl, ?_⟩
    · show int32 (c.offset + n) ≤ limit
      omega
    · show Onward c.offset [⟨c.offset, n, (unpackUINT n b c.offset).2⟩] (int32 (c.offset + n))
      rw [hOffset]
      exact ⟨le_rfl, hLooked.1, hLooked.2, le_refl (c.offset + n)⟩

theorem forward_string : Forward unpackString := by
  intro b limit c r c' hPos hLe hLimit h
  have hLeft : int32 (limit - c.offset) = limit - c.offset :=
    int32_of_range (by omega) (by omega)
  have hLooked := unpackUINT_looked 4 b c.offset
  simp only [unpackString, hLeft] at h
  by_cases hShort : limit - c.offset < 4
  · rw [if_pos hShort] at h
    cases h
  rw [if_neg hShort] at h
  have hRest : int32 (limit - c.offset - 4) = limit - c.offset - 4 :=
    int32_of_range (by omega) (by omega)
  rw [hRest] at h
  generalize hLen : int32 ((unpackUINT 4 b c.offset).1 : Int) = len at h
  by_cases hLong : len > limit - c.offset - 4
  · rw [if_pos hLong] at h
    cases h
  rw [if_neg hLong] at h
  by_cases hNegative : len < 0
  · rw [if_pos hNegative] at h
    cases h
  rw [if_neg hNegative] at h
  have hStart : int32 (c.offset + 4) = c.offset + 4 := int32_of_range (by omega) (by omega)
  have hEnd : int32 (c.offset + 4 + len) = c.offset + 4 + len :=
    int32_of_range (by omega) (by omega)
  rw [hStart, hEnd] at h
  cases h
  refine ⟨show c.offset + 4 + len ≤ limit by omega, _, rfl, ?_⟩
  exact ⟨le_rfl, hLooked.1, hLooked.2, le_rfl, not_lt.mp hNegative, le_rfl,
    le_refl (c.offset + 4 + len)⟩

/-! ## The structures -/

theorem forward_unpack8 : Forward unpack8 := (forward_generic 1).bind fun _ => .pure _

theorem forward_unpack32 : Forward unpack32 := (forward_generic 4).bind fun _ => .pure _

theorem forward_unpack64 : Forward unpack64 := (forward_generic 8).bind fun _ => .pure _

theorem forward_unpack32Signed : Forward unpack32Signed := (forward_unpack32).bind fun _ => .pure _

theorem forward_unpack64Signed : Forward unpack64Signed := (forward_unpack64).bind fun _ => .pure _

theorem forward_time (flags : UInt32) : Forward (unpackTime flags) :=
  (forward_unpack64Signed).bind fun _ => ((forward_unpack32).given _ _).bind fun _ => .pure _

theorem forward_acmodTime : Forward unpackACModTime :=
  (forward_unpack32Signed).bind fun _ => (forward_unpack32Signed).bind fun _ => .pure _

theorem forward_uidGid : Forward unpackUidGid :=
  (forward_unpack32).bind fun _ => (forward_unpack32).bind fun _ => .pure _

theorem forward_ownerGroup : Forward unpackOwnerGroup :=
  (forward_string).bind fun _ => (forward_string).bind fun _ => .pure _

theorem forward_counted {α : Type} {u : Unpack α} (hu : Forward u) : Forward (unpackCounted u) :=
  (forward_unpack32).bind fun _ => (hu.times _).bind fun _ => .pure _

theorem forward_bits (v : Int) : Forward (unpackBits v) :=
  (forward_unpack32).bind fun _ => ((forward_unpack32).given _ _).bind fun _ => .pure _

theorem forward_ace : Forward FileACE.unpack :=
  (forward_unpack32).bind fun _ => (forward_unpack32).bind fun _ => (forward_unpack32).bind fun _ =>
    (forward_string).bind fun _ => .pure _

theorem forward_ext : Forward ExtFileAttr.unpack :=
  (forward_string).bind fun _ => (forward_string).bind fun _ => .pure _

theorem forward_attrs (v : Int) : Forward (FileAttrs.unpack v) := by
  refine (forward_unpack32).bind fun flags => ?_
  refine ((forward_unpack8).given _ _).bind fun type => ?_
  refine (((forward_unpack64).bind fun _ => .pure _).given _ _).bind fun size => ?_
  refine ((forward_uidGid).given _ _).bind ?_
  rintro ⟨uid, gid⟩
  refine ((forward_ownerGroup).given _ _).bind ?_
  rintro ⟨owner, group⟩
  refine ((forward_unpack32).given _ _).bind fun permissions => ?_
  refine ((forward_acmodTime).given _ _).bind ?_
  rintro ⟨atime, mtime⟩
  refine ((forward_time _).given _ _).bind ?_
  rintro ⟨atime, atimeNseconds⟩
  refine ((forward_time _).given _ _).bind ?_
  rintro ⟨createtime, createtimeNseconds⟩
  refine ((forward_time _).given _ _).bind ?_
  rintro ⟨mtime, mtimeNseconds⟩
  refine ((forward_time _).given _ _).bind ?_
  rintro ⟨ctime, ctimeNseconds⟩
  refine (Forward.require _ _).bind fun _ => ?_
  refine ((forward_counted forward_ace).given _ _).bind ?_
  rintro ⟨aceCount, ace⟩
  refine ((forward_bits v).given _ _).bind ?_
  rintro ⟨attribBits, attribBitsValid⟩
  refine (((forward_unpack8).bind fun _ => .pure _).given _ _).bind fun textHint => ?_
  refine ((forward_string).given _ _).bind fun mimeType => ?_
  refine ((forward_unpack32).given _ _).bind fun linkCount => ?_
  refine ((forward_string).given _ _).bind fun untranslatedName => ?_
  refine ((forward_counted forward_ext).given _ _).bind ?_
  rintro ⟨extendedCount, extendedAttrs⟩
  exact .pure _

theorem forward_eof : Forward unpackEof := by
  refine Forward.more.bind fun m => .ite ?_ (.pure _)
  exact (forward_unpack8).bind fun _ => .pure _

theorem forward_names (v count : Int) : Forward (unpackNames v count) := by
  refine (Forward.require _ _).bind fun _ => Forward.times ?_ _
  exact (forward_string).bind fun _ => ((forward_string).given _ _).bind fun _ =>
    (forward_attrs v).bind fun _ => .pure _

theorem forward_message (code : UInt32) : Forward (unpackMessage code) := by
  refine Forward.more.bind fun m => Forward.ite ?_ (.pure _)
  refine (forward_string).bind fun message => ?_
  refine Forward.more.bind fun m => Forward.ite ?_ (.pure _)
  exact (forward_string).bind fun language => .pure _

/-- What follows the header is read forward, unless it is the version. -/
theorem forward_body (v : Int) {t : PacketType} (h : t ≠ .version) : Forward (unpackBody v t) := by
  cases t with
  | version => exact absurd rfl h
  | name =>
      exact (forward_unpack32).bind fun _ => (forward_names v _).bind fun _ =>
        (forward_eof).bind fun _ => .pure _
  | attrs => exact (forward_attrs v).bind fun _ => .pure _
  | status => exact (forward_unpack32).bind fun code => .ite (forward_message code) (.pure _)
  | handle => exact (forward_string).bind fun _ => .pure _
  | data => exact (forward_string).bind fun _ => (forward_eof).bind fun _ => .pure _
  | _ => exact .fail _

/-! ## The header -/

/-- The number in the first four bytes. -/
def declared (b : Buffer) : Nat := be (b.bytes.take 4)

/-- The byte with the type. -/
def typeByte (b : Buffer) : Nat := be ((b.bytes.drop 4).take 1)

theorem declared_lt (b : Buffer) : declared b < 2 ^ 32 := by
  have hLt := be_lt (b.bytes.take 4)
  have hLen : (b.bytes.take 4).length ≤ 4 := List.length_take_le 4 _
  calc declared b < 256 ^ (b.bytes.take 4).length := hLt
    _ ≤ 256 ^ 4 := Nat.pow_le_pow_right (by decide) hLen

theorem Buffer.size_range (b : Buffer) : 0 ≤ b.size ∧ b.size < 2 ^ 31 := by
  have hLt := b.size_lt
  unfold Buffer.size
  omega

/-- A number that is in the buffer. -/
theorem unpackUINT_eq {n : Nat} {b : Buffer} (offset : Int) (hPos : 0 ≤ offset)
    (hFit : offset + n ≤ b.size) :
    unpackUINT n b.bytes offset = (be ((b.bytes.drop offset.toNat).take n), (n : Int)) := by
  have hSize := b.size_range
  have hLeft : int32 (b.bytes.length - offset) = b.bytes.length - offset := by
    unfold Buffer.size at hSize hFit
    exact int32_of_range (by omega) (by omega)
  rw [unpackUINT, hLeft, if_neg (by unfold Buffer.size at hFit; omega)]

/-- A number at the end of the buffer. -/
theorem unpackUINT_short {n : Nat} {b : Buffer} {offset : Int} (hPos : 0 ≤ offset)
    (hOffset : offset < 2 ^ 31) (hShort : b.size < offset + n) :
    unpackUINT n b.bytes offset = (0, 0) := by
  have hSize := b.size_range
  have hLeft : int32 (b.bytes.length - offset) = b.bytes.length - offset := by
    unfold Buffer.size at hSize
    exact int32_of_range (by omega) (by omega)
  rw [unpackUINT, hLeft, if_pos (by unfold Buffer.size at hShort; omega)]

/-- The cursor after a header. -/
def headerCursor (t : PacketType) (looked : Int) : Cursor :=
  if t.hasID then ⟨9, [⟨0, 4, 4⟩, ⟨4, 1, 1⟩, ⟨5, 4, looked⟩]⟩ else ⟨5, [⟨0, 4, 4⟩, ⟨4, 1, 1⟩]⟩

/-- A header is accepted. -/
structure Accepted (b : Buffer) (length : Int) (t : PacketType) : Prop where
  size : 5 ≤ b.size
  length_eq : length = int32 (declared b)
  length_pos : 1 ≤ length
  frame : int32 (length + 4) ≤ b.size
  type : validReply (typeByte b) = some t
  id : t.hasID = true → 5 ≤ length

theorem validReply_zero : validReply 0 = none := rfl

theorem packetUnpack_of {b : Buffer} {length : Int} {t : PacketType} (h : Accepted b length t) :
    ∃ id, packetUnpack b
      = .ok (⟨length, t, id⟩, headerCursor t (unpackUINT 4 b.bytes 5).2) := by
  have hSize := h.size
  have hFirst : unpackUINT 4 b.bytes 0 = (declared b, 4) :=
    unpackUINT_eq 0 le_rfl (by omega)
  have hType : unpackUINT 1 b.bytes 4 = (typeByte b, 1) :=
    unpackUINT_eq 4 (by decide) (by omega)
  have hPos := h.length_pos
  have hFrame := h.frame
  unfold packetUnpack headerCursor
  rw [hFirst, hType]
  dsimp only
  rw [← h.length_eq, h.type, if_neg (by omega), if_neg (by omega), if_neg (by omega)]
  by_cases hID : t.hasID
  · have hFive := h.id hID
    simp only [hID, if_true]
    rw [if_neg (by omega)]
    exact ⟨_, rfl⟩
  · simp only [hID]
    exact ⟨_, rfl⟩

theorem packetUnpack_ok {b : Buffer} {h : Header} {c : Cursor} (hOk : packetUnpack b = .ok (h, c)) :
    Accepted b h.length h.type ∧ c = headerCursor h.type (unpackUINT 4 b.bytes 5).2 := by
  by_cases hFour : b.size < 4
  · rw [packetUnpack, if_pos hFour] at hOk
    cases hOk
  have hFirst : unpackUINT 4 b.bytes 0 = (declared b, 4) :=
    unpackUINT_eq 0 le_rfl (by omega)
  have hFive : 5 ≤ b.size := by
    by_contra hShort
    have hType : unpackUINT 1 b.bytes 4 = (0, 0) :=
      unpackUINT_short (by decide) (by decide) (by omega)
    rw [packetUnpack, if_neg hFour, hFirst, hType] at hOk
    dsimp only at hOk
    rw [validReply_zero] at hOk
    split at hOk <;> [skip; split at hOk] <;> cases hOk
  have hType : unpackUINT 1 b.bytes 4 = (typeByte b, 1) :=
    unpackUINT_eq 4 (by decide) (by omega)
  rw [packetUnpack, if_neg hFour, hFirst, hType] at hOk
  dsimp only at hOk
  by_cases hPos : int32 (declared b) < 1
  · rw [if_pos hPos] at hOk
    cases hOk
  rw [if_neg hPos] at hOk
  by_cases hFrame : b.size < int32 (int32 (declared b) + 4)
  · rw [if_pos hFrame] at hOk
    cases hOk
  rw [if_neg hFrame] at hOk
  cases hValid : validReply (typeByte b) with
  | none =>
      rw [hValid] at hOk
      cases hOk
  | some t =>
      rw [hValid] at hOk
      dsimp only at hOk
      by_cases hID : t.hasID
      · simp only [hID, if_true] at hOk
        by_cases hLong : int32 (declared b) < 5
        · rw [if_pos hLong] at hOk
          cases hOk
        · rw [if_neg hLong] at hOk
          cases hOk
          refine ⟨⟨hFive, rfl, not_lt.mp hPos, not_lt.mp hFrame, hValid, fun _ => not_lt.mp hLong⟩, ?_⟩
          simp [headerCursor, hID]
      · simp only [hID] at hOk
        cases hOk
        refine ⟨⟨hFive, rfl, not_lt.mp hPos, not_lt.mp hFrame, hValid, fun h => absurd h hID⟩, ?_⟩
        simp [headerCursor, hID]

/-! ## What is done with the names -/

/-- `Expect::expect_t`, as far as names are looked at. -/
inductive Expect
  | homePath
  | data
  | infoReadlink
  | other
  deriving DecidableEq

/-- `GetNameAttrs`: the index of the element, unless it is null. -/
def getNameAttrs (count index : Int) : Option Int := if index > count then none else some index

/-- The indices of the names that `HandleExpect` looks at. -/
def accessed (homeAuto : Bool) : Expect → Reply → List Int
  | .homePath, .name count _ _ => if homeAuto then [] else (getNameAttrs count 0).toList
  | .data, .name count _ _ =>
    (List.range count.toNat).flatMap fun i : Nat => (getNameAttrs count i).toList
  | .infoReadlink, .name count _ _ => (getNameAttrs count 0).toList
  | _, _ => []

/-! ## The frame -/

/-- What a buffer holds is decoded inside its frame: an accepted frame is whole, offsets
only move forward (over strings of no negative length), what is looked at lies in the
frame, and names are looked at below their count. -/
structure Framed (v : Int) (homeAuto : Bool) (e : Expect) (b : Buffer) : Prop where
  whole : ∀ h c, packetUnpack b = .ok (h, c) → h.length + 4 ≤ b.size
  forward : ∀ h r c, unpackPacket v b = .ok (h, r, c) → Onward 0 c.moves c.offset
  inside : ∀ h r c, unpackPacket v b = .ok (h, r, c) →
    ∀ m ∈ c.moves, 0 ≤ m.start ∧ m.start + m.looked ≤ h.length + 4
  names : ∀ h r c, unpackPacket v b = .ok (h, r, c) → ∀ count names eof,
    r = .name count names eof → ∀ i ∈ accessed homeAuto e r, 0 ≤ i ∧ i < count

/-- The end of the frame is no `int`. -/
def Overflows (b : Buffer) : Prop :=
  5 ≤ b.size ∧ (validReply (typeByte b)).isSome ∧ 2 ^ 31 - 4 ≤ declared b ∧ declared b < 2 ^ 31

/-- A version that is too short for its number, with more after it. -/
def ShortVersion (b : Buffer) : Prop :=
  typeByte b = 2 ∧ 1 ≤ declared b ∧ declared b < 5 ∧ 9 ≤ b.size

/-- No names, where the first of them is looked at. -/
def NoNames (homeAuto : Bool) (e : Expect) (b : Buffer) : Prop :=
  typeByte b = 104 ∧ 9 ≤ declared b ∧ declared b + 4 ≤ b.size
    ∧ be ((b.bytes.drop 9).take 4) = 0 ∧ (e = .infoReadlink ∨ e = .homePath ∧ homeAuto = false)

theorem validReply_version {n : Nat} (h : validReply n = some .version) : n = 2 := by
  unfold validReply at h
  repeat
    split at h
    · first | assumption | cases h
  cases h

theorem validReply_name {n : Nat} (h : validReply n = some .name) : n = 104 := by
  unfold validReply at h
  repeat
    split at h
    · first | assumption | cases h
  cases h

theorem int32_declared {b : Buffer} (h : 1 ≤ int32 (declared b)) :
    declared b < 2 ^ 31 ∧ int32 (declared b) = declared b := by
  have hLt := declared_lt b
  by_cases hSmall : declared b < 2 ^ 31
  · exact ⟨hSmall, int32_of_range (by omega) (by omega)⟩
  · have hNegative : int32 (declared b) = declared b - 2 ^ 32 := by
      unfold int32
      rw [Int.bmod_def, if_neg (by omega)]
      omega
    omega

/-- A packet is its header and then its body. -/
theorem unpackPacket_ok {v : Int} {b : Buffer} {h : Header} {r : Reply} {c : Cursor}
    (hOk : unpackPacket v b = .ok (h, r, c)) :
    ∃ c₀, packetUnpack b = .ok (h, c₀)
      ∧ unpackBody v h.type b.bytes (int32 (h.length + 4)) c₀ = .ok (r, c) := by
  unfold unpackPacket at hOk
  cases hHeader : packetUnpack b with
  | error e =>
      rw [hHeader] at hOk
      cases hOk
  | ok p =>
      rw [hHeader] at hOk
      change (unpackBody v p.1.type b.bytes (int32 (p.1.length + 4)) p.2 >>= fun q =>
        Except.ok (p.1, q.1, q.2)) = _ at hOk
      cases hBody : unpackBody v p.1.type b.bytes (int32 (p.1.length + 4)) p.2 with
      | error e =>
          rw [hBody] at hOk
          cases hOk
      | ok q =>
          rw [hBody] at hOk
          cases hOk
          exact ⟨p.2, rfl, hBody⟩

theorem unpackPacket_of {v : Int} {b : Buffer} {h : Header} {r : Reply} {c c₀ : Cursor}
    (hHeader : packetUnpack b = .ok (h, c₀))
    (hBody : unpackBody v h.type b.bytes (int32 (h.length + 4)) c₀ = .ok (r, c)) :
    unpackPacket v b = .ok (h, r, c) := by
  unfold unpackPacket
  rw [hHeader]
  change (unpackBody v h.type b.bytes (int32 (h.length + 4)) c₀ >>= fun q =>
    Except.ok (h, q.1, q.2)) = _
  rw [hBody]
  rfl

theorem unpackBody_version (v : Int) (b : Bytes) (limit : Int) (c : Cursor) :
    unpackBody v .version b limit c = .ok (.version (.ofNat (unpackUINT 4 b c.offset).1),
      ⟨int32 (c.offset + 4), c.moves ++ [⟨c.offset, 4, (unpackUINT 4 b c.offset).2⟩]⟩) :=
  rfl

/-- Only a packet of that type gives names. -/
theorem unpackBody_name {v : Int} {t : PacketType} {b : Bytes} {limit : Int} {c c' : Cursor}
    {count : Int} {names : List NameAttrs} {eof : Bool}
    (h : unpackBody v t b limit c = .ok (.name count names eof, c')) : t = .name := by
  cases t with
  | name => rfl
  | attrs =>
      obtain ⟨_, _, -, h⟩ := Reader.bind_ok h
      cases h
  | handle =>
      obtain ⟨_, _, -, h⟩ := Reader.bind_ok h
      cases h
  | data =>
      obtain ⟨_, _, -, h⟩ := Reader.bind_ok h
      obtain ⟨_, _, -, h⟩ := Reader.bind_ok h
      cases h
  | status =>
      obtain ⟨code, c₁, -, h⟩ := Reader.bind_ok h
      by_cases hv : v ≥ 3
      · rw [if_pos hv] at h
        obtain ⟨m, _, -, h⟩ := Reader.bind_ok h
        cases m with
        | false => cases h
        | true =>
            obtain ⟨_, _, -, h⟩ := Reader.bind_ok h
            obtain ⟨m, _, -, h⟩ := Reader.bind_ok h
            cases m with
            | false => cases h
            | true =>
                obtain ⟨_, _, -, h⟩ := Reader.bind_ok h
                cases h
      · rw [if_neg hv] at h
        cases h
  | _ => cases h

theorem unpackGeneric_eq {n : Nat} {b : Bytes} {limit : Int} {c : Cursor} (hPos : 0 ≤ c.offset)
    (hFit : c.offset + n ≤ limit) (hLimit : limit < 2 ^ 31) :
    unpackGeneric n b limit c = .ok ((unpackUINT n b c.offset).1,
      ⟨c.offset + n, c.moves ++ [⟨c.offset, n, (unpackUINT n b c.offset).2⟩]⟩) := by
  have hLeft : int32 (limit - c.offset) = limit - c.offset :=
    int32_of_range (by omega) (by omega)
  have hOffset : int32 (c.offset + n) = c.offset + n := int32_of_range (by omega) (by omega)
  rw [unpackGeneric, hLeft, if_neg (by omega)]
  dsimp only
  rw [hOffset]

theorem unpackNames_ok {v count : Int} {b : Bytes} {limit : Int} {c c' : Cursor}
    {l : List NameAttrs} (h : unpackNames v count b limit c = .ok (l, c')) : 0 ≤ count := by
  obtain ⟨u, c₁, hRequire, -⟩ := Reader.bind_ok h
  by_contra hNegative
  rw [Reader.require, if_neg hNegative] at hRequire
  cases hRequire

/-- The count of names is the number after the header. -/
theorem unpackNAME_ok {v : Int} {b : Bytes} {limit : Int} {c c' : Cursor} {count : Int}
    {names : List NameAttrs} {eof : Bool} (hPos : 0 ≤ c.offset) (hLe : c.offset ≤ limit)
    (hLimit : limit < 2 ^ 31)
    (h : unpackNAME v b limit c = .ok (.name count names eof, c')) :
    c.offset + 4 ≤ limit ∧ 0 ≤ count
      ∧ count = int32 (UInt32.ofNat (unpackUINT 4 b c.offset).1).toNat := by
  obtain ⟨n, c₁, hNumber, h⟩ := Reader.bind_ok h
  obtain ⟨l, c₂, hNames, h⟩ := Reader.bind_ok h
  obtain ⟨e, c₃, -, h⟩ := Reader.bind_ok h
  cases h
  obtain ⟨m, c₄, hField, hNumber⟩ := Reader.bind_ok hNumber
  cases hNumber
  have hCount := unpackNames_ok hNames
  by_cases hFit : c.offset + 4 ≤ limit
  · rw [unpackGeneric_eq hPos hFit hLimit] at hField
    obtain ⟨rfl, -⟩ := Prod.mk.inj (Except.ok.inj hField)
    exact ⟨hFit, hCount, rfl⟩
  · have hLeft : int32 (limit - c.offset) = limit - c.offset :=
      int32_of_range (by omega) (by omega)
    rw [unpackGeneric, hLeft, if_pos (by omega)] at hField
    cases hField

theorem unpackEof_total (b : Bytes) (limit : Int) (c : Cursor) (hPos : 0 ≤ c.offset)
    (hLimit : limit < 2 ^ 31) : ∃ eof c', unpackEof b limit c = .ok (eof, c') := by
  by_cases hMore : c.offset < limit
  · have hField := unpackGeneric_eq (n := 1) (b := b) hPos (by omega) hLimit
    have hByte : unpack8 b limit c = .ok (.ofNat (unpackUINT 1 b c.offset).1, _) :=
      (Reader.bind_eq hField).trans rfl
    have hLeft : (Reader.more : Unpack Bool) b limit c = .ok (true, c) := by
      simp [Reader.more, hMore]
    exact ⟨_, _, (Reader.bind_eq hLeft).trans ((Reader.bind_eq hByte).trans rfl)⟩
  · have hLeft : (Reader.more : Unpack Bool) b limit c = .ok (false, c) := by
      simp [Reader.more, hMore]
    exact ⟨_, _, (Reader.bind_eq hLeft).trans rfl⟩

theorem unpackNAME_zero (v : Int) (b : Bytes) (limit : Int) (c : Cursor) (hPos : 0 ≤ c.offset)
    (hFit : c.offset + 4 ≤ limit) (hLimit : limit < 2 ^ 31)
    (hCount : (unpackUINT 4 b c.offset).1 = 0) :
    ∃ eof c', unpackNAME v b limit c = .ok (.name 0 [] eof, c') := by
  have hField := unpackGeneric_eq (n := 4) (b := b) hPos hFit hLimit
  rw [hCount] at hField
  have hNumber : unpack32 b limit c = .ok (0, _) := (Reader.bind_eq hField).trans rfl
  have hNone : int32 (0 : UInt32).toNat = 0 := int32_of_range (by decide) (by decide)
  obtain ⟨eof, c', hEof⟩ := unpackEof_total b limit
    ⟨c.offset + (4 : Nat), c.moves ++ [⟨c.offset, (4 : Nat), (unpackUINT 4 b c.offset).2⟩]⟩
    (show 0 ≤ c.offset + (4 : Nat) by omega) hLimit
  have hNames : unpackNames v 0 b limit
      ⟨c.offset + (4 : Nat), c.moves ++ [⟨c.offset, (4 : Nat), (unpackUINT 4 b c.offset).2⟩]⟩
      = .ok ([], _) := rfl
  refine ⟨eof, c', (Reader.bind_eq hNumber).trans ?_⟩
  rw [hNone]
  exact (Reader.bind_eq hNames).trans ((Reader.bind_eq hEof).trans rfl)

/-! ## Exactly the sound buffers -/

theorem Overflows.accepted {b : Buffer} (hOver : Overflows b) :
    ∃ t, Accepted b (declared b) t := by
  obtain ⟨hFive, hValid, hLow, hHigh⟩ := hOver
  obtain ⟨t, ht⟩ := Option.isSome_iff_exists.mp hValid
  have hSame : int32 (declared b) = declared b := int32_of_range (by omega) (by omega)
  have hEnd : int32 (declared b + 4) < 0 := by
    unfold int32
    rw [Int.bmod_def, if_neg (by omega)]
    omega
  have hSize := b.size_range
  exact ⟨t, hFive, hSame.symm, by omega, by omega, ht, fun _ => by omega⟩

theorem Framed.not_overflows {v : Int} {homeAuto : Bool} {e : Expect} {b : Buffer}
    (hFramed : Framed v homeAuto e b) : ¬ Overflows b := by
  intro hOver
  obtain ⟨t, hAccepted⟩ := hOver.accepted
  obtain ⟨id, hOk⟩ := packetUnpack_of hAccepted
  have hWhole : (declared b : Int) + 4 ≤ b.size := hFramed.whole _ _ hOk
  have hSize := b.size_range
  have hLow := hOver.2.2.1
  omega

/-- The number of a short version lies beyond its frame. -/
theorem ShortVersion.outside {b : Buffer} (h : ShortVersion b) (v : Int) :
    ∃ h r c, unpackPacket v b = .ok (h, r, c) ∧ ∃ m ∈ c.moves, h.length + 4 < m.start + m.looked := by
  obtain ⟨hType, hPos, hShort, hMore⟩ := h
  have hSame : int32 (declared b) = declared b := int32_of_range (by omega) (by omega)
  have hEnd : int32 (declared b + 4) = declared b + 4 := int32_of_range (by omega) (by omega)
  have hAccepted : Accepted b (declared b) .version :=
    ⟨by omega, hSame.symm, by omega, by omega, by rw [hType]; rfl, nofun⟩
  obtain ⟨id, hOk⟩ := packetUnpack_of hAccepted
  have hNumber := unpackUINT_eq (n := 4) (b := b) 5 (by decide) hMore
  have hBody := unpackBody_version v b.bytes (int32 (declared b + 4))
    (headerCursor .version (unpackUINT 4 b.bytes 5).2)
  refine ⟨_, _, _, unpackPacket_of hOk hBody, ⟨5, 4, (unpackUINT 4 b.bytes 5).2⟩,
    List.mem_append_right _ (List.mem_singleton.mpr rfl), ?_⟩
  show (declared b : Int) + 4 < 5 + (unpackUINT 4 b.bytes 5).2
  rw [hNumber]
  show (declared b : Int) + 4 < 5 + 4
  omega

theorem Framed.not_shortVersion {v : Int} {homeAuto : Bool} {e : Expect} {b : Buffer}
    (hFramed : Framed v homeAuto e b) : ¬ ShortVersion b := by
  intro hShort
  obtain ⟨h, r, c, hOk, m, hm, hOutside⟩ := hShort.outside v
  exact absurd (hFramed.inside h r c hOk m hm).2 (not_le.mpr hOutside)

/-- A packet without names is accepted. -/
theorem unpackPacket_noNames (v : Int) {b : Buffer} (hType : typeByte b = 104)
    (hLong : 9 ≤ declared b) (hFrame : declared b + 4 ≤ b.size)
    (hCount : be ((b.bytes.drop 9).take 4) = 0) :
    ∃ h eof c, unpackPacket v b = .ok (h, .name 0 [] eof, c) := by
  have hSize := b.size_range
  have hSame : int32 (declared b) = declared b := int32_of_range (by omega) (by omega)
  have hEnd : int32 (declared b + 4) = declared b + 4 := int32_of_range (by omega) (by omega)
  have hAccepted : Accepted b (declared b) .name :=
    ⟨by omega, hSame.symm, by omega, by omega, by rw [hType]; rfl, fun _ => by omega⟩
  obtain ⟨id, hOk⟩ := packetUnpack_of hAccepted
  have hNumber := unpackUINT_eq (n := 4) (b := b) 9 (by decide) (by omega)
  obtain ⟨eof, c, hBody⟩ := unpackNAME_zero v b.bytes (declared b + 4)
    (headerCursor .name (unpackUINT 4 b.bytes 5).2) (show (0 : Int) ≤ 9 by decide)
    (show (9 : Int) + 4 ≤ declared b + 4 by omega) (by omega)
    ((congrArg Prod.fst hNumber).trans hCount)
  exact ⟨_, eof, c, unpackPacket_of hOk (by rw [hEnd]; exact hBody)⟩

theorem Framed.not_noNames {v : Int} {homeAuto : Bool} {e : Expect} {b : Buffer}
    (hFramed : Framed v homeAuto e b) : ¬ NoNames homeAuto e b := by
  rintro ⟨hType, hLong, hFrame, hCount, hFirst⟩
  obtain ⟨h, eof, c, hOk⟩ := unpackPacket_noNames v hType hLong hFrame hCount
  have hAccessed : (0 : Int) ∈ accessed homeAuto e (.name 0 [] eof) := by
    rcases hFirst with rfl | ⟨rfl, rfl⟩ <;> exact List.mem_singleton.mpr rfl
  exact absurd (hFramed.names _ _ _ hOk 0 [] eof rfl 0 hAccessed).2 (by decide)

/-- Where the end of the frame is an `int`, an accepted frame is whole. -/
theorem Accepted.whole {b : Buffer} {length : Int} {t : PacketType} (h : Accepted b length t)
    (hOver : ¬ Overflows b) :
    length = declared b ∧ int32 (length + 4) = length + 4 ∧ length + 4 ≤ b.size
      ∧ length + 4 < 2 ^ 31 := by
  have hSize := b.size_range
  have hFrame := h.frame
  obtain ⟨hSmall, hSame⟩ := int32_declared (h.length_eq ▸ h.length_pos)
  have hLength : length = declared b := h.length_eq.trans hSame
  have hLow : declared b < 2 ^ 31 - 4 := by
    by_contra hHigh
    exact hOver ⟨h.size, by rw [h.type]; rfl, by omega, hSmall⟩
  have hEnd : int32 (length + 4) = length + 4 := int32_of_range (by omega) (by omega)
  exact ⟨hLength, hEnd, by omega, by omega⟩

theorem headerCursor_leads {t : PacketType} {b : Bytes} {length : Int} (hPos : 1 ≤ length)
    (hID : t.hasID = true → 5 ≤ length) :
    (⟨0, []⟩ : Cursor).Leads (headerCursor t (unpackUINT 4 b 5).2) (length + 4) := by
  have hLooked := unpackUINT_looked 4 b 5
  unfold headerCursor
  by_cases h : t.hasID
  · have hFive := hID h
    rw [if_pos h]
    exact ⟨show 9 ≤ length + 4 by omega, _, rfl, le_rfl, by decide, le_rfl, le_rfl, by decide,
      le_rfl, le_rfl, hLooked.1, hLooked.2, show (9 : Int) ≤ 9 from le_rfl⟩
  · rw [if_neg h]
    exact ⟨show 5 ≤ length + 4 by omega, _, rfl, le_rfl, by decide, le_rfl, le_rfl, by decide,
      le_rfl, show (5 : Int) ≤ 5 from le_rfl⟩

/-- What is looked at in a packet other than a version. -/
theorem unpackPacket_leads {v : Int} {b : Buffer} {h : Header} {r : Reply} {c : Cursor}
    (hOver : ¬ Overflows b) (hOk : unpackPacket v b = .ok (h, r, c)) (hType : h.type ≠ .version) :
    (⟨0, []⟩ : Cursor).Leads c (h.length + 4) := by
  obtain ⟨c₀, hHeader, hBody⟩ := unpackPacket_ok hOk
  obtain ⟨hAccepted, hCursor⟩ := packetUnpack_ok hHeader
  obtain ⟨-, hEnd, -, hLimit⟩ := hAccepted.whole hOver
  have hLeads := headerCursor_leads (b := b.bytes) hAccepted.length_pos hAccepted.id
  rw [← hCursor] at hLeads
  rw [hEnd] at hBody
  exact hLeads.trans (forward_body v hType b.bytes _ c₀ r c hLeads.le hLeads.below hLimit hBody)

/-- A version ends four bytes after its header. -/
theorem unpackPacket_version {v : Int} {b : Buffer} {h : Header} {r : Reply} {c : Cursor}
    (hOk : unpackPacket v b = .ok (h, r, c)) (hType : h.type = .version) :
    c = ⟨9, [⟨0, 4, 4⟩, ⟨4, 1, 1⟩, ⟨5, 4, (unpackUINT 4 b.bytes 5).2⟩]⟩ := by
  obtain ⟨c₀, hHeader, hBody⟩ := unpackPacket_ok hOk
  obtain ⟨-, hCursor⟩ := packetUnpack_ok hHeader
  have hNine : int32 ((5 : Int) + 4) = 9 := int32_of_range (by decide) (by decide)
  rw [hType] at hBody hCursor
  rw [unpackBody_version, hCursor] at hBody
  obtain ⟨-, rfl⟩ := Prod.mk.inj (Except.ok.inj hBody)
  show (⟨int32 ((5 : Int) + 4), [⟨0, 4, 4⟩, ⟨4, 1, 1⟩, ⟨5, 4, (unpackUINT 4 b.bytes 5).2⟩]⟩ : Cursor)
    = _
  rw [hNine]

theorem version_inside {b : Buffer} {length : Int} (hAccepted : Accepted b length .version)
    (hOver : ¬ Overflows b) (hVersion : ¬ ShortVersion b) :
    5 + (unpackUINT 4 b.bytes 5).2 ≤ length + 4 := by
  obtain ⟨hLength, -, -, -⟩ := hAccepted.whole hOver
  have hPos := hAccepted.length_pos
  have hLooked := unpackUINT_looked 4 b.bytes 5
  by_cases hLong : 5 ≤ length
  · omega
  · have hByte : typeByte b = 2 := validReply_version hAccepted.type
    have hShort : b.size < 9 := by
      by_contra hMore
      exact hVersion ⟨hByte, by omega, by omega, not_lt.mp hMore⟩
    rw [unpackUINT_short (by decide) (by decide) hShort]
    show (5 : Int) + 0 ≤ length + 4
    omega

theorem int32_eq_zero {k : Nat} (hLt : k < 2 ^ 32) (h : int32 k = 0) : k = 0 := by
  unfold int32 at h
  rw [Int.bmod_def] at h
  split at h <;> omega

theorem mem_getNameAttrs {count index i : Int} (h : i ∈ (getNameAttrs count index).toList) :
    i = index := by
  unfold getNameAttrs at h
  split at h
  · cases h
  · exact List.mem_singleton.mp h

/-- What is known of the count of names. -/
theorem unpackPacket_count {v : Int} {b : Buffer} {h : Header} {c : Cursor} {count : Int}
    {names : List NameAttrs} {eof : Bool} (hOver : ¬ Overflows b)
    (hOk : unpackPacket v b = .ok (h, .name count names eof, c)) :
    0 ≤ count ∧ (count = 0 → typeByte b = 104 ∧ 9 ≤ declared b ∧ declared b + 4 ≤ b.size
      ∧ be ((b.bytes.drop 9).take 4) = 0) := by
  obtain ⟨c₀, hHeader, hBody⟩ := unpackPacket_ok hOk
  obtain ⟨hAccepted, hCursor⟩ := packetUnpack_ok hHeader
  obtain ⟨hLength, hEnd, hWhole, hLimit⟩ := hAccepted.whole hOver
  have hType := unpackBody_name hBody
  have hNine : c₀.offset = 9 := by
    rw [hCursor, hType]
    rfl
  have hLong := hAccepted.id (by rw [hType]; rfl)
  rw [hType, hEnd] at hBody
  obtain ⟨hFit, hPos, hCount⟩ := unpackNAME_ok (by omega) (by omega) hLimit hBody
  refine ⟨hPos, fun hZero => ?_⟩
  rw [hNine] at hFit hCount
  have hNumber := congrArg Prod.fst
    (unpackUINT_eq (n := 4) (b := b) 9 (by decide) (by omega))
  have hByte : typeByte b = 104 := by
    have hValid := hAccepted.type
    rw [hType] at hValid
    exact validReply_name hValid
  refine ⟨hByte, by omega, by omega, ?_⟩
  rw [hNumber, hZero] at hCount
  show be ((b.bytes.drop (9 : Int).toNat).take 4) = 0
  have hLt : be ((b.bytes.drop (9 : Int).toNat).take 4) < 2 ^ 32 := by
    have hBe := be_lt ((b.bytes.drop (9 : Int).toNat).take 4)
    have hLen : ((b.bytes.drop (9 : Int).toNat).take 4).length ≤ 4 := List.length_take_le 4 _
    exact hBe.trans_le (Nat.pow_le_pow_right (by decide) hLen)
  generalize be ((b.bytes.drop (9 : Int).toNat).take 4) = k at hCount hLt
  have hNat : (UInt32.ofNat k).toNat = k := UInt32.toNat_ofNat_of_lt' hLt
  dsimp only at hCount
  rw [hNat] at hCount
  exact int32_eq_zero hLt hCount.symm

/-- A buffer is decoded inside its frame, unless the end of the frame is no `int`, or it
holds a version that is too short with more after it, or no names where the first of
them is looked at. -/
theorem framed_iff (v : Int) (homeAuto : Bool) (e : Expect) (b : Buffer) :
    Framed v homeAuto e b ↔ ¬ Overflows b ∧ ¬ ShortVersion b ∧ ¬ NoNames homeAuto e b := by
  constructor
  · intro h
    exact ⟨h.not_overflows, h.not_shortVersion, h.not_noNames⟩
  rintro ⟨hOver, hVersion, hNames⟩
  refine ⟨?_, ?_, ?_, ?_⟩
  · intro h c hOk
    exact ((packetUnpack_ok hOk).1.whole hOver).2.2.1
  · intro h r c hOk
    by_cases hType : h.type = .version
    · have hLooked := unpackUINT_looked 4 b.bytes 5
      rw [unpackPacket_version hOk hType]
      exact ⟨le_rfl, by decide, le_rfl, le_rfl, by decide, le_rfl, le_rfl, hLooked.1, hLooked.2,
        show (9 : Int) ≤ 9 from le_rfl⟩
    · obtain ⟨new, hMoves, hOn⟩ := (unpackPacket_leads hOver hOk hType).moves
      rw [hMoves]
      exact hOn
  · intro h r c hOk m hm
    by_cases hType : h.type = .version
    · obtain ⟨c₀, hHeader, -⟩ := unpackPacket_ok hOk
      have hAccepted := (packetUnpack_ok hHeader).1
      have hPos := hAccepted.length_pos
      rw [hType] at hAccepted
      have hInside := version_inside hAccepted hOver hVersion
      rw [unpackPacket_version hOk hType] at hm
      simp only [List.mem_cons, List.not_mem_nil, or_false] at hm
      rcases hm with rfl | rfl | rfl
      · exact ⟨le_rfl, show (0 : Int) + 4 ≤ h.length + 4 by omega⟩
      · exact ⟨by decide, show (4 : Int) + 1 ≤ h.length + 4 by omega⟩
      · exact ⟨show (0 : Int) ≤ 5 by decide, hInside⟩
    · have hLeads := unpackPacket_leads hOver hOk hType
      obtain ⟨new, hMoves, hOn⟩ := hLeads.moves
      rw [hMoves] at hm
      obtain ⟨hLo, -, hHi⟩ := hOn.inside m hm
      exact ⟨hLo, hHi.trans hLeads.below⟩
  · rintro h r c hOk count names eof rfl i hi
    obtain ⟨hPos, hZero⟩ := unpackPacket_count hOver hOk
    -- the first name is only looked at when there is one
    have hFirst : e = .infoReadlink ∨ e = .homePath ∧ homeAuto = false → 0 < count := by
      intro hLook
      rcases hPos.lt_or_eq with hLt | hEq
      · exact hLt
      · obtain ⟨hByte, hLong, hWhole, hNone⟩ := hZero hEq.symm
        exact absurd ⟨hByte, hLong, hWhole, hNone, hLook⟩ hNames
    cases e with
    | homePath =>
        cases homeAuto with
        | true => cases hi
        | false =>
            have hCount := hFirst (.inr ⟨rfl, rfl⟩)
            have hSame := mem_getNameAttrs hi
            omega
    | infoReadlink =>
        have hCount := hFirst (.inl rfl)
        have hSame := mem_getNameAttrs hi
        omega
    | data =>
        obtain ⟨k, hk, hi⟩ := List.mem_flatMap.mp hi
        have hSame := mem_getNameAttrs hi
        have hLt := List.mem_range.mp hk
        omega
    | other => cases hi

/-- A version of one byte, and then another packet. -/
def shortVersion : Buffer where
  bytes := [0, 0, 0, 1, 2, 0, 0, 0, 5]
  eof := false
  size_lt := by decide

theorem not_inside : ∃ h r c, unpackPacket 3 shortVersion = .ok (h, r, c)
    ∧ ∃ m ∈ c.moves, h.length + 4 < m.start + m.looked :=
  ShortVersion.outside ⟨rfl, by decide, by decide, by decide⟩ 3

end Lftp.Ports.SFtp
