import Lftp.Ports.SFtpPacket
import Lftp.Verified.Percent

/-!
# What is packed is unpacked

`FileAttrs::Pack`, `FileAttrs::Unpack` and `ComputeLength` are three cascades of
conditions on the version and the flags. `Reads` is proved of each field and then
of all of them, in their order.

* `carried` are the attributes that a version can carry: those without a flag are
  at their defaults, and the old versions derive the type and a flag.
* `attrs_roundtrip` is the result, with the lengths of the requests.
-/

namespace Lftp.Ports.SFtp

open Lftp.Verified

/-! ## Numbers -/

theorem pack32Signed_eq (d : Int32) : pack32Signed d = pack32 d.toUInt32 := by
  unfold pack32Signed
  split
  · congr 1
    apply UInt32.eq_of_toBitVec_eq
    show (-d.toBitVec ^^^ BitVec.allOnes 32) + 1#32 = d.toBitVec
    rw [BitVec.xor_allOnes, ← BitVec.neg_eq_not_add, BitVec.neg_neg]
  · rfl

theorem pack64Signed_eq (d : Int64) : pack64Signed d = pack64 d.toUInt64 := by
  unfold pack64Signed
  split
  · congr 1
    apply UInt64.eq_of_toBitVec_eq
    show (-d.toBitVec ^^^ BitVec.allOnes 64) + 1#64 = d.toBitVec
    rw [BitVec.xor_allOnes, ← BitVec.neg_eq_not_add, BitVec.neg_neg]
  · rfl

/-- The number at an offset is the one that the bytes there spell. -/
theorem unpackUINT_append {pre s post : Bytes} (hSize : (pre ++ (s ++ post)).length < 2 ^ 31) :
    unpackUINT s.length (pre ++ (s ++ post)) pre.length = (be s, (s.length : Int)) := by
  have hBuffer : int32 ((pre ++ (s ++ post)).length - pre.length) = s.length + post.length := by
    simp only [List.length_append] at hSize ⊢
    rw [int32_of_range (by omega) (by omega)]
    omega
  rw [unpackUINT, hBuffer, if_neg (by omega), Int.toNat_natCast, List.drop_left, List.take_left]

theorem reads_generic (s : Bytes) : Reads (unpackGeneric s.length) s (be s) := by
  intro pre post limit moves hSize hLimit hLe
  have hLeft : int32 (limit - pre.length) = limit - pre.length :=
    int32_of_range (by omega) (by omega)
  have hOffset : int32 (pre.length + s.length) = pre.length + s.length :=
    int32_of_range (by omega) (by omega)
  refine ⟨moves ++ [⟨pre.length, s.length, s.length⟩], ?_⟩
  unfold unpackGeneric
  dsimp only
  rw [hLeft, if_neg (by omega), unpackUINT_append hSize, hOffset]

theorem reads_be {w n : Nat} (h : n < 256 ^ w) : Reads (unpackGeneric w) (beBytes w n) n := by
  have hReads := reads_generic (beBytes w n)
  rwa [length_beBytes, be_beBytes h] at hReads

theorem reads_unpack8 {d : UInt32} (h : d.toNat < 256) : Reads unpack8 (pack8 d) d := by
  have hReads := (reads_be (w := 1) h).map (f := UInt32.ofNat)
  rwa [UInt32.ofNat_toNat] at hReads

theorem reads_unpack32 (d : UInt32) : Reads unpack32 (pack32 d) d := by
  have hReads := (reads_be (w := 4) d.toNat_lt).map (f := UInt32.ofNat)
  rwa [UInt32.ofNat_toNat] at hReads

theorem reads_unpack64 (d : UInt64) : Reads unpack64 (pack64 d) d := by
  have hReads := (reads_be (w := 8) d.toNat_lt).map (f := UInt64.ofNat)
  rwa [UInt64.ofNat_toNat] at hReads

theorem reads_unpack32Signed (d : Int32) : Reads unpack32Signed (pack32Signed d) d := by
  rw [pack32Signed_eq]
  have hSame : (if d.toUInt32 &&& 0x80000000 ≠ 0 then
      -(d.toUInt32 ^^^ 0xFFFFFFFF).toInt32 - 1 else d.toUInt32.toInt32) = d := by
    split
    · apply Int32.toBitVec_inj.mp
      show -(d.toBitVec ^^^ BitVec.allOnes 32) - 1#32 = d.toBitVec
      rw [BitVec.xor_allOnes, BitVec.neg_eq_not_add, BitVec.not_not, BitVec.add_sub_cancel]
    · rfl
  have hReads := (reads_unpack32 d.toUInt32).map (f := fun n =>
    if n &&& 0x80000000 ≠ 0 then -(n ^^^ 0xFFFFFFFF).toInt32 - 1 else n.toInt32)
  rwa [hSame] at hReads

theorem reads_unpack64Signed (d : Int64) : Reads unpack64Signed (pack64Signed d) d := by
  rw [pack64Signed_eq]
  have hSame : (if d.toUInt64 &&& 0x8000000000000000 ≠ 0 then
      -(d.toUInt64 ^^^ 0xFFFFFFFFFFFFFFFF).toInt64 - 1 else d.toUInt64.toInt64) = d := by
    split
    · apply Int64.toBitVec_inj.mp
      show -(d.toBitVec ^^^ BitVec.allOnes 64) - 1#64 = d.toBitVec
      rw [BitVec.xor_allOnes, BitVec.neg_eq_not_add, BitVec.not_not, BitVec.add_sub_cancel]
    · rfl
  have hReads := (reads_unpack64 d.toUInt64).map (f := fun n =>
    if n &&& 0x8000000000000000 ≠ 0 then -(n ^^^ 0xFFFFFFFFFFFFFFFF).toInt64 - 1 else n.toInt64)
  rwa [hSame] at hReads

/-! ## Strings -/

@[simp] theorem length_pack8 (d : UInt32) : (pack8 d).length = 1 := length_beBytes 1 _

@[simp] theorem length_pack32 (d : UInt32) : (pack32 d).length = 4 := length_beBytes 4 _

@[simp] theorem length_pack64 (d : UInt64) : (pack64 d).length = 8 := length_beBytes 8 _

@[simp] theorem length_packStringN (s : Bytes) : (packStringN s).length = 4 + s.length := by
  simp [packStringN]

theorem reads_stringN (s : Bytes) : Reads unpackString (packStringN s) s := by
  intro pre post limit moves hSize hLimit hLe
  have hLength : (packStringN s).length = 4 + s.length := length_packStringN s
  have hTotal : pre.length + (4 + s.length) + post.length < 2 ^ 31 := by
    simp only [List.length_append, hLength] at hSize
    omega
  rw [hLength] at hLe
  have hParts : pre ++ (packStringN s ++ post) = pre ++ (pack32 (.ofNat s.length) ++ (s ++ post)) := by
    rw [packStringN, List.append_assoc]
  have hLeft : int32 (limit - pre.length) = limit - pre.length :=
    int32_of_range (by omega) (by omega)
  have hRest : int32 (limit - pre.length - 4) = limit - pre.length - 4 :=
    int32_of_range (by omega) (by omega)
  have hStart : int32 (pre.length + 4) = (pre.length + 4 : Nat) :=
    int32_of_range (by omega) (by omega)
  have hEnd : int32 ((pre.length + 4 : Nat) + s.length) = (pre.length + 4 : Nat) + s.length :=
    int32_of_range (by omega) (by omega)
  have hRoom : ¬ limit - pre.length < 4 := by omega
  have hFit : ¬ (s.length : Int) > limit - pre.length - 4 := by omega
  have hNatural : ¬ (s.length : Int) < 0 := by omega
  have hSmall : s.length < 2 ^ 32 := by omega
  have hLen : int32 s.length = s.length := int32_of_range (by omega) (by omega)
  have hNat : (UInt32.ofNat s.length).toNat = s.length := UInt32.toNat_ofNat_of_lt' hSmall
  have hNumber : unpackUINT 4 (pre ++ (packStringN s ++ post)) pre.length = (s.length, (4 : Int)) := by
    have hAppend := unpackUINT_append (hParts ▸ hSize)
    rw [length_pack32] at hAppend
    rw [hParts, hAppend, pack32, be_beBytes (UInt32.toNat_lt _), hNat]
    rfl
  have hBytes : ((pre ++ (packStringN s ++ post)).drop (pre.length + 4)).take s.length = s := by
    have hPre : (pre ++ pack32 (.ofNat s.length)).length = pre.length + 4 := by simp
    rw [hParts, ← List.append_assoc, ← hPre, List.drop_left, List.take_left]
  refine ⟨moves ++ [⟨pre.length, 4, 4⟩, ⟨(pre.length + 4 : Nat), s.length, s.length⟩], ?_⟩
  unfold unpackString
  dsimp only
  rw [hLeft, if_neg hRoom, hNumber]
  dsimp only
  rw [hLen, hRest, if_neg hFit, if_neg hNatural, hStart, hEnd, Int.toNat_natCast,
    Int.toNat_natCast, hBytes, hLength, Nat.cast_add, Nat.cast_add, Int.add_assoc]

theorem reads_string {s : Bytes} (h : (0 : UInt8) ∉ s) : Reads unpackString (packString s) s := by
  rw [packString, takeWhile_of_notMem h]
  exact reads_stringN s

/-! ## The parts of the attributes -/

/-- A 32-bit time. -/
def Fits32 (time : Int64) : Prop := time.toInt32.toInt64 = time

theorem reads_size (size : Int64) : Reads unpackSize (pack64 size.toUInt64) size :=
  (reads_unpack64 size.toUInt64).map

theorem reads_hint (hint : UInt8) : Reads unpackHint (pack8 hint.toUInt32) hint := by
  have hLt : hint.toUInt32.toNat < 256 := by
    rw [UInt8.toNat_toUInt32]
    exact hint.toNat_lt
  have hReads := (reads_unpack8 hLt).map (f := UInt32.toUInt8)
  rwa [UInt8.toUInt8_toUInt32] at hReads

theorem reads_time {flags flags' : UInt32} (h : flags' = flags) (time : Int64) (nseconds : UInt32) :
    Reads (unpackTime flags') (packTime flags time nseconds)
      (time, if Has flags attrSubsecondTimes then nseconds else 0) := by
  rw [h]
  exact (reads_unpack64Signed time).bind
    (Reads.map (.given Iff.rfl fun _ => reads_unpack32 nseconds))

theorem reads_acmodTime {atime mtime : Int64} (ha : Fits32 atime) (hm : Fits32 mtime) :
    Reads unpackACModTime (pack32Signed atime.toInt32 ++ pack32Signed mtime.toInt32)
      (atime, mtime) := by
  have hReads := (reads_unpack32Signed atime.toInt32).bind
    (f := fun a => unpack32Signed >>= fun m => pure (a.toInt64, m.toInt64))
    (Reads.map (reads_unpack32Signed mtime.toInt32))
  rwa [ha, hm] at hReads

theorem reads_uidGid (uid gid : UInt32) : Reads unpackUidGid (pack32 uid ++ pack32 gid) (uid, gid) :=
  (reads_unpack32 uid).bind (reads_unpack32 gid).map

theorem reads_ownerGroup {owner group : Bytes} (ho : (0 : UInt8) ∉ owner) (hg : (0 : UInt8) ∉ group) :
    Reads unpackOwnerGroup (packString owner ++ packString group) (owner, group) :=
  (reads_string ho).bind (reads_string hg).map

theorem reads_counted {α : Type} {u : Unpack α} {pack : α → Bytes} {count : UInt32} {l : List α}
    (hCount : count.toNat = l.length) (hu : ∀ a ∈ l, Reads u (pack a) a) :
    Reads (unpackCounted u) (pack32 count ++ (l.take count.toNat).flatMap pack) (count, l) := by
  refine (reads_unpack32 count).bind ?_
  rw [hCount, List.take_length]
  exact (Reads.times hu).map

theorem reads_bits (v : Int) (bits valid : UInt32) :
    Reads (unpackBits v) (pack32 bits ++ if v ≥ 6 then pack32 valid else [])
      (bits, if v ≥ 6 then valid else 0) :=
  (reads_unpack32 bits).bind (Reads.map (.given Iff.rfl fun _ => reads_unpack32 valid))

/-- The strings of an entry have no NUL. -/
def FileACE.NulFree (a : FileACE) : Prop := (0 : UInt8) ∉ a.who

def ExtFileAttr.NulFree (a : ExtFileAttr) : Prop :=
  (0 : UInt8) ∉ a.extendedType ∧ (0 : UInt8) ∉ a.extendedData

theorem reads_ace {a : FileACE} (h : a.NulFree) : Reads FileACE.unpack a.pack a :=
  (reads_unpack32 a.aceType).bind ((reads_unpack32 a.aceFlag).bind
    ((reads_unpack32 a.aceMask).bind (reads_string h).map))

theorem reads_ext {a : ExtFileAttr} (h : a.NulFree) : Reads ExtFileAttr.unpack a.pack a :=
  (reads_string h.1).bind (reads_string h.2).map

/-! ## The attributes -/

namespace FileAttrs

/-- What version `v` carries of attributes: what has no flag, or no place in this version,
is at its default. The versions below 4 have the type in the permissions, and the
modification time goes with the access time. -/
def carried (v : Int) (a : FileAttrs) : FileAttrs where
  flags := if v ≤ 3 ∧ Has a.flags attrAcmodtime then a.flags ||| attrModifytime else a.flags
  type :=
    if Has a.flags attrPermissions ∧ v ≤ 3 then typeOf a.permissions
    else if v ≥ 4 then (a.settled v).type else 0
  size := if Has a.flags attrSize then a.size else -1
  owner := if v ≥ 4 ∧ Has a.flags attrOwnergroup then a.owner else []
  group := if v ≥ 4 ∧ Has a.flags attrOwnergroup then a.group else []
  uid := if v ≤ 3 ∧ Has a.flags attrUidgid then a.uid else 0
  gid := if v ≤ 3 ∧ Has a.flags attrUidgid then a.gid else 0
  permissions := if Has a.flags attrPermissions then a.permissions else 0
  atime :=
    if v ≥ 4 ∧ Has a.flags attrAccesstime then a.atime
    else if v ≤ 3 ∧ Has a.flags attrAcmodtime then a.atime else -1
  atimeNseconds := if v ≥ 4 ∧ Has a.flags attrAccesstime then
    (if Has a.flags attrSubsecondTimes then a.atimeNseconds else 0) else 0
  createtime := if v ≥ 4 ∧ Has a.flags attrCreatetime then a.createtime else -1
  createtimeNseconds := if v ≥ 4 ∧ Has a.flags attrCreatetime then
    (if Has a.flags attrSubsecondTimes then a.createtimeNseconds else 0) else 0
  mtime :=
    if v ≥ 4 ∧ Has a.flags attrModifytime then a.mtime
    else if v ≤ 3 ∧ Has a.flags attrAcmodtime then a.mtime else -1
  mtimeNseconds := if v ≥ 4 ∧ Has a.flags attrModifytime then
    (if Has a.flags attrSubsecondTimes then a.mtimeNseconds else 0) else 0
  ctime := if v ≥ 5 ∧ Has a.flags attrCtime then a.ctime else -1
  ctimeNseconds := if v ≥ 5 ∧ Has a.flags attrCtime then
    (if Has a.flags attrSubsecondTimes then a.ctimeNseconds else 0) else 0
  aceCount := if v ≥ 4 ∧ Has a.flags attrAcl then a.aceCount else 0
  ace := if v ≥ 4 ∧ Has a.flags attrAcl then a.ace else []
  attribBits := if v ≥ 5 ∧ Has a.flags attrBits then a.attribBits else 0
  attribBitsValid := if v ≥ 5 ∧ Has a.flags attrBits then
    (if v ≥ 6 then a.attribBitsValid else 0) else 0
  textHint := if v ≥ 6 ∧ Has a.flags attrTextHint then a.textHint else 0
  mimeType := if v ≥ 6 ∧ Has a.flags attrMimeType then a.mimeType else []
  linkCount := if v ≥ 6 ∧ Has a.flags attrLinkCount then a.linkCount else 0
  untranslatedName := if v ≥ 6 ∧ Has a.flags attrUntranslatedName then a.untranslatedName else []
  extendedCount := if Has a.flags attrExtended then a.extendedCount else 0
  extendedAttrs := if Has a.flags attrExtended then a.extendedAttrs else []

/-- Attributes that may be sent with version `v`. -/
structure Sendable (v : Int) (a : FileAttrs) : Prop where
  version : 2 ≤ v ∧ v ≤ 6
  mask : a.flags &&& flagsMask v = a.flags
  type : v ≥ 4 → a.type.toNat < 256
  owner : (0 : UInt8) ∉ a.owner
  group : (0 : UInt8) ∉ a.group
  mimeType : (0 : UInt8) ∉ a.mimeType
  untranslatedName : (0 : UInt8) ∉ a.untranslatedName
  times : v ≤ 3 → Fits32 a.atime ∧ Fits32 a.mtime
  nseconds : a.atimeNseconds ≤ 999999999 ∧ a.createtimeNseconds ≤ 999999999
    ∧ a.mtimeNseconds ≤ 999999999 ∧ a.ctimeNseconds ≤ 999999999
  ace : a.aceCount.toNat = a.ace.length ∧ ∀ e ∈ a.ace, e.NulFree
  extended : a.extendedCount.toNat = a.extendedAttrs.length ∧ ∀ e ∈ a.extendedAttrs, e.NulFree

end FileAttrs

theorem has_or {flags bit bit' : UInt32} (h : bit &&& bit' = 0) :
    Has (flags ||| bit) bit' ↔ Has flags bit' := by
  have hEq : (flags ||| bit) &&& bit' = flags &&& bit' := by
    apply UInt32.eq_of_toBitVec_eq
    have hBits : bit.toBitVec &&& bit'.toBitVec = 0#32 := congrArg UInt32.toBitVec h
    show (flags.toBitVec ||| bit.toBitVec) &&& bit'.toBitVec = flags.toBitVec &&& bit'.toBitVec
    rw [BitVec.and_or_distrib_right, hBits, BitVec.or_zero]
  unfold Has
  rw [hEq]

/-- A flag outside the mask is not set. -/
theorem not_has_of_mask {flags mask bit : UInt32} (hMask : flags &&& mask = flags)
    (hBit : mask &&& bit = 0) : ¬ Has flags bit := by
  intro hHas
  apply hHas
  rw [← hMask, UInt32.and_assoc, hBit, UInt32.and_zero]

theorem typeOf_lt (permissions : UInt32) : (typeOf permissions).toNat < 256 := by
  unfold typeOf
  split <;> decide

theorem typeOf_ne_zero (permissions : UInt32) : typeOf permissions ≠ 0 := by
  unfold typeOf
  split <;> decide

theorem or_and_ne_zero (flags : UInt32) : (flags ||| attrAcmodtime) &&& attrAccesstime ≠ 0 := by
  intro h
  have hBit := congrArg (fun n : UInt32 => n.toBitVec.getLsbD 3) h
  simp [attrAcmodtime, attrAccesstime] at hBit

namespace FileAttrs

theorem acmod_of_new {v : Int} (hv : v ≥ 4) (a : FileAttrs) : a.acmod v = a :=
  if_neg fun hOld => by have := hOld.1; omega

theorem typed_of_old {v : Int} (hv : v ≤ 3) (a : FileAttrs) : a.typed v = a :=
  if_neg fun hNew => by have := hNew.1; omega

/-- Within the mask, `Pack` only settles the type. -/
theorem settled_eq {v : Int} {a : FileAttrs} (hMask : a.flags &&& flagsMask v = a.flags) :
    a.settled v = { a with type := (a.settled v).type } := by
  have hNone : ¬ (v ≤ 3 ∧ Has a.flags attrModifytime ∧ ¬ Has a.flags attrAccesstime) := by
    rintro ⟨hOld, hModify, -⟩
    rw [flagsMask, if_neg (by omega), if_neg (by omega), if_neg (by omega)] at hMask
    exact not_has_of_mask hMask (by decide) hModify
  rw [settled, acmod, if_neg hNone, typed]
  split <;> rfl

theorem settled_type_lt {v : Int} {a : FileAttrs} (h : a.Sendable v) (hv : v ≥ 4) :
    (a.settled v).type.toNat < 256 := by
  rw [settled, acmod_of_new hv, typed]
  split
  · exact typeOf_lt _
  · exact h.type hv

/-- What was packed once is packed to the same bytes again: `ComputeLength` packs first. -/
theorem pack_settled (v : Int) (a : FileAttrs) : (a.settled v).pack v = a.pack v := by
  have hSettled : (a.settled v).settled v = a.settled v := by
    rcases lt_or_ge v 4 with hOld | hNew
    · have hOld : v ≤ 3 := by omega
      simp only [settled, typed_of_old hOld]
      unfold acmod
      by_cases hCond : v ≤ 3 ∧ Has a.flags attrModifytime ∧ ¬ Has a.flags attrAccesstime
      · rw [if_pos hCond]
        refine if_neg fun hAgain => hAgain.2.2 ?_
        show (a.flags ||| attrAcmodtime) &&& attrAccesstime ≠ 0
        exact or_and_ne_zero a.flags
      · rw [if_neg hCond, if_neg hCond]
    · simp only [settled, acmod_of_new hNew]
      unfold typed
      by_cases hCond : v ≥ 4 ∧ a.type = 0
      · rw [if_pos hCond]
        exact if_neg fun hAgain => typeOf_ne_zero _ hAgain.2
      · rw [if_neg hCond, if_neg hCond]
  unfold pack
  rw [hSettled]

theorem given_nseconds_le {p q : Prop} [Decidable p] [Decidable q] {n : UInt32}
    (h : n ≤ 999999999) : (if p then (if q then n else 0) else 0) ≤ 999999999 := by
  split
  · split
    · exact h
    · decide
  · decide

/-- The fields are read back one by one. -/
theorem reads_fields {v : Int} {a : FileAttrs} (h : a.Sendable v) :
    Reads (unpack v) (packFields v { a with type := (a.settled v).type }) (a.carried v) := by
  obtain ⟨haTime, hcTime, hmTime, hxTime⟩ := h.nseconds
  generalize hF : (if v ≤ 3 ∧ Has a.flags attrAcmodtime then a.flags ||| attrModifytime
    else a.flags) = flags'
  -- the flag that is added does not matter for what follows
  have hNew : v ≥ 4 → flags' = a.flags := fun hv => by rw [← hF, if_neg fun hOld => by omega]
  have hIff : ∀ n ≥ 4, ∀ bit, (v ≥ n ∧ Has flags' bit) ↔ (v ≥ n ∧ Has a.flags bit) := by
    intro n hn bit
    constructor <;> rintro ⟨hv, hHas⟩
    · exact ⟨hv, hNew (by omega) ▸ hHas⟩
    · exact ⟨hv, (hNew (by omega)).symm ▸ hHas⟩
  have hExtended : Has flags' attrExtended ↔ Has a.flags attrExtended := by
    rw [← hF]
    split
    · exact has_or (by decide)
    · exact Iff.rfl
  unfold packFields unpack
  dsimp only
  rw [h.mask]
  refine (reads_unpack32 _).bind ?_
  refine (Reads.given Iff.rfl fun hv => reads_unpack8 (settled_type_lt h hv)).bind ?_
  refine (Reads.given Iff.rfl fun _ => reads_size _).bind ?_
  refine (Reads.given_pair Iff.rfl fun _ => reads_uidGid _ _).bind ?_
  refine (Reads.given_pair Iff.rfl fun _ => reads_ownerGroup h.owner h.group).bind ?_
  refine (Reads.given Iff.rfl fun _ => reads_unpack32 _).bind ?_
  refine (Reads.given_pair Iff.rfl fun hOld =>
    reads_acmodTime (h.times hOld.1).1 (h.times hOld.1).2).bind ?_
  dsimp only
  rw [hF]
  refine (Reads.given_pair (hIff 4 le_rfl _) fun hv => reads_time (hNew hv.1) _ _).bind ?_
  refine (Reads.given_pair (hIff 4 le_rfl _) fun hv => reads_time (hNew hv.1) _ _).bind ?_
  refine (Reads.given_pair (hIff 4 le_rfl _) fun hv => reads_time (hNew hv.1) _ _).bind ?_
  refine (Reads.given_pair (hIff 5 (by decide) _) fun hv =>
    reads_time (hNew (by have := hv.1; omega)) _ _).bind ?_
  refine Reads.bind (s := []) (Reads.require ⟨given_nseconds_le haTime, given_nseconds_le hcTime,
    given_nseconds_le hmTime, given_nseconds_le hxTime⟩) ?_
  refine (Reads.given_pair (hIff 4 le_rfl _) fun _ =>
    reads_counted h.ace.1 fun e he => reads_ace (h.ace.2 e he)).bind ?_
  refine (Reads.given_pair (hIff 5 (by decide) _) fun _ => reads_bits v _ _).bind ?_
  refine (Reads.given (hIff 6 (by decide) _) fun _ => reads_hint _).bind ?_
  refine (Reads.given (hIff 6 (by decide) _) fun _ => reads_string h.mimeType).bind ?_
  refine (Reads.given (hIff 6 (by decide) _) fun _ => reads_unpack32 _).bind ?_
  refine (Reads.given (hIff 6 (by decide) _) fun _ => reads_string h.untranslatedName).bind ?_
  refine (Reads.given_pair hExtended fun _ =>
    reads_counted h.extended.1 fun e he => reads_ext (h.extended.2 e he)).map_eq ?_
  subst hF
  unfold carried
  congr 1
  by_cases hPermissions : Has a.flags attrPermissions ∧ v ≤ 3
  · rw [if_pos hPermissions, if_pos hPermissions, if_pos hPermissions.1]
  · rw [if_neg hPermissions, if_neg hPermissions]

theorem reads_pack {v : Int} {a : FileAttrs} (h : a.Sendable v) :
    Reads (unpack v) (a.pack v) (a.carried v) := by
  have hReads := reads_fields h
  rw [← settled_eq h.mask] at hReads
  exact hReads

end FileAttrs

/-! ## Lengths -/

namespace Request

@[simp] theorem length_packString (s : Bytes) : (packString s).length = 4 + strlen s :=
  length_packStringN _

theorem length_packetPack (length : Int) (t : PacketType) (id : UInt32) :
    ((packetPack length t id).length : Int) = 4 + packetLength t := by
  cases h : t.hasID <;> simp [packetPack, packetLength, h]

theorem attrs_computeLength {v : Int} {a : FileAttrs} (h : (a.pack v).length < 2 ^ 31) :
    a.computeLength v = (a.pack v).length :=
  int32_of_range (by omega) (by omega)

theorem packetLength_pos (t : PacketType) : 1 ≤ packetLength t := by
  unfold packetLength
  split <;> omega

/-- `ComputeLength` counts what is packed, up to the length and after it. -/
theorem computeLength_eq {v : Int} {r : Request}
    (h : packetLength r.type + (r.packBody v).length < 2 ^ 31) :
    r.computeLength v = packetLength r.type + (r.packBody v).length := by
  have hPos := packetLength_pos r.type
  have hTotal : int32 (packetLength r.type + (r.packBody v).length)
      = packetLength r.type + (r.packBody v).length := int32_of_range (by omega) h
  rw [← hTotal]
  unfold computeLength
  congr 1
  have h : (r.packBody v).length < 2 ^ 31 := by omega
  clear hTotal hPos
  have hAttrs : ∀ {t : PacketType} {s : Bytes} {a : FileAttrs}, (a.pack v).length < 2 ^ 31 →
      attrsLength v t s a = packetLength t + ((4 + s.length) + (a.pack v).length) := by
    intro t s a hLt
    rw [attrsLength, stringLength, attrs_computeLength hLt, Int.add_assoc]
  cases r with
  | «open» s pflags desiredAccess flags a =>
      simp only [packBody, List.length_append, length_packStringN, apply_ite List.length,
        length_pack32, List.length_nil] at h ⊢
      rw [hAttrs (by omega)]
      simp only [type]
      rcases lt_or_ge v 5 with hOld | hNew
      · rw [if_neg (by omega), if_pos (by omega), if_neg (by omega)]
        omega
      · rw [if_pos hNew, if_neg (by omega), if_pos hNew]
        omega
  | fsetstat s a | setstat s a | mkdir s a =>
      simp only [packBody, List.length_append, length_packStringN] at h ⊢
      rw [hAttrs (by omega)]
      simp only [type]
      omega
  | fstat s flags | stat s flags =>
      simp only [packBody, type, fstatLength, stringLength, List.length_append, length_packStringN,
        apply_ite List.length, length_pack32, List.length_nil]
      split <;> omega
  | rename oldpath newpath flags =>
      simp only [packBody, type, List.length_append, length_packString, apply_ite List.length,
        length_pack32, List.length_nil]
      split <;> omega
  | _ =>
      simp only [packBody, type, stringLength, List.length_append, length_packStringN,
        length_packString, length_pack32, length_pack64, length_pack8]
      omega

/-- A request is packed to four bytes more than its length. -/
theorem length_pack {v : Int} {id : UInt32} {r : Request} (h : (r.pack v id).length < 2 ^ 31) :
    ((r.pack v id).length : Int) = 4 + r.computeLength v := by
  have hLength : ((r.pack v id).length : Int) = 4 + (packetLength r.type + (r.packBody v).length) := by
    rw [pack, List.length_append, Nat.cast_add, length_packetPack, Int.add_assoc]
  rw [hLength, computeLength_eq (by omega)]

end Request

/-! ## The result -/

/-- What is packed of attributes is unpacked wherever it stands, and no more than that;
`ComputeLength` is its size, also after it has packed the attributes once; and every
request is packed to four bytes more than its length. -/
theorem attrs_roundtrip (v : Int) (a : FileAttrs) (h : a.Sendable v) :
    Reads (FileAttrs.unpack v) (a.pack v) (a.carried v)
      ∧ ((a.pack v).length < 2 ^ 31 → a.computeLength v = (a.pack v).length)
      ∧ (a.settled v).pack v = a.pack v
      ∧ ∀ (r : Request) (id : UInt32), (r.pack v id).length < 2 ^ 31 →
        ((r.pack v id).length : Int) = 4 + r.computeLength v := by
  exact ⟨FileAttrs.reads_pack h, Request.attrs_computeLength, FileAttrs.pack_settled v a,
    fun r id => Request.length_pack⟩

/-- The times of an old version. -/
def oldTimes : FileAttrs := { flags := attrAcmodtime, atime := 0, mtime := 0 }

theorem sendable_oldTimes : oldTimes.Sendable 3 :=
  ⟨by decide, by decide, nofun, nofun, nofun, nofun, nofun, fun _ => ⟨rfl, rfl⟩, by decide,
    ⟨rfl, nofun⟩, ⟨rfl, nofun⟩⟩

theorem attrs_roundtrip_oldTimes : Reads (FileAttrs.unpack 3) (oldTimes.pack 3)
    { oldTimes with flags := attrAcmodtime ||| attrModifytime } :=
  (attrs_roundtrip 3 oldTimes sendable_oldTimes).1

theorem not_roundtrip : oldTimes.Sendable 3
    ∧ ¬ Reads (FileAttrs.unpack 3) (oldTimes.pack 3) oldTimes := by
  refine ⟨sendable_oldTimes, fun hSame => ?_⟩
  have hCarried := FileAttrs.reads_pack sendable_oldTimes
  have hFlags := congrArg FileAttrs.flags (hCarried.unique hSame (by decide))
  exact absurd hFlags (by decide)

end Lftp.Ports.SFtp
