import Lftp.Verified.Decimal
import Lftp.Verified.Excerpt
import Lftp.Verified.Outcome
import Lftp.Verified.Runs

/-!
# `FileCopy::Do`

A copy has two peers, `get` and `put`. Each call of `Do` compares where they
stand, makes one seek after the other when they are apart, and otherwise hands
what `get` has to `put`, through `line_buffer` if there is one. Between the calls
the peers move on their own account: the data comes in pieces of any size, either
side may roll back or go forward, and the range may be set.

The phases before `DO_COPY` are left out, and so is what follows `CONFIRM_WAIT`:
nothing is handed over there. Of the calls that `Do` makes on the peers those
are left out that change what `Do` does not read: rates, dates, suspension.

The check of the positions counts the bytes in `line_buffer` and does not see
where they came from. So it takes old bytes for new ones when both sides moved by
the same distance, and a limit set below them is not applied to them (`Settled`).
The distances are cut to an `int`, and a skip may be negative when the ranges of
the two sides start apart (`Skippable`).

* `Inv` holds between the calls, `Lined` from the check of the positions on.
* `copy_exact` is the result over runs.
-/

namespace Lftp.Ports.FileCopy

open Lftp.Verified

/-- `FILE_END`. -/
def fileEnd : Int := -1

/-- `NO_SIZE`. -/
def noSize : Int := -1

/-- `NO_SIZE_YET`. -/
def noSizeYet : Int := -2

/-- `skip_threshold`. -/
def skipThreshold : Int := 0x1000

/-- An `off_t` where an `int` is wanted. -/
def toInt (n : Int) : Int := n.bmod (2 ^ 32)

/-- A read outside of the memory that holds the data. -/
inductive Fault
  | outside

/-- `DirectedBuffer::dir_t`. -/
inductive Dir
  | get
  | put
  deriving DecidableEq

/-- `FileCopyPeer`, and of `Buffer` what is in it: `buffer`, of which the first
`buffer_ptr` bytes were skipped. -/
structure Peer where
  mode : Dir
  buffer : Bytes
  bufferPtr : Nat
  pos : Int
  eof : Bool
  broken : Bool
  errorText : Option String
  size : Int
  seekPos : Int
  canSeek : Bool
  canSeek0 : Bool
  removing : Bool
  done : Bool
  rangeStart : Int
  rangeLimit : Int

namespace Peer

/-- `Buffer::Get`: the data, when there is any. -/
def data (p : Peer) : Bytes := p.buffer.drop p.bufferPtr

/-- `Buffer::Size`. -/
def bufferSize (p : Peer) : Nat := p.buffer.length - p.bufferPtr

/-- `Buffer::Empty`. -/
def empty (p : Peer) : Peer := { p with buffer := [], bufferPtr := 0 }

/-- `Buffer::Put`. -/
def append (p : Peer) (b : Bytes) : Peer :=
  { p with buffer := p.buffer ++ b, pos := p.pos + b.length }

/-- `buffer_ptr+=len; pos+=len;` -/
def advance (p : Peer) (len : Int) : Peer :=
  { p with bufferPtr := (p.bufferPtr + len).toNat, pos := p.pos + len }

/-- `Buffer::Skip`. A negative length goes back to bytes already skipped, and
past the first of them out of the memory. -/
def skip (p : Peer) (len : Int) : Except Fault Peer :=
  let len := if len > p.bufferSize then (p.bufferSize : Int) else len
  if p.bufferPtr + len < 0 then .error .outside
  else .ok (p.advance len)

/-- `FileCopyPeer::CanSeek(off_t)`. -/
def canSeekTo (p : Peer) (offs : Int) : Bool := if offs = 0 then p.canSeek0 else p.canSeek

/-- `FileCopyPeer::Seek`. What a derived class adds to it is left to the peer. -/
def seek (p : Peer) (offs : Int) : Peer :=
  { p.empty with
    seekPos := offs
    pos := if p.mode = .put then p.pos - p.bufferSize else p.pos
    eof := false
    broken := false }

/-- `FileCopyPeer::SetRange`. -/
def setRange (p : Peer) (s lim : Int) : Peer :=
  let p := { p with rangeStart := s, rangeLimit := lim }
  if p.mode = .put ∨ s > p.pos + 0x4000 then p.seek s else p

/-- What `FileCopyPeer::GetSize` does before it returns `size`. -/
def getSize (p : Peer) : Peer :=
  if 0 ≤ p.size ∧ p.pos > p.size then { p with size := noSizeYet } else p

/-- `FileCopyPeer::SetSize`. -/
def setSize (p : Peer) (s : Int) : Peer :=
  { p with
    size := s
    seekPos :=
      if p.seekPos = fileEnd then (if s ≠ noSize ∧ s ≠ noSizeYet then s else 0) else p.seekPos }

/-- `FileCopyPeer::Done`. -/
def isDone (p : Peer) : Bool :=
  if p.errorText.isSome then true
  else if p.eof ∧ p.bufferSize = 0 then
    if p.removing then false else if p.mode = .put then p.done else true
  else p.broken

end Peer

/-- A call of `put->Put`: the two sides and the size of `line_buffer` as the call
finds them, and the bytes. -/
structure Handover where
  get : Peer
  put : Peer
  lineSize : Nat
  bytes : Bytes

/-- `FileCopy::state_t`, as far as it occurs here. -/
inductive State
  | doCopy
  | confirmWait
  | getDoneWait
  deriving DecidableEq

/-- The members of `FileCopy` that a transfer uses. `handed` and `lineEnd` are no
members: they record the calls of `put->Put`, the last one first, and where `get`
stood when `line_buffer` was last added to. -/
structure Copier where
  state : State
  errorText : Option String
  get : Peer
  put : Peer
  lineBuffer : Option Bytes
  lineBufferMax : Int
  putEofPos : Int
  failIfCannotSeek : Bool
  failIfBroken : Bool
  handed : List Handover
  lineEnd : Int

namespace Copier

/-- What is in `line_buffer`. -/
def line (c : Copier) : Bytes := c.lineBuffer.getD []

/-- `lbsize`. -/
def lbsize (c : Copier) : Nat := c.line.length

/-- `get_pos`. -/
def getPos (c : Copier) : Int := c.get.pos - c.get.rangeStart

/-- `put_pos`. -/
def putPos (c : Copier) : Int := c.put.pos - c.put.rangeStart

/-- `FileCopy::SetError`. -/
def setError (c : Copier) (str : Option String) : Copier := { c with errorText := str }

/-- `put->Put(b,s)`. -/
def putBytes (c : Copier) (b : Bytes) : Copier :=
  { c with put := c.put.append b, handed := ⟨c.get, c.put, c.lbsize, b⟩ :: c.handed }

/-- `put->Put(lb,n); line_buffer->Skip(n);` -/
def putLine (c : Copier) (n : Nat) : Copier :=
  { c.putBytes (c.line.take n) with lineBuffer := c.lineBuffer.map fun l => l.drop n }

/-! ### The end of the transfer -/

/-- The label `pre_GET_DONE_WAIT`. -/
def getDoneWait (c : Copier) : Copier :=
  { c with get := { c.get.empty with eof := true }, state := .getDoneWait }

/-- The case `CONFIRM_WAIT`. -/
def confirmWait (c : Copier) : Copier :=
  if c.put.errorText.isSome then c.setError c.put.errorText
  else if c.putEofPos ≠ c.put.pos ∨ c.put.seekPos = fileEnd then { c with state := .doCopy }
  else if ¬ c.put.isDone then c
  else c.getDoneWait

/-- `FileCopy::CheckFileSizeAtEOF`, after its call of `GetSize`. -/
def checkFileSizeAtEOF (c : Copier) : Bool :=
  if c.get.rangeLimit = fileEnd ∧ (c.get.size = noSize ∨ c.get.size = noSizeYet) then true
  else
    let rangeLimit := if c.get.rangeLimit = fileEnd then c.get.size else c.get.rangeLimit
    let pos := max c.get.pos c.put.pos
    pos ≤ 0 ∨ rangeLimit ≤ pos

/-- The label `eof`, up to the state `CONFIRM_WAIT` and into it. -/
def eof (c : Copier) : Copier :=
  let c := if c.lineBuffer.isSome then c.putLine c.lbsize else c
  let c := { c with get := c.get.getSize }
  if ¬ c.checkFileSizeAtEOF then c.setError "file size decreased during transfer"
  else
    { c with
      put := { c.put with eof := true }
      putEofPos := c.put.pos
      state := .confirmWait }.confirmWait

/-! ### The case `DO_COPY` -/

/-- The ways out before the positions are looked at. -/
def early (c : Copier) (timedOut : Bool) : Option Copier :=
  if c.put.errorText.isSome then some (c.setError c.put.errorText)
  else if c.get.errorText.isSome ∧ c.get.bufferSize = 0 then
    some ({ c with put := if c.put.pos > 0 then { c.put with eof := true } else c.put }.setError
      c.get.errorText)
  else if c.put.broken then
    if ¬ c.put.isDone then some c
    else if c.failIfBroken then some (c.setError "Broken pipe")
    else some c.getDoneWait
  else if c.put.seekPos = fileEnd then some c
  else if c.failIfCannotSeek ∧ (c.get.pos < c.get.rangeStart ∨ c.put.pos < c.put.rangeStart ∨
      c.get.pos ≠ c.put.pos) then
    some (c.setError "seek failed")
  else if timedOut then some (c.setError "no progress timeout")
  else none

/-- `if(get->GetSize()>0 && get->GetRealPos()>get->GetSize()) get->SetSize(NO_SIZE_YET);` -/
def checkSize (c : Copier) : Copier :=
  let get := c.get.getSize
  { c with get := if get.size > 0 ∧ get.pos > get.size then get.setSize noSizeYet else get }

/-- What the code compares: `get_pos-lbsize` and `put_pos`. -/
def Agree (c : Copier) : Prop := c.getPos - c.lbsize = c.putPos

instance (c : Copier) : Decidable c.Agree := inferInstanceAs (Decidable (_ = _))

/-- `put` is at the end of the file. -/
def AllReceived (c : Copier) : Prop := 0 ≤ c.get.size ∧ c.put.pos ≥ c.get.size

instance (c : Copier) : Decidable c.AllReceived := inferInstanceAs (Decidable (_ ∧ _))

/-- How much `get` is to skip to get where `put` is. -/
def skipLen (c : Copier) : Int :=
  let skip := c.put.pos - c.get.pos
  if skip > c.get.bufferSize then (c.get.bufferSize : Int) else skip

/-- `if(line_buffer) line_buffer->Empty();` -/
def emptyLine (c : Copier) : Copier := { c with lineBuffer := c.lineBuffer.map fun _ => [] }

/-- The branch for `put_pos > get_pos`, after its call of `GetSize`. -/
def catchUp (c : Copier) : Except Fault Copier :=
  if c.AllReceived then .ok c.eof
  else if ¬ c.put.canSeekTo c.get.pos ∨ c.put.pos - c.get.pos < skipThreshold then
    if c.skipLen = 0 then .ok c
    else do
      let get ← c.get.skip (toInt c.skipLen)
      return { c with get }
  else .ok { c with put := c.put.seek c.get.pos }

/-- The branch for positions that do not agree. -/
def realign (c : Copier) : Except Fault Copier :=
  let c := c.emptyLine
  if c.getPos = c.putPos then .ok c
  else if c.putPos < c.getPos then
    if ¬ c.get.canSeekTo c.put.pos then .ok (c.setError "cannot seek on data source")
    else .ok { c with get := c.get.seek c.put.pos }
  else { c with get := c.get.getSize }.catchUp

/-- The number of bytes up to the last newline, `memrchr`. -/
def throughEol (l : Bytes) : Option Nat :=
  (l.reverse.idxOf? (ch '\n')).map fun i => l.length - i

/-- `line_buffer` goes to `put` up to the last newline, or as a whole at the end. -/
def putEol (c : Copier) : Copier :=
  let eol := if c.get.eof ∨ c.get.errorText.isSome then some c.lbsize else throughEol c.line
  match eol with
  | some n => c.putLine n
  | none => c

/-- The data goes through `line_buffer`. -/
def copyLines (c : Copier) (b : Bytes) : Except Fault Copier := do
  let c := if (c.lbsize : Int) > c.lineBufferMax then c.putLine c.lbsize else c
  let get ← c.get.skip b.length
  return { c with get, lineBuffer := some (c.line ++ b), lineEnd := get.pos }.putEol

/-- The data goes to `put` at once. -/
def copyBytes (c : Copier) (b : Bytes) : Except Fault Copier := do
  let c := c.putBytes b
  let get ← c.get.skip b.length
  return { c with get }

/-- `if(line_buffer)` … `else` … -/
def copyData (c : Copier) (b : Bytes) : Except Fault Copier :=
  if c.lineBuffer.isSome then c.copyLines b else c.copyBytes b

/-- The number of bytes to copy, cut at `range_limit`. -/
def cut (c : Copier) : Int :=
  let s : Int := c.get.bufferSize
  if c.get.rangeLimit ≠ fileEnd ∧ c.get.rangeLimit < c.get.pos + s then
    max 0 (toInt (c.get.rangeLimit - c.get.pos))
  else s

/-- From the check of the positions on. -/
def transfer (c : Copier) : Except Fault Copier :=
  if c.get.bufferSize = 0 ∧ c.get.eof then .ok c.eof
  else if c.get.bufferSize = 0 then .ok c
  else if c.cut > c.get.bufferSize then .error .outside
  else do
    let c ← c.copyData (c.get.data.take c.cut.toNat)
    return if c.get.rangeLimit ≠ fileEnd ∧ c.get.rangeLimit ≤ c.get.pos then c.eof else c

/-- The case `DO_COPY`. -/
def doCopy (c : Copier) (timedOut : Bool) : Except Fault Copier :=
  match c.early timedOut with
  | some c => .ok c
  | none =>
    let c := c.checkSize
    if ¬ c.Agree then c.realign else c.transfer

/-- `FileCopy::Do`. -/
def run (c : Copier) (timedOut : Bool) : Except Fault Copier :=
  if c.errorText.isSome then .ok c
  else match c.state with
  | .doCopy => c.doCopy timedOut
  | .confirmWait => .ok c.confirmWait
  | .getDoneWait => .ok c

/-- `FileCopy::SetRange`. -/
def setRange (c : Copier) (s lim : Int) : Copier :=
  { c with get := c.get.setRange s lim, put := c.put.setRange s lim }

/-- `FileCopy::SetRangeLimit`. -/
def setRangeLimit (c : Copier) (lim : Int) : Copier :=
  { c with get := { c.get with rangeLimit := lim } }

/-- `FileCopy::LineBuffered`. -/
def lineBuffered (c : Copier) (s : Int) : Copier :=
  { c with lineBuffer := some c.line, lineBufferMax := s }

end Copier

/-! ## The transfer as a system -/

/-- What happens to a copy: a call of `Do`, what the two sides do by themselves,
and the calls from outside. -/
inductive Event
  | run (timedOut : Bool)
  | peers (get put : Peer)
  | setRange (s lim : Int)
  | setRangeLimit (lim : Int)
  | lineBuffered (size : Int)
  | failIfCannotSeek
  | dontFailIfBroken

def act (c : Copier) : Event → Except Fault Copier
  | .run timedOut => c.run timedOut
  | .peers get put => .ok { c with get, put }
  | .setRange s lim => .ok (c.setRange s lim)
  | .setRangeLimit lim => .ok (c.setRangeLimit lim)
  | .lineBuffered size => .ok (c.lineBuffered size)
  | .failIfCannotSeek => .ok { c with failIfCannotSeek := true }
  | .dontFailIfBroken => .ok { c with failIfBroken := false }

/-- The source side has read the source: what is in its buffer, skipped or not, is
what the source holds around its position. -/
structure Peer.Serves (src : Int → UInt8) (p : Peer) : Prop where
  ptr_le : p.bufferPtr ≤ p.buffer.length
  length_lt : p.buffer.length < 2 ^ 31
  excerpt : Excerpt src (p.pos - p.bufferPtr) p.buffer

/-- Whatever the sides do, the data `get` has is the source's. -/
def Event.Serves (src : Int → UInt8) : Event → Prop
  | .peers get _ => get.Serves src
  | _ => True

/-- The transfer begins: nothing is buffered in the copier, nothing handed over. -/
structure Start (src : Int → UInt8) (c : Copier) : Prop where
  state : c.state = .doCopy
  no_error : c.errorText = none
  line : c.line = []
  handed : c.handed = []
  serves : c.get.Serves src

/-- The steps of a copy whose events meet `ok`. -/
def Step (ok : Copier → Event → Prop) (c : Copier) (e : Event) (c' : Copier) : Prop :=
  ok c e ∧ act c e = .ok c'

/-- Where the first byte handed over comes from, if it is where it belongs: the
offset from the start of the range is the same on both sides. -/
def Handover.offset (h : Handover) : Int := h.put.pos - h.put.rangeStart + h.get.rangeStart

/-- The bytes handed over are where they belong: the two positions agree, each byte
is the source's at the offset it is written at, and all are below `range_limit`. -/
structure Handover.Placed (src : Int → UInt8) (h : Handover) : Prop where
  agree : h.bytes ≠ [] →
    h.get.pos - h.get.rangeStart - h.lineSize = h.put.pos - h.put.rangeStart
  exact : Excerpt src h.offset h.bytes
  below : h.get.rangeLimit ≠ fileEnd → h.bytes ≠ [] →
    h.offset + h.bytes.length ≤ h.get.rangeLimit

/-! ## Where the defects are -/

/-- A call that finds the positions in agreement finds `line_buffer` as it should
be: `get` stands where the last byte of it came from, and before the range limit;
and the limit is not so far behind `get` that an `int` takes the difference for a
positive number. -/
structure Copier.Settled (c : Copier) : Prop where
  still : c.line ≠ [] → c.get.pos = c.lineEnd
  within : c.line ≠ [] → 0 < c.get.bufferSize ∨ c.get.eof → c.get.rangeLimit ≠ fileEnd →
    c.get.pos ≤ c.get.rangeLimit
  near : 0 < c.get.bufferSize → c.get.rangeLimit ≠ fileEnd → c.get.rangeLimit < c.get.pos →
    toInt (c.get.rangeLimit - c.get.pos) ≤ 0

/-- A call that finds `get` behind `put` does not make it go back, or no further
than its buffer reaches. -/
def Copier.Skippable (c : Copier) : Prop :=
  c.getPos < c.putPos → ¬ c.AllReceived → 0 ≤ c.get.bufferPtr + toInt c.skipLen

/-- The calls of `Do` that do not meet the defects. -/
def Clean (c : Copier) : Event → Prop
  | .run timedOut => c.errorText = none → c.state = .doCopy → c.early timedOut = none →
      (c.checkSize.Agree → c.checkSize.Settled) ∧
      (¬ c.checkSize.Agree → c.checkSize.Skippable)
  | _ => True

/-! ## The source side -/

section Serves

variable {src : Int → UInt8} {p : Peer}

theorem Peer.Serves.empty (p : Peer) : p.empty.Serves src :=
  ⟨Nat.zero_le _, by simp [Peer.empty], excerpt_nil⟩

theorem Peer.Serves.seek (p : Peer) (offs : Int) : (p.seek offs).Serves src :=
  ⟨Nat.zero_le _, by simp [Peer.seek, Peer.empty], excerpt_nil⟩

theorem Peer.Serves.setRange (h : p.Serves src) (s lim : Int) : (p.setRange s lim).Serves src := by
  unfold Peer.setRange
  dsimp only
  split
  · exact Peer.Serves.seek _ s
  · exact ⟨h.ptr_le, h.length_lt, h.excerpt⟩

theorem Peer.Serves.getSize (h : p.Serves src) : p.getSize.Serves src := by
  unfold Peer.getSize
  split
  · exact ⟨h.ptr_le, h.length_lt, h.excerpt⟩
  · exact h

/-- What the buffer holds and was not skipped is the source's from the position on. -/
theorem Peer.Serves.data (h : p.Serves src) : Excerpt src p.pos p.data := by
  have hDrop := h.excerpt.drop p.bufferPtr
  rw [List.length_take, Nat.min_eq_left h.ptr_le, Int.sub_add_cancel] at hDrop
  exact hDrop

theorem Peer.Serves.advance (h : p.Serves src) {len : Int} (hBack : 0 ≤ p.bufferPtr + len)
    (hLen : len ≤ p.bufferSize) : (p.advance len).Serves src := by
  have hPtr := h.ptr_le
  unfold Peer.bufferSize at hLen
  refine ⟨?_, h.length_lt, ?_⟩
  · simp only [Peer.advance]
    omega
  · have hStart : p.pos + len - ((p.bufferPtr + len).toNat : Int) = p.pos - p.bufferPtr := by
      omega
    simp only [Peer.advance]
    rw [hStart]
    exact h.excerpt

/-- `Skip` goes where it is told, as far as there is data. -/
theorem Peer.skip_eq {len : Int} (hBack : 0 ≤ p.bufferPtr + len) :
    p.skip len = .ok (p.advance (min len p.bufferSize)) := by
  unfold Peer.skip
  dsimp only
  rcases le_or_gt len p.bufferSize with hLe | hGt
  · rw [if_neg (not_lt.mpr hLe), if_neg (not_lt.mpr hBack), min_eq_left hLe]
  · rw [if_pos hGt, if_neg (by omega), min_eq_right hGt.le]

end Serves

/-! ## What holds between the calls -/

/-- The invariant: the data of `get` is the source's, so is `line_buffer` up to
where it was last added to, and what was handed over is where it belongs. -/
structure Inv (src : Int → UInt8) (c : Copier) : Prop where
  serves : c.get.Serves src
  line : Excerpt src (c.lineEnd - c.lbsize) c.line
  placed : ∀ h ∈ c.handed, h.Placed src

/-- The invariant after the check of the positions. -/
structure Lined (src : Int → UInt8) (c : Copier) : Prop extends Inv src c where
  agree : c.Agree
  still : c.line ≠ [] → c.get.pos = c.lineEnd
  within : c.line ≠ [] → c.get.rangeLimit ≠ fileEnd → c.get.pos ≤ c.get.rangeLimit

section Steps

variable {src : Int → UInt8} {c : Copier}

/-- What continues the source at the position of `put` may be handed over. -/
theorem placed_of_agree {get put : Peer} {n : Nat} {b : Bytes}
    (hAgree : get.pos - get.rangeStart - n = put.pos - put.rangeStart)
    (hBytes : Excerpt src (get.pos - n) b)
    (hBelow : get.rangeLimit ≠ fileEnd → b ≠ [] → get.pos - n + b.length ≤ get.rangeLimit) :
    Handover.Placed src ⟨get, put, n, b⟩ := by
  have hOffset : put.pos - put.rangeStart + get.rangeStart = get.pos - n := by omega
  refine ⟨fun _ => hAgree, ?_, ?_⟩
  · unfold Handover.offset
    dsimp only
    rw [hOffset]
    exact hBytes
  · unfold Handover.offset
    dsimp only
    rw [hOffset]
    exact hBelow

/-- Nothing is always in its place. -/
theorem placed_nil (get put : Peer) (n : Nat) : Handover.Placed src ⟨get, put, n, []⟩ :=
  ⟨fun h => absurd rfl h, excerpt_nil, fun _ h => absurd rfl h⟩

/-- `line_buffer` holds what comes before the position of `get`. -/
theorem Lined.line_before (h : Lined src c) : Excerpt src (c.get.pos - c.lbsize) c.line := by
  by_cases hLine : c.line = []
  · rw [hLine]
    exact excerpt_nil
  · rw [h.still hLine]
    exact h.line

@[simp] theorem line_putLine (c : Copier) (n : Nat) : (c.putLine n).line = c.line.drop n := by
  cases hLine : c.lineBuffer <;> simp [Copier.putLine, Copier.line, hLine]

theorem lbsize_putLine (c : Copier) (n : Nat) : (c.putLine n).lbsize = c.lbsize - n := by
  simp [Copier.lbsize]

/-- A part of `line_buffer` is handed over. -/
theorem Lined.putLine (h : Lined src c) (n : Nat) : Lined src (c.putLine n) := by
  have hSize : ((c.line.take n).length : Int) = c.lbsize - (c.lbsize - n : Nat) := by
    rw [List.length_take, Copier.lbsize]
    omega
  have hSome : (c.putLine n).line ≠ [] → c.line ≠ [] := by
    intro hNonempty hNil
    rw [line_putLine, hNil, List.drop_nil] at hNonempty
    exact hNonempty rfl
  constructor
  · refine ⟨h.serves, ?_, ?_⟩
    · have hDrop := h.line.drop n
      rw [hSize] at hDrop
      rw [line_putLine, lbsize_putLine]
      convert hDrop using 1
      show c.lineEnd - _ = _
      omega
    · rintro r (_ | ⟨_, hOld⟩)
      · apply placed_of_agree h.agree (h.line_before.take n)
        intro hLimit hNonempty
        have hWithin := h.within (fun hNil => hNonempty (by rw [hNil, List.take_nil])) hLimit
        omega
      · exact h.placed r hOld
  · have hAgree := h.agree
    unfold Copier.Agree Copier.getPos Copier.putPos at *
    rw [lbsize_putLine]
    show c.get.pos - c.get.rangeStart - _ = c.put.pos + _ - c.put.rangeStart
    omega
  · exact fun hNonempty => h.still (hSome hNonempty)
  · exact fun hNonempty => h.within (hSome hNonempty)

/-- With nothing in `line_buffer`, flushing it keeps the invariant anywhere. -/
theorem Inv.putLine_nil (h : Inv src c) (hLine : c.line = []) (n : Nat) :
    Inv src (c.putLine n) := by
  refine ⟨h.serves, ?_, ?_⟩
  · rw [line_putLine, hLine, List.drop_nil]
    exact excerpt_nil
  · rintro r (_ | ⟨_, hOld⟩)
    · rw [hLine, List.take_nil]
      exact placed_nil _ _ _
    · exact h.placed r hOld

theorem Inv.setError (h : Inv src c) (str : Option String) : Inv src (c.setError str) :=
  ⟨h.serves, h.line, h.placed⟩

theorem Inv.getDoneWait (h : Inv src c) : Inv src c.getDoneWait :=
  have hEmpty : c.get.empty.Serves src := Peer.Serves.empty c.get
  ⟨⟨hEmpty.ptr_le, hEmpty.length_lt, hEmpty.excerpt⟩, h.line, h.placed⟩

theorem Inv.confirmWait (h : Inv src c) : Inv src c.confirmWait := by
  unfold Copier.confirmWait
  split_ifs
  · exact h.setError _
  · exact ⟨h.serves, h.line, h.placed⟩
  · exact h.getDoneWait
  · exact h

/-- The end of the transfer keeps the invariant if flushing `line_buffer` does. -/
theorem Inv.eof (h : Inv src c) (hPut : Inv src (c.putLine c.lbsize)) : Inv src c.eof := by
  have hFlushed : Inv src (if c.lineBuffer.isSome then c.putLine c.lbsize else c) := by
    split
    · exact hPut
    · exact h
  unfold Copier.eof
  generalize (if c.lineBuffer.isSome then c.putLine c.lbsize else c) = d at hFlushed ⊢
  dsimp only
  split
  · exact ⟨hFlushed.serves.getSize, hFlushed.line, hFlushed.placed⟩
  · apply Inv.confirmWait
    exact ⟨hFlushed.serves.getSize, hFlushed.line, hFlushed.placed⟩

theorem Lined.eof (h : Lined src c) : Inv src c.eof := h.toInv.eof (h.putLine _).toInv

theorem Inv.early (h : Inv src c) {timedOut : Bool} {c' : Copier}
    (hEarly : c.early timedOut = some c') : Inv src c' := by
  unfold Copier.early at hEarly
  split_ifs at hEarly <;> cases hEarly
  · exact h.setError _
  · exact ⟨h.serves, h.line, h.placed⟩
  · exact h.setError _
  · exact h.setError _
  · exact h.getDoneWait
  · exact h
  · exact h
  · exact h.setError _
  · exact h.setError _

theorem Inv.checkSize (h : Inv src c) : Inv src c.checkSize := by
  have hServes := h.serves.getSize
  refine ⟨?_, h.line, h.placed⟩
  unfold Copier.checkSize
  dsimp only
  split
  · exact ⟨hServes.ptr_le, hServes.length_lt, hServes.excerpt⟩
  · exact hServes

/-- `GetSize` has nothing to do where it was just called. -/
theorem getSize_checkSize (c : Copier) : c.checkSize.get.getSize = c.checkSize.get := by
  have hTwice : c.get.getSize.getSize = c.get.getSize := by
    unfold Peer.getSize
    split_ifs <;> rfl
  unfold Copier.checkSize
  dsimp only
  split
  · simp [Peer.getSize, Peer.setSize, noSizeYet]
  · exact hTwice

@[simp] theorem line_emptyLine (c : Copier) : c.emptyLine.line = [] := by
  unfold Copier.emptyLine Copier.line
  cases c.lineBuffer <;> rfl

theorem Inv.emptyLine (h : Inv src c) : Inv src c.emptyLine := by
  refine ⟨h.serves, ?_, h.placed⟩
  rw [line_emptyLine]
  exact excerpt_nil

theorem Inv.catchUp (h : Inv src c) (hLine : c.line = [])
    (hSkip : ¬ c.AllReceived → 0 ≤ c.get.bufferPtr + toInt c.skipLen) :
    Yields Never (Inv src) c.catchUp := by
  unfold Copier.catchUp
  split_ifs with hAll hStay hZero
  · exact h.eof (h.putLine_nil hLine _)
  · exact h
  · have hBack := hSkip hAll
    rw [Peer.skip_eq hBack]
    have hServes : (c.get.advance (min (toInt c.skipLen) c.get.bufferSize)).Serves src :=
      h.serves.advance (by omega) (min_le_right _ _)
    exact ⟨hServes, h.line, h.placed⟩
  · exact ⟨h.serves, h.line, h.placed⟩

/-- With `line_buffer` empty, the seeks and the skip keep the invariant. -/
theorem Inv.realign (h : Inv src c) (hSize : c.get.getSize = c.get) (hSkip : c.Skippable) :
    Yields Never (Inv src) c.realign := by
  have hInv := h.emptyLine
  have hSame : ({ c.emptyLine with get := c.emptyLine.get.getSize } : Copier) = c.emptyLine := by
    show ({ c.emptyLine with get := c.get.getSize } : Copier) = _
    rw [hSize]
    rfl
  unfold Copier.realign
  dsimp only
  rw [hSame]
  split_ifs with hEq hBehind hSeek
  · exact hInv
  · have hServes : (c.get.seek c.put.pos).Serves src := Peer.Serves.seek c.get c.put.pos
    exact ⟨hServes, hInv.line, hInv.placed⟩
  · exact hInv.setError _
  · apply hInv.catchUp (line_emptyLine c)
    exact hSkip (lt_of_le_of_ne (not_lt.mp hBehind) hEq)

/-! ### Copying -/

/-- What is cut from the data of `get`. -/
structure Piece (src : Int → UInt8) (c : Copier) (b : Bytes) : Prop where
  excerpt : Excerpt src c.get.pos b
  length_le : b.length ≤ c.get.bufferSize
  within : c.get.rangeLimit ≠ fileEnd → b ≠ [] → c.get.pos + b.length ≤ c.get.rangeLimit

theorem skip_piece {b : Bytes} (hPiece : Piece src c b) :
    c.get.skip b.length = .ok (c.get.advance b.length) := by
  have hLe := hPiece.length_le
  rw [Peer.skip_eq (by omega), min_eq_left (by omega)]

/-- A piece is added to `line_buffer`. -/
theorem Lined.store {b : Bytes} (h : Lined src c) (hPiece : Piece src c b) :
    Lined src { c with
      get := c.get.advance b.length
      lineBuffer := some (c.line ++ b)
      lineEnd := (c.get.advance b.length).pos } := by
  have hLen := hPiece.length_le
  have hSize : ((c.line ++ b).length : Int) = c.lbsize + b.length := by
    rw [List.length_append, Copier.lbsize]
    omega
  have hPos : c.get.pos + b.length - ((c.line ++ b).length : Int) = c.get.pos - c.lbsize := by
    omega
  constructor
  · refine ⟨h.serves.advance (by omega) (by omega), ?_, h.placed⟩
    show Excerpt src (c.get.pos + b.length - ((c.line ++ b).length : Int)) (c.line ++ b)
    rw [hPos, excerpt_append]
    refine ⟨h.line_before, ?_⟩
    have hBack : c.get.pos - c.lbsize + (c.line.length : Int) = c.get.pos := by
      rw [Copier.lbsize]
      omega
    rw [hBack]
    exact hPiece.excerpt
  · have hAgree := h.agree
    unfold Copier.Agree Copier.getPos at *
    show c.get.pos + b.length - c.get.rangeStart - ((c.line ++ b).length : Int) = c.putPos
    omega
  · exact fun _ => rfl
  · intro hNonempty hLimit
    show c.get.pos + b.length ≤ c.get.rangeLimit
    by_cases hb : b = []
    · have hLine : c.line ≠ [] := by
        intro hNil
        apply hNonempty
        show c.line ++ b = []
        rw [hNil, hb, List.append_nil]
      have hWithin := h.within hLine hLimit
      rw [hb, List.length_nil]
      omega
    · exact hPiece.within hLimit hb

theorem Lined.putEol (h : Lined src c) : Lined src c.putEol := by
  unfold Copier.putEol
  dsimp only
  split
  · exact h.putLine _
  · exact h

theorem Lined.copyLines {b : Bytes} (h : Lined src c) (hPiece : Piece src c b) :
    Yields Never (Lined src) (c.copyLines b) := by
  have hRoom : Lined src (if (c.lbsize : Int) > c.lineBufferMax then c.putLine c.lbsize else c) ∧
      Piece src (if (c.lbsize : Int) > c.lineBufferMax then c.putLine c.lbsize else c) b := by
    split
    · exact ⟨h.putLine _, hPiece.excerpt, hPiece.length_le, hPiece.within⟩
    · exact ⟨h, hPiece⟩
  unfold Copier.copyLines
  dsimp only
  generalize (if (c.lbsize : Int) > c.lineBufferMax then c.putLine c.lbsize else c) = d at hRoom ⊢
  rw [skip_piece hRoom.2]
  exact (hRoom.1.store hRoom.2).putEol

theorem Lined.copyBytes {b : Bytes} (h : Lined src c) (hLine : c.line = [])
    (hPiece : Piece src c b) : Yields Never (Lined src) (c.copyBytes b) := by
  have hLen := hPiece.length_le
  have hSize : c.lbsize = 0 := by rw [Copier.lbsize, hLine, List.length_nil]
  have hPos : c.get.pos - (c.lbsize : Int) = c.get.pos := by omega
  have hPlaced : Handover.Placed src ⟨c.get, c.put, c.lbsize, b⟩ := by
    apply placed_of_agree h.agree <;> rw [hPos]
    · exact hPiece.excerpt
    · exact hPiece.within
  unfold Copier.copyBytes
  dsimp only
  show Yields Never (Lined src) (c.get.skip b.length >>= _)
  rw [skip_piece hPiece]
  constructor
  · refine ⟨h.serves.advance (by omega) (by omega), h.line, ?_⟩
    rintro r (_ | ⟨_, hOld⟩)
    · exact hPlaced
    · exact h.placed r hOld
  · have hAgree := h.agree
    unfold Copier.Agree Copier.getPos Copier.putPos at *
    show c.get.pos + b.length - c.get.rangeStart - (c.lbsize : Int) =
      c.put.pos + b.length - c.put.rangeStart
    omega
  · exact fun hNonempty => absurd hLine hNonempty
  · exact fun hNonempty => absurd hLine hNonempty

/-! ### The whole of `Do` -/

theorem toInt_of_lt {n : Int} (h0 : 0 ≤ n) (h : n < 2 ^ 31) : toInt n = n := by
  unfold toInt
  rw [Int.bmod_def]
  omega

/-- The cut at `range_limit` leaves a piece of the data. -/
theorem Piece.of_cut (h : c.get.Serves src) (hNear : c.get.rangeLimit ≠ fileEnd →
      c.get.rangeLimit < c.get.pos → toInt (c.get.rangeLimit - c.get.pos) ≤ 0) :
    c.cut ≤ c.get.bufferSize ∧ Piece src c (c.get.data.take c.cut.toNat) := by
  have hLt := h.length_lt
  have hSize : c.get.data.length = c.get.bufferSize := List.length_drop
  have hInt : c.get.bufferSize < 2 ^ 31 := by
    unfold Peer.bufferSize
    omega
  have hCut : 0 ≤ c.cut ∧ c.cut ≤ c.get.bufferSize ∧
      (c.get.rangeLimit ≠ fileEnd → c.cut ≠ 0 → c.get.pos + c.cut ≤ c.get.rangeLimit) := by
    unfold Copier.cut
    dsimp only
    split
    · next hLimit =>
      rcases lt_or_ge c.get.rangeLimit c.get.pos with hBefore | hAfter
      · have hZero := hNear hLimit.1 hBefore
        omega
      · rw [toInt_of_lt (by omega) (by omega)]
        omega
    · next hNone =>
      rw [not_and_or, not_not, not_lt] at hNone
      refine ⟨by omega, le_refl _, fun hLimit _ => ?_⟩
      exact hNone.resolve_left hLimit
  have hLen : ((c.get.data.take c.cut.toNat).length : Int) = c.cut := by
    rw [List.length_take]
    omega
  refine ⟨hCut.2.1, h.data.take _, by omega, fun hLimit hNonempty => ?_⟩
  rw [hLen]
  apply hCut.2.2 hLimit
  intro hZero
  rw [hZero] at hNonempty
  exact hNonempty rfl

theorem Lined.copyData {b : Bytes} (h : Lined src c) (hPiece : Piece src c b) :
    Yields Never (Lined src) (c.copyData b) := by
  unfold Copier.copyData
  split
  · exact h.copyLines hPiece
  · next hNone =>
    rw [Option.not_isSome_iff_eq_none] at hNone
    exact h.copyBytes (by rw [Copier.line, hNone, Option.getD_none]) hPiece

/-- The transfer, once `line_buffer` is as it should be. -/
theorem Lined.transfer (h : Lined src c) (hNear : c.get.rangeLimit ≠ fileEnd →
      c.get.rangeLimit < c.get.pos → toInt (c.get.rangeLimit - c.get.pos) ≤ 0)
    (hData : c.get.bufferSize ≠ 0) : Yields Never (Inv src) c.transfer := by
  obtain ⟨hCut, hPiece⟩ := Piece.of_cut h.serves hNear
  unfold Copier.transfer
  rw [if_neg (fun hEof => hData hEof.1), if_neg hData, if_neg (not_lt.mpr hCut)]
  apply (h.copyData hPiece).bind
  intro d hd
  show Inv src (if _ then d.eof else d)
  split
  · exact hd.eof
  · exact hd.toInv

theorem Inv.transfer (h : Inv src c) (hAgree : c.Agree) (hSettled : c.Settled) :
    Yields Never (Inv src) c.transfer := by
  by_cases hData : c.get.bufferSize = 0
  · unfold Copier.transfer
    split
    · next hEof =>
      have hLined : Lined src c :=
        ⟨h, hAgree, hSettled.still, fun hLine => hSettled.within hLine (.inr hEof.2)⟩
      exact hLined.eof
    · exact h
  · have hPos : 0 < c.get.bufferSize := Nat.pos_of_ne_zero hData
    have hLined : Lined src c :=
      ⟨h, hAgree, hSettled.still, fun hLine => hSettled.within hLine (.inl hPos)⟩
    exact hLined.transfer (hSettled.near hPos) hData

theorem Inv.doCopy (h : Inv src c) {timedOut : Bool}
    (hClean : c.early timedOut = none → (c.checkSize.Agree → c.checkSize.Settled) ∧
      (¬ c.checkSize.Agree → c.checkSize.Skippable)) :
    Yields Never (Inv src) (c.doCopy timedOut) := by
  unfold Copier.doCopy
  cases hEarly : c.early timedOut with
  | some c' => exact h.early hEarly
  | none =>
      have hCheck := h.checkSize
      obtain ⟨hSettled, hSkippable⟩ := hClean hEarly
      dsimp only
      split
      · next hApart => exact hCheck.realign (getSize_checkSize c) (hSkippable hApart)
      · next hAgree =>
        rw [not_not] at hAgree
        exact hCheck.transfer hAgree (hSettled hAgree)

theorem Inv.run (h : Inv src c) {timedOut : Bool} (hClean : Clean c (.run timedOut)) :
    Yields Never (Inv src) (c.run timedOut) := by
  unfold Copier.run
  split
  · exact h
  · next hError =>
    rw [Option.not_isSome_iff_eq_none] at hError
    cases hState : c.state with
    | doCopy => exact h.doCopy (hClean hError hState)
    | confirmWait => exact h.confirmWait
    | getDoneWait => exact h

/-- One event keeps the invariant, and nothing is read outside of the memory. -/
theorem Inv.act (h : Inv src c) {e : Event} (hServes : e.Serves src) (hClean : Clean c e) :
    Yields Never (Inv src) (act c e) := by
  cases e with
  | run timedOut => exact h.run hClean
  | peers get put => exact ⟨hServes, h.line, h.placed⟩
  | setRange s lim => exact ⟨h.serves.setRange s lim, h.line, h.placed⟩
  | setRangeLimit lim =>
      exact ⟨⟨h.serves.ptr_le, h.serves.length_lt, h.serves.excerpt⟩, h.line, h.placed⟩
  | lineBuffered size => exact ⟨h.serves, h.line, h.placed⟩
  | failIfCannotSeek => exact ⟨h.serves, h.line, h.placed⟩
  | dontFailIfBroken => exact ⟨h.serves, h.line, h.placed⟩

end Steps

/-! ## Runs -/

theorem Start.inv {src : Int → UInt8} {c : Copier} (h : Start src c) : Inv src c := by
  refine ⟨h.serves, ?_, ?_⟩
  · rw [h.line]
    exact excerpt_nil
  · rw [h.handed]
    exact fun _ hr => absurd hr List.not_mem_nil

/-- In a run whose calls do not meet the defects, what was handed over is where it
belongs, and no further such call reads outside of the memory. -/
theorem copy_exact (src : Int → UInt8) (c : Copier)
    (h : Reach (Start src) (Step fun c e => e.Serves src ∧ Clean c e) c) :
    (∀ r ∈ c.handed, r.Placed src) ∧
      ∀ e : Event, e.Serves src → Clean c e → ∃ c', act c e = .ok c' := by
  have hInv : Inv src c := by
    apply h.invariant (I := Inv src)
    · exact fun c hStart => hStart.inv
    · rintro c e c' hInv ⟨⟨hServes, hClean⟩, hAct⟩
      have hYields := hInv.act hServes hClean
      rw [hAct] at hYields
      exact hYields
  refine ⟨hInv.placed, fun e hServes hClean => ?_⟩
  obtain ⟨c', hAct, -⟩ := (hInv.act hServes hClean).exists
  exact ⟨c', hAct⟩

/-- Lines of three letters. -/
def lines (off : Int) : UInt8 := if off % 4 = 3 then ch '\n' else ch 'a'

/-- The source side with `n` bytes to give from `pos` on. -/
def source (pos : Int) (n : Nat) : Peer where
  mode := .get
  buffer := (List.range n).map fun i => lines (pos + i)
  bufferPtr := 0
  pos := pos
  eof := false
  broken := false
  errorText := none
  size := noSize
  seekPos := 0
  canSeek := true
  canSeek0 := true
  removing := false
  done := false
  rangeStart := 0
  rangeLimit := fileEnd

/-- The target side with nothing in its buffer. -/
def target (pos : Int) : Peer := { source pos 0 with mode := .put }

/-- A line-buffered copy at its start. -/
def lineCopy : Copier where
  state := .doCopy
  errorText := none
  get := source 0 0
  put := target 0
  lineBuffer := some []
  lineBufferMax := 4096
  putEofPos := 0
  failIfCannotSeek := false
  failIfBroken := true
  handed := []
  lineEnd := 0

theorem start_lineCopy : Start lines lineCopy :=
  ⟨rfl, rfl, rfl, rfl, by decide, by decide, by decide⟩

/-- Six bytes have come, a line and a half, and `Do` was called. -/
def lineCopied : Copier :=
  { lineCopy with
    get := (source 0 6).advance 6
    put := (target 0).append [ch 'a', ch 'a', ch 'a', ch '\n']
    lineBuffer := some [ch 'a', ch 'a']
    handed := [⟨(source 0 6).advance 6, target 0, 6, [ch 'a', ch 'a', ch 'a', ch '\n']⟩]
    lineEnd := 6 }

theorem copy_exact_lineCopied :
    (∀ r ∈ lineCopied.handed, r.Placed lines) ∧
      ∀ e : Event, e.Serves lines → Clean lineCopied e → ∃ c', act lineCopied e = .ok c' := by
  apply copy_exact
  have hServes : (source 0 6).Serves lines := ⟨by decide, by decide, by decide⟩
  have hRead : Reach (Start lines) (Step fun c e => e.Serves lines ∧ Clean c e)
      { lineCopy with get := source 0 6 } :=
    .next (.peers (source 0 6) (target 0)) (.start start_lineCopy) ⟨⟨hServes, trivial⟩, rfl⟩
  apply Reach.next (.run false) hRead
  refine ⟨⟨trivial, fun _ _ _ => ⟨fun _ => ?_, fun hApart => absurd ?_ hApart⟩⟩, rfl⟩
  · exact ⟨fun h => absurd rfl h, fun h => absurd rfl h, fun _ h => absurd rfl h⟩
  · decide

/-- Three bytes of a line wait in `line_buffer` when the limit is set to two. -/
def limitLowered : Copier :=
  { lineCopy with
    get := { source 3 1 with rangeLimit := 2 }
    lineBuffer := some [ch 'a', ch 'a', ch 'a']
    lineEnd := 3 }

/-- The third byte is handed over, though it is beyond the limit. -/
theorem not_copy_exact :
    ¬ ∀ (src : Int → UInt8) (c : Copier),
      Reach (Start src) (Step fun _ e => e.Serves src) c → ∀ r ∈ c.handed, r.Placed src := by
  intro hAll
  have hThree : (source 0 3).Serves lines := ⟨by decide, by decide, by decide⟩
  have hOne : (source 3 1).Serves lines := ⟨by decide, by decide, by decide⟩
  have hRead : Reach (Start lines) (Step fun _ e => e.Serves lines)
      { lineCopy with get := source 0 3 } :=
    .next (.peers (source 0 3) (target 0)) (.start start_lineCopy) ⟨hThree, rfl⟩
  have hBuffered : Reach (Start lines) (Step fun _ e => e.Serves lines)
      { lineCopy with
        get := (source 0 3).advance 3
        lineBuffer := some [ch 'a', ch 'a', ch 'a']
        lineEnd := 3 } :=
    .next (.run false) hRead ⟨trivial, rfl⟩
  have hMore : Reach (Start lines) (Step fun _ e => e.Serves lines)
      { lineCopy with
        get := source 3 1
        lineBuffer := some [ch 'a', ch 'a', ch 'a']
        lineEnd := 3 } :=
    .next (.peers (source 3 1) (target 0)) hBuffered ⟨hOne, rfl⟩
  have hLowered : Reach (Start lines) (Step fun _ e => e.Serves lines) limitLowered :=
    .next (.setRangeLimit 2) hMore ⟨trivial, rfl⟩
  obtain ⟨c, hRun, hHanded⟩ : ∃ c, act limitLowered (.run false) = .ok c ∧
      ∃ r ∈ c.handed, r.bytes.length = 3 ∧ r.offset = 0 ∧ r.get.rangeLimit = 2 :=
    ⟨_, rfl, _, List.mem_cons_self, rfl, rfl, rfl⟩
  obtain ⟨r, hr, hLength, hOffset, hLimit⟩ := hHanded
  have hPlaced := hAll lines c (.next (.run false) hLowered ⟨trivial, hRun⟩) r hr
  have hBelow := hPlaced.below (by rw [hLimit]; decide)
    (List.length_pos_iff.mp (by rw [hLength]; decide))
  rw [hLength, hOffset, hLimit] at hBelow
  exact absurd hBelow (by decide)

end Lftp.Ports.FileCopy
