import Mathlib.Logic.Function.Basic
import Mathlib.Order.Basic
import Lftp.Verified.Block
import Lftp.Verified.Decimal
import Lftp.Verified.Runs

/-!
# `Buffer` over `xstring`

A translation of `Buffer` and of the part of `xstring` under it. An `xstring`
is its allocated block and its length; a null pointer is the empty block. Every
store is checked against the block, so an operation returns `none` where the
code would write outside the memory it has allocated.

* `Queue` is what a buffer is for: the bytes to be read, and the bytes just
  skipped, which `UnSkip` may put back.
* `Rep` relates a buffer to its queue.
* `buffers_refine` is the refinement over all runs of any number of buffers.
-/

namespace Lftp.Ports.ByteBuffer

open Lftp.Verified
open Lftp.Verified.Block

/-- A byte of memory, `none` until it is written. -/
abbrev Cell := Option UInt8

/-- `xstring`: the block `buf`, whose length is `size`, and `len`. -/
structure XString where
  buf : List Cell
  len : Nat

namespace XString

/-- The capacity. -/
abbrev size (x : XString) : Nat := x.buf.length

/-- `buf[n]=0`. -/
def poke (x : XString) (n : Nat) : Option XString :=
  (store x.buf n [some 0]).map fun buf => { x with buf }

/-- The `xmalloc` and the `xrealloc` of `get_space2`. -/
def reserve (x : XString) (s g : Nat) : XString :=
  if x.buf = [] then { x with buf := List.replicate (s + 1) none }
  else if x.size < s + 1 then
    { x with buf := x.buf ++ List.replicate ((s ||| (g - 1)) + 1 - x.size) none }
  else x

/-- `xstring::get_space2`. -/
def getSpace2 (x : XString) (s g : Nat) : Option XString := (x.reserve s g).poke s

/-- `xstring::set_length`. -/
def setLength (x : XString) (n : Nat) : Option XString :=
  if x.buf = [] then some x else { x with len := n }.poke n

/-- `xstring::truncate`. -/
def truncate (x : XString) (n : Nat) : Option XString :=
  if n < x.len then x.setLength n else some x

/-- `memcpy(buf+off,w,…)`. -/
def write (x : XString) (off : Nat) (w : List Cell) : Option XString :=
  (store x.buf off w).map fun buf => { x with buf }

/-- `memmove(buf+dst,buf+src,n)`. -/
def move (x : XString) (dst src n : Nat) : Option XString :=
  x.write dst ((x.buf.drop src).take n)

/-- `xstring::nset(buf+off,n)`, on a part of the string itself. -/
def nsetSelf (x : XString) (off n : Nat) : Option XString :=
  if off = 0 then some { x with len := n }
  else ({ x with len := n }.move 0 off n).bind fun x => x.getSpace2 n 32

end XString

/-- `BUFFER_INC`. -/
def bufferInc : Nat := 8 * 1024

/-- `Buffer`. -/
structure Buffer where
  buffer : XString
  ptr : Nat
  save : Bool
  saveMax : Int
  pos : Int

namespace Buffer

/-- `Buffer::Buffer`. -/
def new : Buffer := ⟨⟨[], 0⟩, 0, false, 0, 0⟩

/-- `Buffer::Size`. -/
def size (b : Buffer) : Nat := b.buffer.len - b.ptr

/-- The visible contents, `buffer+buffer_ptr` up to the length. -/
def contents (b : Buffer) : List Cell := (b.buffer.buf.drop b.ptr).take b.size

/-- `buffer.truncate(0); buffer_ptr=0;` -/
def rewind (b : Buffer) : Option Buffer :=
  (b.buffer.truncate 0).map fun x => { b with buffer := x, ptr := 0 }

/-- The part of `in_buffer_real` that keeps the data where it is. -/
def Stays (b : Buffer) (size : Nat) : Prop :=
  b.save = true ∨ b.ptr < size ∨ b.ptr < b.size

instance (b : Buffer) (size : Nat) : Decidable (b.Stays size) :=
  inferInstanceAs (Decidable (_ ∨ _ ∨ _))

/-- `buffer.nset(buffer+buffer_ptr,Size()); buffer_ptr=0;` -/
def compact (b : Buffer) : Option Buffer :=
  (b.buffer.nsetSelf b.ptr b.size).map fun x => { b with buffer := x, ptr := 0 }

/-- `buffer.get_space2(s,BUFFER_INC);` -/
def reserve (b : Buffer) (s : Nat) : Option Buffer :=
  (b.buffer.getSpace2 s bufferInc).map fun x => { b with buffer := x }

/-- `Buffer::Allocate`. -/
def allocate (b : Buffer) (size : Nat) : Option Buffer :=
  (if 0 < b.ptr ∧ b.size = 0 ∧ b.save = false then b.rewind else some b).bind fun b =>
    let inBufferReal := if b.Stays size then b.size + b.ptr else b.size
    (if inBufferReal < b.buffer.len then b.compact else some b).bind fun b =>
      b.reserve (inBufferReal + size)

/-- `Buffer::SpaceAdd`. -/
def spaceAdd (b : Buffer) (size : Nat) : Option Buffer :=
  (b.buffer.setLength (b.buffer.len + size)).map fun x => { b with buffer := x }

/-- `GetSpace(room)`, of which the caller fills a part and adds it: `SpaceAdd`. -/
def fillSpace (b : Buffer) (room : Nat) (w : List Cell) : Option Buffer := do
  let b ← b.allocate room
  let x ← b.buffer.write b.buffer.len w
  { b with buffer := x }.spaceAdd w.length

/-- `Buffer::SaveMaxCheck`. -/
def saveMaxCheck (b : Buffer) (size : Nat) : Buffer :=
  if b.save ∧ (b.ptr + size : Int) > b.saveMax then { b with save := false } else b

/-- `Buffer::Append`. -/
def append (b : Buffer) (s : Bytes) : Option Buffer :=
  if s = [] then some b
  else
    let b := b.saveMaxCheck s.length
    (if b.size = 0 ∧ 0 < b.ptr ∧ b.save = false then b.rewind else some b).bind fun b =>
      b.fillSpace s.length (s.map some)

/-- `Buffer::Put`. -/
def put (b : Buffer) (s : Bytes) : Option Buffer :=
  (b.append s).map fun b => { b with pos := b.pos + s.length }

/-- `Buffer::Skip`. -/
def skip (b : Buffer) (len : Nat) : Buffer :=
  let len := if len > b.size then b.size else len
  { b with ptr := b.ptr + len, pos := b.pos + len }

/-- `Buffer::UnSkip`. -/
def unSkip (b : Buffer) (len : Nat) : Buffer :=
  let len := if len > b.ptr then b.ptr else len
  { b with ptr := b.ptr - len, pos := b.pos - len }

/-- The branch of `Prepend` that makes room before the data. The size passed to
`Allocate` is computed before it may move the data, the one passed to `SpaceAdd`
after. -/
def shift (b : Buffer) (size : Nat) : Option Buffer := do
  let b ← b.allocate (size - b.ptr)
  let x ← b.buffer.move size b.ptr b.size
  let b ← { b with buffer := x }.spaceAdd (size - b.ptr)
  some { b with ptr := size }

/-- `Prepend` from where it has cleared `save`. -/
def insert (b : Buffer) (s : Bytes) : Option Buffer :=
  if b.size = 0 then b.fillSpace s.length (s.map some)
  else
    (if b.ptr < s.length then b.shift s.length else some b).bind fun b =>
      (b.buffer.write (b.ptr - s.length) (s.map some)).map fun x =>
        { b with buffer := x, ptr := b.ptr - s.length }

/-- `Buffer::Prepend`. -/
def prepend (b : Buffer) (s : Bytes) : Option Buffer :=
  if s = [] then some b else { b with save := false }.insert s

/-- Where `Prepend` stays inside the block. When `Allocate` moves the data to the
front, the gap that `Prepend` counted on is gone, and only the old capacity is
left for the data and the whole of the new text. -/
def PrependFits (b : Buffer) (size : Nat) : Prop :=
  b.size ≠ 0 → 0 < b.ptr → b.ptr < size → size - b.ptr ≤ b.ptr → b.size ≤ b.ptr →
    b.size + size < b.buffer.size

/-- `Buffer::Empty`. -/
def empty (b : Buffer) : Option Buffer :=
  b.rewind.map fun b => if 0 < b.saveMax then { b with save := true } else b

/-- `Buffer::MoveDataHere`, followed by the caller's `SpaceAdd` of the result. -/
def moveDataHere (b o : Buffer) (maxLen : Nat) : Option (Buffer × Buffer) :=
  let size := if o.size > maxLen then maxLen else o.size
  if 0 < size then
    if 64 ≤ size ∧ b.size = 0 ∧ o.size = size ∧ b.save = false ∧ o.save = false then
      let b' := { b with buffer := { o.buffer with len := o.ptr }, ptr := o.ptr }
      let o' := { o with buffer := b.buffer, ptr := b.ptr, pos := o.pos + size }
      (b'.spaceAdd size).map fun b' => (b', o')
    else
      (b.fillSpace size ((o.buffer.buf.drop o.ptr).take size)).map fun b => (b, o.skip size)
  else (b.spaceAdd size).map fun b => (b, o)

end Buffer

/-! ## `xstring` -/

namespace XString

/-- The block and the length agree: a string without a block is empty, and one
with a block has room for the terminating NUL. -/
structure Sound (x : XString) : Prop where
  fits : x.buf ≠ [] → x.len < x.size
  null : x.buf = [] → x.len = 0

variable {x x' : XString}

/-- A length below the capacity is sound: there is a block. -/
theorem Sound.of_lt (h : x.len < x.size) : x.Sound where
  fits _ := h
  null hNil := by
    rw [size, hNil, List.length_nil] at h
    omega

theorem exists_poke {n : Nat} (h : n < x.size) :
    ∃ x', x.poke n = some x' ∧ x'.len = x.len ∧ x'.size = x.size ∧
      ∀ off w, off + w.length ≤ n → Holds x.buf off w → Holds x'.buf off w := by
  have hFit : n + [(some 0 : Cell)].length ≤ x.buf.length := h
  rcases exists_store hFit with ⟨buf, hStore, hLen⟩
  refine ⟨{ x with buf }, by rw [poke, hStore]; rfl, rfl, hLen, fun off w hw hHolds => ?_⟩
  exact hHolds.store hFit hStore (.inl hw)

theorem lt_size_reserve (x : XString) (s g : Nat) : s < (x.reserve s g).size := by
  have hLor : s ≤ s ||| (g - 1) := Nat.left_le_or
  unfold reserve
  split
  · simp [size]
  · split
    · simp only [size, List.length_append, List.length_replicate] at *
      omega
    · omega

theorem reserve_of_lt {s : Nat} (h : s < x.size) (g : Nat) : x.reserve s g = x := by
  have hNonempty : x.buf ≠ [] := by
    rintro hNil
    simp [size, hNil] at h
  rw [reserve, if_neg hNonempty, if_neg (by omega)]

theorem len_reserve (x : XString) (s g : Nat) : (x.reserve s g).len = x.len := by
  unfold reserve
  split_ifs <;> rfl

theorem Holds.reserve (hx : x.Sound) {off : Nat} {w : List Cell}
    (hw : off + w.length ≤ x.len) (hHolds : Holds x.buf off w) (s g : Nat) :
    Holds (x.reserve s g).buf off w := by
  unfold XString.reserve
  split
  · next hNil =>
    have hZero := hx.null hNil
    have hEmpty : w = [] := List.eq_nil_of_length_eq_zero (by omega)
    rw [hEmpty]
    exact Holds.nil _ _
  · next hNonempty =>
    split
    · exact hHolds.grow (hw.trans (hx.fits hNonempty).le) _
    · exact hHolds

/-- `get_space2` makes room for `s` bytes and the NUL after them, and keeps the
string; it leaves a block that is large enough at its size. -/
theorem getSpace2_spec (hx : x.Sound) {s : Nat} (hs : x.len ≤ s) (g : Nat) :
    ∃ x', x.getSpace2 s g = some x' ∧ x'.len = x.len ∧ s < x'.size ∧
      (s < x.size → x'.size = x.size) ∧
      ∀ off w, off + w.length ≤ x.len → Holds x.buf off w → Holds x'.buf off w := by
  have hRoom := lt_size_reserve x s g
  rcases exists_poke hRoom with ⟨x', hx', hLen, hSize, hKeep⟩
  refine ⟨x', hx', hLen.trans (len_reserve x s g), hSize ▸ hRoom, fun h => ?_, ?_⟩
  · rw [hSize, reserve_of_lt h]
  · intro off w hw hHolds
    exact hKeep off w (hw.trans hs) (Holds.reserve hx hw hHolds s g)

theorem setLength_spec {n : Nat} (h : n < x.size) :
    ∃ x', x.setLength n = some x' ∧ x'.len = n ∧ x'.size = x.size ∧
      ∀ off w, off + w.length ≤ n → Holds x.buf off w → Holds x'.buf off w := by
  have hNonempty : x.buf ≠ [] := by
    rintro hNil
    simp [size, hNil] at h
  rw [setLength, if_neg hNonempty]
  exact exists_poke (x := { x with len := n }) h

/-- The move to the front that `Allocate` makes: no byte leaves the block. -/
theorem nsetSelf_spec {off n : Nat} (h : off + n < x.size) {w : List Cell}
    (hw : w.length = n) (hHolds : Holds x.buf off w) :
    ∃ x', x.nsetSelf off n = some x' ∧ x'.len = n ∧ x'.size = x.size ∧
      Holds x'.buf 0 w := by
  unfold nsetSelf
  by_cases hOff : off = 0
  · rw [if_pos hOff]
    exact ⟨_, rfl, rfl, rfl, hOff ▸ hHolds⟩
  · have hRead : (x.buf.drop off).take n = w := hHolds.read hw.symm
    have hFit : 0 + w.length ≤ x.buf.length := by
      simp only [size] at h
      omega
    obtain ⟨buf, hStore, hLen⟩ := exists_store hFit
    have hMove : ({ x with len := n } : XString).move 0 off n = some ⟨buf, n⟩ := by
      simp only [move, write, hRead, hStore, Option.map_some]
    have hSound : (⟨buf, n⟩ : XString).Sound := by
      apply Sound.of_lt
      dsimp only [size] at h ⊢
      omega
    rcases getSpace2_spec hSound (le_refl n) 32 with ⟨x', hx', hLen', -, hSize, hKeep⟩
    refine ⟨x', ?_, hLen', ?_, hKeep 0 w (by simp [hw]) (Holds.store_self hFit hStore)⟩
    · rw [if_neg hOff, hMove, Option.bind_some, hx']
    · rw [hSize (by simp only [size] at h ⊢; omega)]
      exact hLen

end XString

/-! ## The queue a buffer represents -/

/-- What a buffer is for: the bytes to be read, oldest first, and the bytes that
were skipped since the last operation other than `Skip` and `UnSkip`. -/
structure Queue where
  past : Bytes
  bytes : Bytes

/-- The buffer `b` represents the queue `q`. -/
structure Rep (b : Buffer) (q : Queue) : Prop where
  sound : b.buffer.Sound
  past_le : q.past.length ≤ b.ptr
  len_eq : b.buffer.len = b.ptr + q.bytes.length
  past : Holds b.buffer.buf (b.ptr - q.past.length) (q.past.map some)
  bytes : Holds b.buffer.buf b.ptr (q.bytes.map some)

namespace Rep

variable {b : Buffer} {q : Queue}

theorem size_eq (h : Rep b q) : b.size = q.bytes.length := by
  have hLen := h.len_eq
  unfold Buffer.size
  omega

/-- Forget what was skipped. -/
theorem forget (h : Rep b q) : Rep b ⟨[], q.bytes⟩ :=
  { h with past_le := Nat.zero_le _, past := Holds.nil _ _ }

theorem contents_eq (h : Rep b q) : b.contents = q.bytes.map some :=
  h.bytes.read (by rw [h.size_eq, List.length_map])

/-- A non-empty string lies in a block, with a cell to spare. -/
theorem lt_size (h : Rep b q) (hPos : 0 < b.buffer.len) :
    b.buffer.len < b.buffer.size := by
  refine h.sound.fits fun hNil => ?_
  have hZero := h.sound.null hNil
  omega

/-- Changes of the mode flags and of the position do not concern the queue. -/
theorem of_buffer_eq {b' : Buffer} (h : Rep b q) (hx : b'.buffer = b.buffer)
    (hPtr : b'.ptr = b.ptr) : Rep b' q := by
  obtain ⟨x, ptr, save, saveMax, pos⟩ := b
  obtain ⟨x', ptr', save', saveMax', pos'⟩ := b'
  dsimp only at hx hPtr
  subst hx hPtr
  exact ⟨h.sound, h.past_le, h.len_eq, h.past, h.bytes⟩

end Rep

theorem rep_new : Rep .new ⟨[], []⟩ where
  sound := ⟨fun h => absurd rfl h, fun _ => rfl⟩
  past_le := Nat.zero_le _
  len_eq := rfl
  past := Holds.nil _ _
  bytes := Holds.nil _ _

/-! ## Making room -/

variable {b : Buffer} {q : Queue}

theorem rewind_spec (h : Rep b q) :
    ∃ b', b.rewind = some b' ∧ Rep b' ⟨[], []⟩ ∧ b'.save = b.save ∧ b'.ptr = 0 := by
  have hLen := h.len_eq
  unfold Buffer.rewind XString.truncate
  by_cases hPos : 0 < b.buffer.len
  · rw [if_pos hPos]
    have hCap := h.lt_size hPos
    rcases XString.setLength_spec (x := b.buffer) (n := 0) (by omega) with
      ⟨x', hx', hLen', hSize, -⟩
    refine ⟨{ b with buffer := x', ptr := 0 }, by rw [hx']; rfl, ?_, rfl, rfl⟩
    refine
      { sound := .of_lt (by dsimp only; omega)
        past_le := Nat.zero_le _
        len_eq := hLen'
        past := Holds.nil _ _
        bytes := Holds.nil _ _ }
  · rw [if_neg hPos]
    refine ⟨{ b with ptr := 0 }, rfl, ?_, rfl, rfl⟩
    refine
      { sound := h.sound
        past_le := Nat.zero_le _
        len_eq := by dsimp only [List.length_nil]; omega
        past := Holds.nil _ _
        bytes := Holds.nil _ _ }

theorem compact_spec (h : Rep b q) (hPtr : 0 < b.ptr) :
    ∃ b', b.compact = some b' ∧ Rep b' ⟨[], q.bytes⟩ ∧ b'.save = b.save ∧ b'.ptr = 0 ∧
      b'.buffer.size = b.buffer.size := by
  have hLen := h.len_eq
  have hSize := h.size_eq
  have hCap := h.lt_size (by omega)
  have hIn : b.ptr + b.size < b.buffer.size := by omega
  rcases XString.nsetSelf_spec hIn (by rw [hSize, List.length_map]) h.bytes with
    ⟨x', hx', hLen', hSame, hHolds⟩
  refine ⟨{ b with buffer := x', ptr := 0 }, by rw [Buffer.compact, hx']; rfl, ?_, rfl, rfl,
    hSame⟩
  refine
    { sound := .of_lt (by dsimp only; omega)
      past_le := Nat.zero_le _
      len_eq := by dsimp only; omega
      past := Holds.nil _ _
      bytes := hHolds }

theorem reserve_spec (h : Rep b q) {s : Nat} (hs : b.buffer.len ≤ s) :
    ∃ b', b.reserve s = some b' ∧ Rep b' q ∧ b'.save = b.save ∧ b'.ptr = b.ptr ∧
      b'.buffer.len = b.buffer.len ∧ s < b'.buffer.size ∧
      (s < b.buffer.size → b'.buffer.size = b.buffer.size) := by
  have hPast := h.past_le
  have hLen := h.len_eq
  rcases XString.getSpace2_spec h.sound hs bufferInc with
    ⟨x', hx', hLen', hRoom, hSame, hKeep⟩
  refine ⟨{ b with buffer := x' }, by rw [Buffer.reserve, hx']; rfl, ?_, rfl, rfl, hLen',
    hRoom, hSame⟩
  refine
    { sound := .of_lt (by dsimp only; omega)
      past_le := hPast
      len_eq := hLen'.trans hLen
      past := hKeep _ _ (by dsimp only; rw [List.length_map]; omega) h.past
      bytes := hKeep _ _ (by dsimp only; rw [List.length_map]; omega) h.bytes }

/-- The outcome of `Allocate`: the contents are kept, there is room for `n` more
bytes and a NUL, and the data either stay or are moved to the front of a block
that keeps its size. -/
structure Allocated (b b' : Buffer) (q : Queue) (n : Nat) : Prop where
  rep : Rep b' ⟨[], q.bytes⟩
  room : b'.buffer.len + n < b'.buffer.size
  save : b'.save = b.save
  place : q.bytes ≠ [] →
    if b.Stays n ∨ b.ptr = 0 then b'.ptr = b.ptr
    else b'.ptr = 0 ∧ b'.buffer.size = b.buffer.size

theorem allocate_spec (h : Rep b q) (n : Nat) :
    ∃ b', b.allocate n = some b' ∧ Allocated b b' q n := by
  -- What the first test leaves: the same data, and nothing to move if there is none.
  obtain ⟨c, hc, hRep, hSave, hIdle, hSame⟩ : ∃ c,
      (if 0 < b.ptr ∧ b.size = 0 ∧ b.save = false then b.rewind else some b) = some c ∧
      Rep c ⟨[], q.bytes⟩ ∧ c.save = b.save ∧
      (q.bytes = [] → c.save = true ∨ c.ptr = 0) ∧ (q.bytes ≠ [] → c = b) := by
    by_cases hRewind : 0 < b.ptr ∧ b.size = 0 ∧ b.save = false
    · have hEmpty : q.bytes = [] :=
        List.eq_nil_of_length_eq_zero (h.size_eq ▸ hRewind.2.1)
      rcases rewind_spec h with ⟨c, hc, hRep, hSave, hPtr⟩
      rw [if_pos hRewind]
      exact ⟨c, hc, hEmpty ▸ hRep, hSave, fun _ => .inr hPtr, fun hne => absurd hEmpty hne⟩
    · rw [if_neg hRewind]
      refine ⟨b, rfl, h.forget, rfl, fun hEmpty => ?_, fun _ => rfl⟩
      have hSize : b.size = 0 := by rw [h.size_eq, hEmpty, List.length_nil]
      cases hs : b.save with
      | true => exact .inl rfl
      | false =>
          right
          by_contra hne
          exact hRewind ⟨Nat.pos_of_ne_zero hne, hSize, hs⟩
  have hSize := hRep.size_eq
  have hLen := hRep.len_eq
  dsimp only at hSize hLen
  unfold Buffer.allocate
  rw [hc, Option.bind_some]
  dsimp only
  by_cases hStay : c.Stays n ∨ c.ptr = 0
  · have hReal : (if c.Stays n then c.size + c.ptr else c.size) = c.buffer.len := by
      split
      · omega
      · next hNot => have hZero := hStay.resolve_left hNot; omega
    rw [hReal, if_neg (Nat.lt_irrefl _), Option.bind_some]
    rcases reserve_spec hRep (Nat.le_add_right c.buffer.len n) with
      ⟨b', hb', hRep', hSave', hPtr, hLen', hRoom, -⟩
    refine ⟨b', hb', hRep', by omega, hSave'.trans hSave, fun hne => ?_⟩
    rw [hSame hne] at hPtr hStay
    rw [if_pos hStay]
    exact hPtr
  · rw [not_or] at hStay
    have hPtr : 0 < c.ptr := Nat.pos_of_ne_zero hStay.2
    have hNot : ¬ c.save = true ∧ ¬ c.ptr < n ∧ ¬ c.ptr < c.size := by
      simpa only [Buffer.Stays, not_or] using hStay.1
    have hne : q.bytes ≠ [] := fun hEmpty => (hIdle hEmpty).elim hNot.1 hStay.2
    rw [if_neg hStay.1, if_pos (by omega)]
    rcases compact_spec hRep hPtr with ⟨d, hd, hRepD, hSaveD, hPtrD, hSizeD⟩
    have hLenD := hRepD.len_eq
    dsimp only at hLenD
    have hCap := hRep.lt_size (by omega)
    rw [hd, Option.bind_some]
    rcases reserve_spec hRepD (s := c.size + n) (by omega) with
      ⟨b', hb', hRep', hSave', hPtr', hLen', hRoom, hFixed⟩
    refine ⟨b', hb', hRep', by omega, hSave'.trans (hSaveD.trans hSave), fun _ => ?_⟩
    have hcb := hSame hne
    rw [hcb] at hStay
    rw [if_neg (not_or.mpr hStay)]
    refine ⟨hPtr'.trans hPtrD, ?_⟩
    rw [hFixed (by omega), hSizeD, hcb]

/-! ## The operations -/

namespace XString

variable {x x' : XString}

theorem write_spec {off : Nat} {w : List Cell} (h : off + w.length ≤ x.size) :
    ∃ x', x.write off w = some x' ∧ x'.len = x.len ∧ x'.size = x.size ∧
      Holds x'.buf off w ∧
      ∀ off' v, Holds x.buf off' v → off' + v.length ≤ off ∨ off + w.length ≤ off' →
        Holds x'.buf off' v := by
  rcases exists_store h with ⟨buf, hStore, hLen⟩
  refine ⟨{ x with buf }, by rw [write, hStore]; rfl, rfl, hLen,
    Holds.store_self h hStore, fun off' v hHolds hApart => ?_⟩
  exact hHolds.store h hStore hApart

end XString

/-- What `SpaceAdd` makes of a buffer with `s` stored behind its data. -/
theorem spaceAdd_spec (h : Rep b q) {s : Bytes}
    (hHolds : Holds b.buffer.buf b.buffer.len (s.map some))
    (hRoom : b.buffer.len + s.length < b.buffer.size) :
    ∃ b', b.spaceAdd s.length = some b' ∧ Rep b' ⟨q.past, q.bytes ++ s⟩ ∧
      b'.ptr = b.ptr ∧ b'.buffer.len = b.buffer.len + s.length := by
  have hPast := h.past_le
  have hLen := h.len_eq
  rcases XString.setLength_spec hRoom with ⟨x', hx', hLen', hSize, hKeep⟩
  have hAll : Holds b.buffer.buf b.ptr ((q.bytes ++ s).map some) := by
    rw [List.map_append, holds_append, List.length_map, ← hLen]
    exact ⟨h.bytes, hHolds⟩
  refine ⟨{ b with buffer := x' }, by rw [Buffer.spaceAdd, hx']; rfl, ?_, rfl, hLen'⟩
  refine
    { sound := .of_lt (by dsimp only; omega)
      past_le := hPast
      len_eq := by dsimp only; rw [List.length_append]; omega
      past := hKeep _ _ (by dsimp only; rw [List.length_map]; omega) h.past
      bytes := hKeep _ _ (by dsimp only; rw [List.length_map, List.length_append]; omega) hAll }

theorem fillSpace_spec (h : Rep b q) {room : Nat} {s : Bytes} (hs : s.length ≤ room) :
    ∃ b', b.fillSpace room (s.map some) = some b' ∧ Rep b' ⟨[], q.bytes ++ s⟩ := by
  rcases allocate_spec h room with ⟨c, hc, hAlloc⟩
  have hRoom := hAlloc.room
  have hLen := hAlloc.rep.len_eq
  dsimp only at hLen
  have hIn : c.buffer.len + (s.map some).length ≤ c.buffer.size := by
    rw [List.length_map]
    omega
  rcases XString.write_spec hIn with ⟨x, hx, hLenX, hSizeX, hHolds, hKeep⟩
  have hRep : Rep { c with buffer := x } ⟨[], q.bytes⟩ := by
    refine
      { sound := .of_lt (by dsimp only; omega)
        past_le := Nat.zero_le _
        len_eq := hLenX.trans hLen
        past := Holds.nil _ _
        bytes := hKeep _ _ hAlloc.rep.bytes (.inl (by dsimp only; rw [List.length_map]; omega)) }
  rcases spaceAdd_spec hRep (s := s) (by dsimp only; rw [hLenX]; exact hHolds)
    (by dsimp only; omega) with ⟨b', hb', hRep', -, -⟩
  refine ⟨b', ?_, hRep'⟩
  simp only [Buffer.fillSpace, hc, hx, Option.bind_eq_bind, Option.bind_some, List.length_map]
  exact hb'

theorem append_spec (h : Rep b q) (s : Bytes) :
    ∃ b', b.append s = some b' ∧ Rep b' ⟨[], q.bytes ++ s⟩ := by
  unfold Buffer.append
  by_cases hNil : s = []
  · rw [if_pos hNil, hNil, List.append_nil]
    exact ⟨b, rfl, h.forget⟩
  rw [if_neg hNil]
  have hCheck : Rep (b.saveMaxCheck s.length) q := by
    unfold Buffer.saveMaxCheck
    split
    · exact h.of_buffer_eq rfl rfl
    · exact h
  generalize b.saveMaxCheck s.length = c at hCheck
  dsimp only
  split
  · next hRewind =>
    have hEmpty : q.bytes = [] :=
      List.eq_nil_of_length_eq_zero (hCheck.size_eq ▸ hRewind.1)
    rcases rewind_spec hCheck with ⟨d, hd, hRep, -, -⟩
    rw [hd, Option.bind_some, hEmpty]
    exact fillSpace_spec hRep (le_refl _)
  · rw [Option.bind_some]
    exact fillSpace_spec hCheck (le_refl _)

theorem put_spec (h : Rep b q) (s : Bytes) :
    ∃ b', b.put s = some b' ∧ Rep b' ⟨[], q.bytes ++ s⟩ := by
  rcases append_spec h s with ⟨c, hc, hRep⟩
  exact ⟨{ c with pos := c.pos + s.length }, by rw [Buffer.put, hc]; rfl,
    hRep.of_buffer_eq rfl rfl⟩

theorem skip_spec (h : Rep b q) (n : Nat) :
    Rep (b.skip n) ⟨q.past ++ q.bytes.take n, q.bytes.drop n⟩ := by
  have hSize := h.size_eq
  have hPast := h.past_le
  have hLen := h.len_eq
  have hTake : (q.bytes.take n).length = min n b.size := by
    rw [List.length_take, hSize]
  have hStep : (if n > b.size then b.size else n) = (q.bytes.take n).length := by
    rw [hTake]
    split <;> omega
  have hSplit := h.bytes
  rw [← List.take_append_drop n q.bytes, List.map_append, holds_append,
    List.length_map] at hSplit
  unfold Buffer.skip
  rw [hStep]
  refine
    { sound := h.sound
      past_le := by dsimp only; rw [List.length_append]; omega
      len_eq := by dsimp only; rw [List.length_drop]; omega
      past := ?_
      bytes := hSplit.2 }
  dsimp only
  rw [List.map_append, holds_append, List.length_append, List.length_map]
  have hFrom : b.ptr + (q.bytes.take n).length -
      (q.past.length + (q.bytes.take n).length) = b.ptr - q.past.length := by omega
  have hTo : b.ptr - q.past.length + q.past.length = b.ptr := by omega
  rw [hFrom, hTo]
  exact ⟨h.past, hSplit.1⟩

theorem unSkip_spec (h : Rep b q) {n : Nat} (hn : n ≤ q.past.length) :
    Rep (b.unSkip n) ⟨q.past.take (q.past.length - n),
      q.past.drop (q.past.length - n) ++ q.bytes⟩ := by
  have hPast := h.past_le
  have hLen := h.len_eq
  have hStep : (if n > b.ptr then b.ptr else n) = n := if_neg (by omega)
  have hTake : (q.past.take (q.past.length - n)).length = q.past.length - n := by
    rw [List.length_take]
    omega
  have hSplit := h.past
  rw [← List.take_append_drop (q.past.length - n) q.past, List.map_append, holds_append,
    List.length_map, List.take_append_drop, hTake] at hSplit
  have hMid : b.ptr - q.past.length + (q.past.length - n) = b.ptr - n := by omega
  rw [hMid] at hSplit
  unfold Buffer.unSkip
  rw [hStep]
  refine
    { sound := h.sound
      past_le := by dsimp only; omega
      len_eq := by dsimp only; rw [List.length_append, List.length_drop]; omega
      past := ?_
      bytes := ?_ }
  · dsimp only
    rw [hTake, show b.ptr - n - (q.past.length - n) = b.ptr - q.past.length by omega]
    exact hSplit.1
  · dsimp only
    rw [List.map_append, holds_append, List.length_map, List.length_drop]
    refine ⟨hSplit.2, ?_⟩
    rw [show b.ptr - n + (q.past.length - (q.past.length - n)) = b.ptr by omega]
    exact h.bytes

theorem empty_spec (h : Rep b q) : ∃ b', b.empty = some b' ∧ Rep b' ⟨[], []⟩ := by
  rcases rewind_spec h with ⟨c, hc, hRep, -, -⟩
  rw [Buffer.empty, hc, Option.map_some]
  split
  · exact ⟨_, rfl, hRep.of_buffer_eq rfl rfl⟩
  · exact ⟨_, rfl, hRep⟩

/-! ### `Prepend` -/

/-- What `Allocate` leaves `Prepend`: it can shift the data to `m` exactly when
`PrependFits` says so. -/
theorem Allocated.fits_iff {c : Buffer} {m : Nat} (h : Rep b q) (hne : q.bytes ≠ [])
    (hSave : b.save = false) (hm : b.ptr < m) (hAlloc : Allocated b c q (m - b.ptr)) :
    c.ptr ≤ b.ptr ∧ (b.PrependFits m ↔ c.ptr + q.bytes.length + (m - c.ptr) < c.buffer.size) := by
  have hSize := h.size_eq
  have hPos : 0 < q.bytes.length := List.length_pos_of_ne_nil hne
  have hRoom := hAlloc.room
  have hLen := hAlloc.rep.len_eq
  dsimp only at hLen
  have hPlace := hAlloc.place hne
  unfold Buffer.Stays at hPlace
  unfold Buffer.PrependFits
  split at hPlace
  · next hStay =>
    -- the data stay, and `Allocate` has made the room that is needed
    rw [hSave] at hStay
    refine ⟨hPlace.le, iff_of_true (fun _ h1 _ h2 h3 => ?_) (by omega)⟩
    rcases hStay with (hNo | hStay) | hStay
    · exact absurd hNo Bool.false_ne_true
    · omega
    · omega
  · next hMove =>
    simp only [not_or] at hMove
    refine ⟨by omega, ?_⟩
    constructor
    · intro hFits
      have hOld := hFits (by omega) (by omega) hm (by omega) (by omega)
      omega
    · intro hNew _ _ _ _ _
      omega

theorem shift_spec (h : Rep b q) (hne : q.bytes ≠ []) (hSave : b.save = false) {m : Nat}
    (hm : b.ptr < m) :
    (b.PrependFits m → ∃ b', b.shift m = some b' ∧ Rep b' ⟨[], q.bytes⟩ ∧ b'.ptr = m) ∧
      (¬ b.PrependFits m → b.shift m = none) := by
  rcases allocate_spec h (m - b.ptr) with ⟨c, hc, hAlloc⟩
  rcases Allocated.fits_iff h hne hSave hm hAlloc with ⟨hPtr, hIff⟩
  have hPos : 0 < q.bytes.length := List.length_pos_of_ne_nil hne
  have hLen := hAlloc.rep.len_eq
  dsimp only at hLen
  have hRead : (c.buffer.buf.drop c.ptr).take c.size = q.bytes.map some :=
    hAlloc.rep.contents_eq
  constructor
  · intro hFits
    have hCap := hIff.mp hFits
    have hIn : m + (q.bytes.map some).length ≤ c.buffer.size := by
      rw [List.length_map]
      omega
    rcases XString.write_spec hIn with ⟨x, hx, hLenX, hSizeX, hHolds, -⟩
    have hEnd : x.len + (m - c.ptr) < x.size := by omega
    rcases XString.setLength_spec hEnd with ⟨y, hy, hLenY, hSizeY, hKeep⟩
    refine ⟨{ c with buffer := y, ptr := m }, ?_, ?_, rfl⟩
    · simp only [Buffer.shift, Buffer.spaceAdd, XString.move, hc, hRead, hx, hy,
        Option.bind_eq_bind, Option.bind_some, Option.map_some]
    · refine
        { sound := .of_lt (by dsimp only; omega)
          past_le := Nat.zero_le _
          len_eq := by dsimp only; omega
          past := Holds.nil _ _
          bytes := hKeep _ _ (by dsimp only; rw [List.length_map]; omega) hHolds }
  · intro hNot
    -- either the move leaves the block, or the NUL that `SpaceAdd` stores does
    have hCap := mt hIff.mpr hNot
    by_cases hIn : m + (q.bytes.map some).length ≤ c.buffer.size
    · rcases XString.write_spec hIn with ⟨x, hx, hLenX, hSizeX, -, -⟩
      have hOut : x.setLength (x.len + (m - c.ptr)) = none := by
        have hNonempty : x.buf ≠ [] := by
          intro hNil
          rw [XString.size, hNil, List.length_nil] at hSizeX
          rw [List.length_map] at hIn
          omega
        have hPoke : store x.buf (x.len + (m - c.ptr)) [some 0] = none := by
          apply store_eq_none_iff.mpr
          refine ⟨List.cons_ne_nil _ _, ?_⟩
          rw [List.length_singleton]
          change x.size < _
          omega
        rw [XString.setLength, if_neg hNonempty, XString.poke, hPoke, Option.map_none]
      simp only [Buffer.shift, Buffer.spaceAdd, XString.move, hc, hRead, hx, hOut,
        Option.bind_eq_bind, Option.bind_some, Option.map_none, Option.bind_none]
    · have hOut : store c.buffer.buf m (q.bytes.map some) = none := by
        apply store_eq_none_iff.mpr
        refine ⟨fun hNil => hne (List.map_eq_nil_iff.mp hNil), ?_⟩
        change c.buffer.size < _
        omega
      simp only [Buffer.shift, XString.move, XString.write, hc, hRead, hOut,
        Option.bind_eq_bind, Option.bind_some, Option.map_none, Option.bind_none]

/-- The last part of `Prepend`: the text goes right before the data. -/
theorem storeBefore_spec (h : Rep b q) {s : Bytes} (hs : s.length ≤ b.ptr)
    (hPos : 0 < b.buffer.len) :
    ∃ x, b.buffer.write (b.ptr - s.length) (s.map some) = some x ∧
      Rep { b with buffer := x, ptr := b.ptr - s.length } ⟨[], s ++ q.bytes⟩ := by
  have hLen := h.len_eq
  have hCap := h.lt_size hPos
  have hIn : b.ptr - s.length + (s.map some).length ≤ b.buffer.size := by
    rw [List.length_map]
    omega
  rcases XString.write_spec hIn with ⟨x, hx, hLenX, hSizeX, hHolds, hKeep⟩
  refine ⟨x, hx, ?_⟩
  refine
    { sound := .of_lt (by dsimp only; omega)
      past_le := Nat.zero_le _
      len_eq := by dsimp only; rw [List.length_append]; omega
      past := Holds.nil _ _
      bytes := ?_ }
  dsimp only
  rw [List.map_append, holds_append, List.length_map, Nat.sub_add_cancel hs]
  exact ⟨hHolds, hKeep _ _ h.bytes (.inr (by rw [List.length_map]; omega))⟩

theorem insert_spec (h : Rep b q) (hSave : b.save = false) (s : Bytes) :
    (b.PrependFits s.length → ∃ b', b.insert s = some b' ∧ Rep b' ⟨[], s ++ q.bytes⟩) ∧
      (¬ b.PrependFits s.length → b.insert s = none) := by
  have hSize := h.size_eq
  have hLen := h.len_eq
  unfold Buffer.insert
  by_cases hZero : b.size = 0
  · have hEmpty : q.bytes = [] := List.eq_nil_of_length_eq_zero (hSize ▸ hZero)
    rw [if_pos hZero, hEmpty, List.append_nil]
    refine ⟨fun _ => ?_, fun hNot => absurd (fun hne => absurd hZero hne) hNot⟩
    have hFill := fillSpace_spec h (le_refl s.length)
    rw [hEmpty, List.nil_append] at hFill
    exact hFill
  rw [if_neg hZero]
  have hne : q.bytes ≠ [] := fun hEmpty => hZero (by rw [hSize, hEmpty, List.length_nil])
  by_cases hm : b.ptr < s.length
  · rw [if_pos hm]
    have hShift := shift_spec h hne hSave hm
    constructor
    · intro hFit
      rcases hShift.1 hFit with ⟨c, hc, hRep, hPtr⟩
      have hLenC := hRep.len_eq
      dsimp only at hLenC
      rcases storeBefore_spec hRep (s := s) hPtr.ge (by omega) with ⟨x, hx, hRep'⟩
      exact ⟨_, by rw [hc, Option.bind_some, hx, Option.map_some], hRep'⟩
    · intro hNot
      rw [hShift.2 hNot, Option.bind_none]
  · rw [if_neg hm, Option.bind_some]
    refine ⟨fun _ => ?_, fun hNot => absurd (fun _ _ hLt => absurd hLt hm) hNot⟩
    rcases storeBefore_spec h (s := s) (by omega) (by omega) with ⟨x, hx, hRep⟩
    exact ⟨_, by rw [hx, Option.map_some], hRep⟩

theorem prepend_spec (h : Rep b q) (s : Bytes) :
    (b.PrependFits s.length → ∃ b', b.prepend s = some b' ∧ Rep b' ⟨[], s ++ q.bytes⟩) ∧
      (¬ b.PrependFits s.length → b.prepend s = none) := by
  unfold Buffer.prepend
  by_cases hNil : s = []
  · rw [if_pos hNil, hNil, List.nil_append]
    refine ⟨fun _ => ⟨b, rfl, h.forget⟩, fun hNot => ?_⟩
    exact absurd (fun _ _ hLt => absurd hLt (Nat.not_lt_zero _)) hNot
  · rw [if_neg hNil]
    -- `save=false` changes neither the queue nor what fits
    have hClear : Rep { b with save := false } q := h.of_buffer_eq rfl rfl
    exact insert_spec hClear rfl s

/-! ### `MoveDataHere` -/

theorem spaceAdd_zero (h : Rep b q) : ∃ b', b.spaceAdd 0 = some b' ∧ Rep b' ⟨[], q.bytes⟩ := by
  by_cases hNull : b.buffer.buf = []
  · rw [Buffer.spaceAdd, XString.setLength, if_pos hNull, Option.map_some]
    exact ⟨b, rfl, h.forget⟩
  · have hRoom : b.buffer.len + ([] : Bytes).length < b.buffer.size := h.sound.fits hNull
    rcases spaceAdd_spec h.forget (Holds.nil _ _) hRoom with ⟨b', hb', hRep, -, -⟩
    rw [List.append_nil] at hRep
    exact ⟨b', hb', hRep⟩

theorem moveDataHere_spec {o : Buffer} {r : Queue} (h : Rep b q) (ho : Rep o r) (n : Nat) :
    ∃ b' o', b.moveDataHere o n = some (b', o') ∧ Rep b' ⟨[], q.bytes ++ r.bytes.take n⟩ ∧
      Rep o' ⟨[], r.bytes.drop n⟩ := by
  have hSize := h.size_eq
  have hSizeO := ho.size_eq
  have hLenO := ho.len_eq
  have hTake : (if o.size > n then n else o.size) = (r.bytes.take n).length := by
    rw [List.length_take]
    split <;> omega
  unfold Buffer.moveDataHere
  dsimp only
  rw [hTake]
  by_cases hPos : 0 < (r.bytes.take n).length
  · rw [if_pos hPos]
    by_cases hSwap : 64 ≤ (r.bytes.take n).length ∧ b.size = 0 ∧
        o.size = (r.bytes.take n).length ∧ b.save = false ∧ o.save = false
    · rw [if_pos hSwap]
      have hEmpty : q.bytes = [] := List.eq_nil_of_length_eq_zero (by omega)
      have hAll : r.bytes.take n = r.bytes := by
        apply List.take_of_length_le
        rw [List.length_take] at hSwap hPos
        omega
      have hNone : r.bytes.drop n = [] := by
        apply List.drop_eq_nil_of_le
        rw [List.length_take] at hSwap
        omega
      rw [hAll] at hPos ⊢
      rw [hNone, hEmpty]
      have hCap := ho.lt_size (by omega)
      have hTaken : Rep { b with buffer := { o.buffer with len := o.ptr }, ptr := o.ptr }
          ⟨[], []⟩ := by
        refine
          { sound := .of_lt (by dsimp only [XString.size] at hCap ⊢; omega)
            past_le := Nat.zero_le _
            len_eq := rfl
            past := Holds.nil _ _
            bytes := Holds.nil _ _ }
      have hRoom : o.ptr + r.bytes.length < o.buffer.size := by omega
      rcases spaceAdd_spec hTaken ho.bytes hRoom with ⟨b', hb', hRep, -, -⟩
      refine ⟨b', { o with buffer := b.buffer, ptr := b.ptr, pos := o.pos + r.bytes.length },
        by rw [hb', Option.map_some], hRep, ?_⟩
      exact (hEmpty ▸ h.forget).of_buffer_eq rfl rfl
    · rw [if_neg hSwap]
      have hRead : (o.buffer.buf.drop o.ptr).take (r.bytes.take n).length =
          (r.bytes.take n).map some := by
        have hPrefix := ho.bytes
        rw [← List.take_append_drop n r.bytes, List.map_append, holds_append] at hPrefix
        exact hPrefix.1.read (List.length_map _).symm
      rcases fillSpace_spec h (le_refl (r.bytes.take n).length) with ⟨b', hb', hRep⟩
      refine ⟨b', o.skip (r.bytes.take n).length, by rw [hRead, hb', Option.map_some], hRep, ?_⟩
      have hSkip := (skip_spec ho (r.bytes.take n).length).forget
      have hSame : r.bytes.drop (r.bytes.take n).length = r.bytes.drop n := by
        rw [List.length_take, List.drop_eq_drop_iff]
        omega
      rw [hSame] at hSkip
      exact hSkip
  · rw [if_neg hPos]
    have hNone : (r.bytes.take n).length = 0 := by omega
    have hTaken : r.bytes.take n = [] := List.eq_nil_of_length_eq_zero hNone
    have hKept : r.bytes.drop n = r.bytes := by
      have hSplit := List.take_append_drop n r.bytes
      rwa [hTaken, List.nil_append] at hSplit
    rcases spaceAdd_zero h with ⟨b', hb', hRep⟩
    rw [hNone, hTaken, hKept, List.append_nil]
    exact ⟨b', o, by rw [hb', Option.map_some], hRep, ho.forget⟩

/-! ## Runs of any number of buffers -/

/-- The operations on one buffer. -/
inductive Op
  | put (s : Bytes)
  | append (s : Bytes)
  | skip (n : Nat)
  | unSkip (n : Nat)
  | prepend (s : Bytes)
  | allocate (n : Nat)
  | fillSpace (room : Nat) (s : Bytes)
  | empty
  | save (max : Int)

namespace Op

def run : Op → Buffer → Option Buffer
  | put s, b => b.put s
  | append s, b => b.append s
  | skip n, b => some (b.skip n)
  | unSkip n, b => some (b.unSkip n)
  | prepend s, b => b.prepend s
  | allocate n, b => b.allocate n
  | fillSpace room s, b => b.fillSpace room (s.map some)
  | empty, b => b.empty
  | save max, b => some { b with save := true, saveMax := max }

/-- What the operation means for the queue. -/
def act : Op → Queue → Queue
  | put s, q => ⟨[], q.bytes ++ s⟩
  | append s, q => ⟨[], q.bytes ++ s⟩
  | skip n, q => ⟨q.past ++ q.bytes.take n, q.bytes.drop n⟩
  | unSkip n, q => ⟨q.past.take (q.past.length - n), q.past.drop (q.past.length - n) ++ q.bytes⟩
  | prepend s, q => ⟨[], s ++ q.bytes⟩
  | allocate _, q => ⟨[], q.bytes⟩
  | fillSpace _ s, q => ⟨[], q.bytes ++ s⟩
  | empty, _ => ⟨[], []⟩
  | save _, q => q

/-- What the caller promises: to put back no more than was skipped, and to fill
no more than the space it asked for. -/
def Legal : Op → Queue → Prop
  | unSkip n, q => n ≤ q.past.length
  | fillSpace room s, _ => s.length ≤ room
  | _, _ => True

/-- No operation but `Prepend` can leave the block. -/
def Fits : Op → Buffer → Prop
  | prepend s, b => b.PrependFits s.length
  | _, _ => True

theorem run_spec (o : Op) (h : Rep b q) (hLegal : o.Legal q) :
    (o.Fits b → ∃ b', o.run b = some b' ∧ Rep b' (o.act q)) ∧
      (¬ o.Fits b → o.run b = none) := by
  cases o with
  | put s => exact ⟨fun _ => put_spec h s, fun hNot => absurd trivial hNot⟩
  | append s => exact ⟨fun _ => append_spec h s, fun hNot => absurd trivial hNot⟩
  | skip n => exact ⟨fun _ => ⟨_, rfl, skip_spec h n⟩, fun hNot => absurd trivial hNot⟩
  | unSkip n =>
      exact ⟨fun _ => ⟨_, rfl, unSkip_spec h hLegal⟩, fun hNot => absurd trivial hNot⟩
  | prepend s => exact prepend_spec h s
  | allocate n =>
      refine ⟨fun _ => ?_, fun hNot => absurd trivial hNot⟩
      rcases allocate_spec h n with ⟨b', hb', hAlloc⟩
      exact ⟨b', hb', hAlloc.rep⟩
  | fillSpace room s =>
      exact ⟨fun _ => fillSpace_spec h hLegal, fun hNot => absurd trivial hNot⟩
  | empty => exact ⟨fun _ => empty_spec h, fun hNot => absurd trivial hNot⟩
  | save max =>
      exact ⟨fun _ => ⟨_, rfl, h.of_buffer_eq rfl rfl⟩, fun hNot => absurd trivial hNot⟩

end Op

/-- An operation on one buffer, or a move from one buffer to another. -/
inductive Action (ι : Type)
  | on (i : ι) (o : Op)
  | moveDataHere (i o : ι) (maxLen : Nat)

namespace Action

variable {ι : Type} [DecidableEq ι]

def run : Action ι → (ι → Buffer) → Option (ι → Buffer)
  | .on i o, bs => (o.run (bs i)).map fun b => Function.update bs i b
  | .moveDataHere i o n, bs =>
      ((bs i).moveDataHere (bs o) n).map fun r =>
        Function.update (Function.update bs i r.1) o r.2

def act : Action ι → (ι → Queue) → ι → Queue
  | .on i o, qs => Function.update qs i (o.act (qs i))
  | .moveDataHere i o n, qs =>
      Function.update
        (Function.update qs i ⟨[], (qs i).bytes ++ (qs o).bytes.take n⟩)
        o ⟨[], (qs o).bytes.drop n⟩

def Legal : Action ι → (ι → Queue) → Prop
  | .on i o, qs => o.Legal (qs i)
  | .moveDataHere i o _, _ => i ≠ o

def Fits : Action ι → (ι → Buffer) → Prop
  | .on i o, bs => o.Fits (bs i)
  | .moveDataHere _ _ _, _ => True

end Action

section Runs

variable {ι : Type} [DecidableEq ι] {bs bs' : ι → Buffer} {qs : ι → Queue}

theorem rep_update (h : ∀ i, Rep (bs i) (qs i)) {i : ι} (hi : Rep b q) :
    ∀ j, Rep (Function.update bs i b j) (Function.update qs i q j) := by
  intro j
  by_cases hj : j = i
  · subst hj
    rw [Function.update_self, Function.update_self]
    exact hi
  · rw [Function.update_of_ne hj, Function.update_of_ne hj]
    exact h j

/-- One step of the system, with both outcomes. -/
theorem Action.run_spec (a : Action ι) (h : ∀ i, Rep (bs i) (qs i)) (hLegal : a.Legal qs) :
    (a.Fits bs → ∃ bs', a.run bs = some bs' ∧ ∀ i, Rep (bs' i) (a.act qs i)) ∧
      (¬ a.Fits bs → a.run bs = none) := by
  cases a with
  | on i o =>
      have hOne := Op.run_spec o (h i) hLegal
      constructor
      · intro hFits
        rcases hOne.1 hFits with ⟨b', hb', hRep⟩
        exact ⟨_, by rw [Action.run, hb', Option.map_some], rep_update h hRep⟩
      · intro hNot
        rw [Action.run, hOne.2 hNot, Option.map_none]
  | moveDataHere i o n =>
      refine ⟨fun _ => ?_, fun hNot => absurd trivial hNot⟩
      rcases moveDataHere_spec (h i) (h o) n with ⟨b', o', hMove, hRep, hRep'⟩
      exact ⟨_, by rw [Action.run, hMove, Option.map_some],
        rep_update (rep_update h hRep) hRep'⟩

/-- New buffers, and the empty queues they represent. -/
def Started (s : (ι → Buffer) × (ι → Queue)) : Prop :=
  ∀ i, s.1 i = .new ∧ s.2 i = ⟨[], []⟩

/-- A legal action that meets `ok` on the state before it. -/
def Step (ok : Action ι → (ι → Buffer) → Prop) (s : (ι → Buffer) × (ι → Queue))
    (a : Action ι) (s' : (ι → Buffer) × (ι → Queue)) : Prop :=
  a.Legal s.2 ∧ ok a s.1 ∧ a.run s.1 = some s'.1 ∧ s'.2 = a.act s.2

theorem rep_of_reach {s : (ι → Buffer) × (ι → Queue)}
    (h : Reach Started (Step Action.Fits) s) : ∀ i, Rep (s.1 i) (s.2 i) := by
  apply Reach.invariant (I := fun s => ∀ i, Rep (s.1 i) (s.2 i)) _ _ h
  · intro s hStart i
    rw [(hStart i).1, (hStart i).2]
    exact rep_new
  · rintro ⟨bs, qs⟩ a ⟨bs', qs'⟩ hRep ⟨hLegal, hFits, hRun, hAct⟩
    rcases (a.run_spec hRep hLegal).1 hFits with ⟨bs'', hRun', hRep'⟩
    dsimp only at hRun hAct ⊢
    rw [hRun', Option.some.injEq] at hRun
    rw [← hRun, hAct]
    exact hRep'

/-- In every run whose `Prepend`s fit, every buffer shows its queue and keeps
inside its block; and a legal action stores outside a block exactly when it does
not fit. -/
theorem buffers_refine {s : (ι → Buffer) × (ι → Queue)}
    (h : Reach Started (Step Action.Fits) s) :
    (∀ i, (s.1 i).contents = (s.2 i).bytes.map some ∧ (s.1 i).ptr ≤ (s.1 i).buffer.len ∧
      ((s.1 i).buffer.buf ≠ [] → (s.1 i).buffer.len < (s.1 i).buffer.size)) ∧
    ∀ a : Action ι, a.Legal s.2 → ((a.run s.1).isSome ↔ a.Fits s.1) := by
  have hRep := rep_of_reach h
  constructor
  · intro i
    have hLen := (hRep i).len_eq
    exact ⟨(hRep i).contents_eq, by omega, (hRep i).sound.fits⟩
  · intro a hLegal
    have hStep := a.run_spec hRep hLegal
    constructor
    · intro hSome
      by_contra hNot
      rw [hStep.2 hNot] at hSome
      exact absurd hSome Bool.false_ne_true
    · intro hFits
      rcases hStep.1 hFits with ⟨bs', hRun, -⟩
      rw [hRun]
      rfl

end Runs

/-- Four bytes put and three of them skipped: the block has five cells. -/
def skipped : (Unit → Buffer) × (Unit → Queue) :=
  (fun _ => ⟨⟨(bytes "abcd").map some ++ [some 0], 4⟩, 3, false, 0, 7⟩,
    fun _ => ⟨bytes "abc", bytes "d"⟩)

theorem reach_skipped {ok : Action Unit → (Unit → Buffer) → Prop}
    (hPut : ∀ bs, ok (.on () (.put (bytes "abcd"))) bs)
    (hSkip : ∀ bs, ok (.on () (.skip 3)) bs) : Reach Started (Step ok) skipped := by
  have hStart : Reach Started (Step ok) (fun _ => Buffer.new, fun _ => ⟨[], []⟩) :=
    .start fun _ => ⟨rfl, rfl⟩
  have hFull : Reach Started (Step ok)
      (fun _ => ⟨⟨(bytes "abcd").map some ++ [some 0], 4⟩, 0, false, 0, 4⟩,
        fun _ => ⟨[], bytes "abcd"⟩) :=
    hStart.next (.on () (.put (bytes "abcd"))) ⟨trivial, hPut _, rfl, rfl⟩
  exact hFull.next (.on () (.skip 3)) ⟨trivial, hSkip _, rfl, rfl⟩

theorem buffers_refine_skipped :
    (skipped.1 ()).contents = [some (ch 'd')] ∧
      ((Action.on () (.prepend (bytes "xyz"))).run skipped.1).isSome := by
  have hReach : Reach Started (Step Action.Fits) skipped :=
    reach_skipped (fun _ => trivial) fun _ => trivial
  exact ⟨((buffers_refine hReach).1 ()).1,
    ((buffers_refine hReach).2 (.on () (.prepend (bytes "xyz"))) trivial).mpr
      fun _ _ hLt => absurd hLt (Nat.lt_irrefl 3)⟩

/-- Prepending six bytes there moves the one byte left to the front, and then
behind the end of the block. -/
theorem not_buffers_refine :
    ¬ ∀ s : (Unit → Buffer) × (Unit → Queue), Reach Started (Step fun _ _ => True) s →
      ∀ a : Action Unit, a.Legal s.2 → (a.run s.1).isSome := by
  intro hAll
  have hReach : Reach Started (Step fun _ _ => True) skipped :=
    reach_skipped (fun _ => trivial) fun _ => trivial
  have hSome := hAll skipped hReach (.on () (.prepend (bytes "abcdef"))) trivial
  have hNone : ((skipped.1 ()).prepend (bytes "abcdef")).isSome = false := by decide
  rw [Action.run, Option.isSome_map] at hSome
  exact Bool.false_ne_true (hNone.symm.trans hSome)

end Lftp.Ports.ByteBuffer
