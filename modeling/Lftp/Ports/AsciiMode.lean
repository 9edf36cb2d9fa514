import Lftp.Verified.Decimal
import Lftp.Verified.Newlines
import Lftp.Verified.Outcome
import Lftp.Verified.Runs

/-!
# Text files of the local side

`FileCopyPeerFDStream` in ascii mode writes the line ends of the net, a CR and an LF, as one LF,
and reads them the other way round. The data comes in pieces, and a `write` takes a part of what
it is given.

* `Inv`: what was written and what is left make the whole text, whatever comes next.
* `expandLoop_spec`: a read touches no byte outside of its space.
* `ascii_exact`: the text that is written is the one that was put, and the one that is read is the
  one that was in the file.

A write that fails is part of `Put_LL` but not of the runs here.
-/

namespace Lftp.Ports.AsciiMode

open Lftp.Verified Lftp.Verified.Newlines

def cr : UInt8 := 13

def lf : UInt8 := 10

theorem cr_ne_lf : cr ≠ lf := by decide

/-- The text with each LF as CR LF. -/
def toNet (s : Bytes) : Bytes := expand cr lf s

/-- The text with each CR LF as LF. -/
def fromNet (s : Bytes) : Bytes := contract cr lf s

/-! ## Writing -/

/-- What `write` does. -/
inductive Write
  /-- It takes so many bytes, or all of them. -/
  | wrote (n : Nat)
  /-- `E_RETRY` -/
  | again
  /-- `EPIPE` -/
  | pipe
  /-- `ENOSPC`, and the size of the file if `fstat` finds it. -/
  | full (stat : Option Int)
  /-- An error that is not fatal. -/
  | nonFatal
  | fatal

/-- Where the line ends: the number of bytes to write, and `skip_cr`. `memchr` steps over what is
not a CR. -/
def lineEnd (eof : Bool) : Bytes → Nat × Nat
  | [] => (0, 0)
  | c :: rest =>
    if c = cr ∧ rest.head? = some lf then (0, 1)
    else if c = cr ∧ rest = [] ∧ !eof then (0, 0)
    else ((lineEnd eof rest).1 + 1, (lineEnd eof rest).2)

/-- A peer that writes: `buffer`, of which the first `buffer_ptr` bytes are done with. -/
structure Stream where
  ascii : Bool
  buffer : Bytes
  bufferPtr : Nat
  pos : Int
  eof : Bool
  broken : Bool
  error : Bool
  seekBase : Int
  canSeek : Bool
  /-- What `write` has taken. -/
  written : Bytes
  deriving DecidableEq

namespace Stream

def data (s : Stream) : Bytes := s.buffer.drop s.bufferPtr

/-- `Size` -/
def size (s : Stream) : Int := s.data.length

def write (s : Stream) (b : Bytes) : Stream := { s with written := s.written ++ b }

/-- `Allocate`, where the data may move to the beginning of the buffer. -/
def allocate (size : Nat) (s : Stream) : Stream :=
  if s.data = [] ∨ size ≤ s.bufferPtr ∧ s.data.length ≤ s.bufferPtr then
    { s with buffer := s.data, bufferPtr := 0 }
  else s

/-- `Append`, and the position that `Put` adds to it. -/
def append (b : Bytes) (s : Stream) : Stream :=
  let s := s.allocate b.length
  { s with buffer := s.buffer ++ b, pos := s.pos + b.length }

/-- `pos+=len` -/
def advance (len : Nat) (s : Stream) : Stream := { s with pos := s.pos + len }

/-- `UnSkip` -/
def unSkip (len : Nat) (s : Stream) : Stream :=
  let len := min len s.bufferPtr
  { s with bufferPtr := s.bufferPtr - len, pos := s.pos - len }

/-- The workaround for a full disk. -/
def checkFile (stat : Option Int) (s : Stream) : Stream :=
  if !s.canSeek then s
  else
    match stat with
    | none => s
    | some size =>
      let done := s.seekBase + s.pos - s.size
      if size < done then
        if done - s.bufferPtr - size ≤ s.bufferPtr then s.unSkip (done - size).toNat
        else { s with buffer := [], bufferPtr := 0, pos := size }
      else s

/-- `Put_LL`, with what `write` does to the line and whether it takes the LF after it. -/
def putLL (buf : Bytes) (w : Write) (newline : Bool) (s : Stream) : Int × Stream :=
  if buf = [] then (0, s)
  else
    let (len, skipCr) := if s.ascii then lineEnd s.eof buf else (buf.length, 0)
    if len = 0 then (skipCr, s)
    else
      match w with
      | .wrote n =>
        let res := min n len
        let s := s.write (buf.take res)
        if res = len ∧ skipCr = 1 then
          if newline then (res + skipCr + 1, s.write [lf]) else (res + skipCr, s)
        else (res, s)
      | .again => (0, s)
      | .pipe =>
        (-1, { s with broken := true, buffer := s.buffer.take s.bufferPtr, eof := true })
      | .full stat => (0, s.checkFile stat)
      | .nonFatal => (0, s)
      | .fatal => (-1, { s with error := true })

def putLLMin : Nat := 0x2000

/-- `IOBuffer::Put` -/
def put (b : Bytes) (w : Write) (newline : Bool) (s : Stream) : Stream :=
  if putLLMin ≤ b.length ∧ s.data = [] then
    let (res, s) := s.putLL b w newline
    let rest := b.drop res.toNat
    let s := s.advance res.toNat
    if rest = [] then s else s.append rest
  else if b = [] then s
  else s.append b

def putEOF (s : Stream) : Stream := { s with eof := true }

/-- `Do` -/
def turn (w : Write) (newline : Bool) (s : Stream) : Stream :=
  if s.error ∨ s.broken ∨ s.data = [] then s
  else
    let (res, s) := s.putLL s.data w newline
    if 0 < res then { s with bufferPtr := s.bufferPtr + res.toNat } else s

end Stream

/-! ## Reading -/

/-- A byte outside of the space. -/
inductive Fault
  | outside
  deriving DecidableEq

/-- `memmove(buf+dst,buf+src,n)` -/
def memmove (buf : Bytes) (dst src n : Nat) : Except Fault Bytes :=
  if dst + n ≤ buf.length ∧ src + n ≤ buf.length then
    .ok (buf.take dst ++ (buf.drop src).take n ++ buf.drop (dst + n))
  else .error .outside

/-- A CR before each LF of the `i` bytes at `p`; `res` bytes are there with those that came in. -/
def expandLoop : Nat → Nat → Nat → Bytes → Except Fault (Nat × Bytes)
  | 0, _, res, buf => .ok (res, buf)
  | i + 1, p, res, buf =>
    if p < buf.length then
      if buf[p]? = some lf then do
        let buf ← memmove buf (p + 1) p (i + 1)
        expandLoop i (p + 2) (res + 1) (buf.set p cr)
      else expandLoop i (p + 1) res buf
    else .error .outside

/-- A peer that reads. -/
structure Source where
  ascii : Bool
  eof : Bool
  /-- What it has given. -/
  given : Bytes

/-- `Get_LL`, where `read` gives this chunk of at most `len` bytes, and `EmbraceNewData`. -/
def Source.getLL (len : Nat) (chunk : Bytes) (s : Source) : Except Fault Source := do
  let space := if s.ascii then len * 2 else len
  let buf := chunk ++ List.replicate (space - chunk.length) 0
  let (res, buf) ← if s.ascii then expandLoop chunk.length 0 chunk.length buf
    else .ok (chunk.length, buf)
  .ok { s with given := s.given ++ buf.take res, eof := s.eof || res == 0 }

/-! ## Runs of a peer that writes -/

/-- A peer and what was put so far. -/
structure Run where
  text : Bytes
  stream : Stream

inductive Event
  | put (b : Bytes) (w : Write) (newline : Bool)
  | putEOF
  | turn (w : Write) (newline : Bool)

def act (r : Run) : Event → Run
  | .put b w newline => ⟨r.text ++ b, r.stream.put b w newline⟩
  | .putEOF => ⟨r.text, r.stream.putEOF⟩
  | .turn w newline => ⟨r.text, r.stream.turn w newline⟩

/-- A part is written, or nothing for the moment. -/
def Write.Partial : Write → Prop
  | .wrote _ => True
  | .again => True
  | _ => False

/-- Something is written. -/
def Write.Takes : Write → Prop
  | .wrote n => 0 < n
  | _ => False

/-- Nothing is put after the end. -/
def Allowed (r : Run) : Event → Prop
  | .put _ w _ => w.Partial ∧ r.stream.eof = false
  | .putEOF => True
  | .turn w _ => w.Partial

structure Start (r : Run) : Prop where
  text : r.text = []
  ascii : r.stream.ascii = true
  data : r.stream.data = []
  written : r.stream.written = []
  eof : r.stream.eof = false
  broken : r.stream.broken = false
  error : r.stream.error = false

/-- What was written and what is left make the whole text, whatever comes next. -/
structure Inv (r : Run) : Prop where
  ascii : r.stream.ascii = true
  broken : r.stream.broken = false
  error : r.stream.error = false
  text : ∀ more, (r.stream.eof = true → more = []) →
    fromNet (r.text ++ more) = r.stream.written ++ fromNet (r.stream.data ++ more)

/-! ## The end of the line -/

variable {eof : Bool} {buf : Bytes}

theorem lineEnd_le (eof : Bool) (buf : Bytes) : (lineEnd eof buf).1 ≤ buf.length := by
  induction buf with
  | nil => exact Nat.le_refl 0
  | cons c rest ih =>
      unfold lineEnd
      split_ifs
      · exact Nat.zero_le _
      · exact Nat.zero_le _
      · exact Nat.succ_le_succ ih

theorem lineEnd_skip (eof : Bool) (buf : Bytes) : (lineEnd eof buf).2 ≤ 1 := by
  induction buf with
  | nil => exact Nat.zero_le 1
  | cons c rest ih =>
      unfold lineEnd
      split_ifs
      · exact Nat.le_refl 1
      · exact Nat.zero_le 1
      · exact ih

/-- At the end of the text there is something to do. -/
theorem lineEnd_pos (h : buf ≠ []) (hZero : (lineEnd true buf).1 = 0) :
    (lineEnd true buf).2 = 1 := by
  cases buf with
  | nil => exact absurd rfl h
  | cons c rest =>
      unfold lineEnd at hZero ⊢
      by_cases hLine : c = cr ∧ rest.head? = some lf
      · rw [if_pos hLine]
      · rw [if_neg hLine, if_neg (by simp)] at hZero
        cases hZero

/-- A CR LF is where the line ends. -/
theorem lineEnd_pair (h : (lineEnd eof buf).2 = 1) :
    ∃ rest, buf.drop (lineEnd eof buf).1 = cr :: lf :: rest := by
  induction buf with
  | nil => cases h
  | cons c rest ih =>
      unfold lineEnd at h ⊢
      split_ifs at h ⊢ with hLine hLast
      · obtain ⟨rfl, hHead⟩ := hLine
        obtain ⟨rest', rfl⟩ := List.head?_eq_some_iff.mp hHead
        exact ⟨rest', rfl⟩
      · exact ih h

/-- Up to there the text is written as it is. -/
theorem lineEnd_take {k : Nat} (hk : k ≤ (lineEnd eof buf).1) {more : Bytes}
    (hMore : eof = true → more = []) :
    fromNet (buf ++ more) = buf.take k ++ fromNet (buf.drop k ++ more) := by
  induction buf generalizing k with
  | nil => rw [List.take_nil, List.drop_nil]; rfl
  | cons c rest ih =>
      cases k with
      | zero => rfl
      | succ k =>
          unfold lineEnd at hk
          split_ifs at hk with hLine hLast
          · exact absurd hk (by omega)
          · exact absurd hk (by omega)
          · have hKeep : ¬(c = cr ∧ (rest ++ more).head? = some lf) := by
              rintro ⟨rfl, hHead⟩
              cases rest with
              | nil =>
                  cases hEof : eof with
                  | true =>
                      rw [hMore hEof] at hHead
                      cases hHead
                  | false => exact hLast ⟨rfl, rfl, by rw [hEof]; rfl⟩
              | cons d rest => exact hLine ⟨rfl, hHead⟩
            show contract cr lf (c :: (rest ++ more)) = _
            rw [contract_cons hKeep]
            exact congrArg (c :: ·) (ih (Nat.le_of_succ_le_succ hk))

/-! ## A step -/

theorem fromNet_pair (s : Bytes) : fromNet (cr :: lf :: s) = lf :: fromNet s := by
  show contract cr lf (cr :: lf :: s) = _
  rw [contract_pair, contract_cons fun h => cr_ne_lf h.1.symm]
  rfl

/-- What `Put_LL` does in ascii mode to a text that begins with `buf`. -/
theorem putLL_spec {s : Stream} (hAscii : s.ascii = true) (buf : Bytes) {w : Write}
    (hw : w.Partial) (newline : Bool) :
    ∃ (res : Nat) (out : Bytes), s.putLL buf w newline = ((res : Int), s.write out)
      ∧ res ≤ buf.length ∧ (s.eof = true → buf ≠ [] → w.Takes → 0 < res)
      ∧ ∀ more, (s.eof = true → more = []) →
        fromNet (buf ++ more) = out ++ fromNet (buf.drop res ++ more) := by
  have hNothing : ∀ more : Bytes, (s.eof = true → more = []) →
      fromNet (buf ++ more) = [] ++ fromNet (buf.drop 0 ++ more) := fun _ _ => rfl
  have hSame : s.write [] = s := by
    unfold Stream.write
    rw [List.append_nil]
  unfold Stream.putLL
  by_cases hNil : buf = []
  · rw [if_pos hNil]
    exact ⟨0, [], by rw [hSame]; rfl, Nat.zero_le _, fun _ hSome => absurd hNil hSome, hNothing⟩
  rw [if_neg hNil, if_pos hAscii]
  have hLe := lineEnd_le s.eof buf
  have hTake : ∀ k ≤ (lineEnd s.eof buf).1, ∀ more : Bytes, (s.eof = true → more = []) →
      fromNet (buf ++ more) = buf.take k ++ fromNet (buf.drop k ++ more) :=
    fun k hk more => lineEnd_take hk
  have hPair : (lineEnd s.eof buf).2 = 1 →
      ∃ rest, buf.drop (lineEnd s.eof buf).1 = cr :: lf :: rest := lineEnd_pair
  have hSkip := lineEnd_skip s.eof buf
  have hPos : s.eof = true → (lineEnd s.eof buf).1 = 0 → (lineEnd s.eof buf).2 = 1 := by
    intro hEof
    rw [hEof]
    exact lineEnd_pos hNil
  generalize lineEnd s.eof buf = found at hLe hTake hPair hSkip hPos
  obtain ⟨len, skipCr⟩ := found
  dsimp only at hLe hTake hPair hSkip hPos ⊢
  by_cases hLen : len = 0
  · subst hLen
    rw [if_pos rfl]
    refine ⟨skipCr, [], by rw [hSame], ?_, fun hEof _ _ => ?_, fun more hMore => ?_⟩
    · rcases Nat.le_one_iff_eq_zero_or_eq_one.mp hSkip with rfl | rfl
      · exact Nat.zero_le _
      · exact List.length_pos_iff.mpr hNil
    · rw [hPos hEof rfl]
      exact Nat.one_pos
    · rcases Nat.le_one_iff_eq_zero_or_eq_one.mp hSkip with rfl | rfl
      · rfl
      · obtain ⟨rest, hRest⟩ := hPair rfl
        rw [List.drop_zero] at hRest
        subst hRest
        exact contract_pair cr lf (rest ++ more)
  rw [if_neg hLen]
  cases w with
  | again => exact ⟨0, [], by rw [hSame]; rfl, Nat.zero_le _, fun _ _ => False.elim, hNothing⟩
  | pipe => exact hw.elim
  | full stat => exact hw.elim
  | nonFatal => exact hw.elim
  | fatal => exact hw.elim
  | wrote n =>
      dsimp only
      by_cases hAll : min n len = len ∧ skipCr = 1
      · obtain ⟨hEq, rfl⟩ := hAll
        obtain ⟨rest, hRest⟩ := hPair rfl
        have hLength := congrArg List.length hRest
        rw [List.length_drop, List.length_cons, List.length_cons] at hLength
        have hOne : buf.drop (len + 1) = lf :: rest := by
          rw [← List.drop_drop, hRest]
          rfl
        have hTwo : buf.drop (len + 2) = rest := by
          rw [← List.drop_drop, hRest]
          rfl
        rw [hEq, if_pos ⟨rfl, rfl⟩]
        cases newline with
        | true =>
            refine ⟨len + 2, buf.take len ++ [lf], ?_, by omega, fun _ _ _ => by omega,
              fun more hMore => ?_⟩
            · simp only [if_true, Stream.write, List.append_assoc]
              rfl
            · rw [hTake len (Nat.le_refl len) more hMore, hRest, hTwo, List.append_assoc]
              exact congrArg (buf.take len ++ ·) (fromNet_pair (rest ++ more))
        | false =>
            refine ⟨len + 1, buf.take len, rfl, by omega, fun _ _ _ => by omega,
              fun more hMore => ?_⟩
            rw [hTake len (Nat.le_refl len) more hMore, hRest, hOne]
            exact congrArg (buf.take len ++ ·) (contract_pair cr lf (rest ++ more))
      · rw [if_neg hAll]
        exact ⟨min n len, buf.take (min n len), rfl, Nat.le_trans (Nat.min_le_right n len) hLe,
          fun _ _ hTakes => Nat.lt_min.mpr ⟨hTakes, Nat.pos_of_ne_zero hLen⟩, hTake _ (Nat.min_le_right n len)⟩

theorem Inv.start {r : Run} (h : Start r) : Inv r where
  ascii := h.ascii
  broken := h.broken
  error := h.error
  text more _ := by
    rw [h.text, h.data, h.written]
    rfl

theorem data_append (b : Bytes) (s : Stream) : (s.append b).data = s.data ++ b := by
  unfold Stream.append Stream.allocate
  dsimp only
  split_ifs with h
  · rfl
  · have hPtr : s.bufferPtr ≤ s.buffer.length := by
      have hSome := List.length_pos_iff.mpr fun hNil => h (.inl hNil)
      rw [Stream.data, List.length_drop] at hSome
      omega
    exact List.drop_append_of_le_length hPtr

theorem append_eq (b : Bytes) (s : Stream) : ∃ buffer bufferPtr pos,
    s.append b = { s with buffer := buffer, bufferPtr := bufferPtr, pos := pos } := by
  unfold Stream.append Stream.allocate
  dsimp only
  split_ifs <;> exact ⟨_, _, _, rfl⟩

/-- The text goes on. -/
theorem Inv.append {r : Run} (h : Inv r) (hEof : r.stream.eof = false) (b : Bytes) :
    Inv ⟨r.text ++ b, r.stream.append b⟩ := by
  have hData := data_append b r.stream
  obtain ⟨buffer, bufferPtr, pos, hEq⟩ := append_eq b r.stream
  refine ⟨?_, ?_, ?_, fun more _ => ?_⟩
  · rw [hEq]; exact h.ascii
  · rw [hEq]; exact h.broken
  · rw [hEq]; exact h.error
  · have hText := h.text (b ++ more) fun hTrue => by
      rw [hEof] at hTrue
      cases hTrue
    show fromNet (r.text ++ b ++ more) = (r.stream.append b).written ++ _
    rw [hData, List.append_assoc, List.append_assoc, hText, hEq]

/-- `Put` with its short way. -/
theorem Inv.put {r : Run} (h : Inv r) (hEof : r.stream.eof = false) (b : Bytes) {w : Write}
    (hw : w.Partial) (newline : Bool) : Inv ⟨r.text ++ b, r.stream.put b w newline⟩ := by
  have hNil : b = [] → Inv ⟨r.text ++ b, r.stream⟩ := by
    rintro rfl
    rw [List.append_nil]
    exact h
  unfold Stream.put
  split_ifs with hShort hEmpty
  · obtain ⟨res, out, hPut, -, -, hOut⟩ := putLL_spec h.ascii b hw newline
    rw [hPut]
    dsimp only
    rw [Int.toNat_natCast]
    have hFinal : ∀ s : Stream, s.ascii = true → s.broken = false → s.error = false →
        s.written = r.stream.written ++ out → s.data = b.drop res → Inv ⟨r.text ++ b, s⟩ := by
      intro s hAscii hBroken hError hWritten hData
      refine ⟨hAscii, hBroken, hError, fun more _ => ?_⟩
      have hOpen : r.stream.eof = true → b ++ more = [] := fun hTrue => by
        rw [hEof] at hTrue
        cases hTrue
      have hText := h.text (b ++ more) hOpen
      rw [hShort.2, List.nil_append, hOut more fun hTrue => by rw [hEof] at hTrue; cases hTrue]
        at hText
      show fromNet (r.text ++ b ++ more) = s.written ++ fromNet (s.data ++ more)
      rw [hData, hWritten, List.append_assoc, hText, List.append_assoc]
    split_ifs with hRest
    · exact hFinal _ h.ascii h.broken h.error rfl (hRest ▸ hShort.2)
    · have hData := data_append (b.drop res) ((r.stream.write out).advance res)
      obtain ⟨buffer, bufferPtr, pos, hEq⟩ :=
        append_eq (b.drop res) ((r.stream.write out).advance res)
      have hEmpty : ((r.stream.write out).advance res).data = [] := hShort.2
      rw [hEmpty, List.nil_append] at hData
      refine hFinal _ ?_ ?_ ?_ ?_ hData
      · rw [hEq]; exact h.ascii
      · rw [hEq]; exact h.broken
      · rw [hEq]; exact h.error
      · rw [hEq]; rfl
  · exact hNil hEmpty
  · exact h.append hEof b

theorem turn_eq {r : Run} (h : Inv r) {w : Write} (hw : w.Partial) (newline : Bool) :
    ∃ (res : Nat) (out : Bytes), r.stream.turn w newline
        = { r.stream.write out with bufferPtr := r.stream.bufferPtr + res }
      ∧ (r.stream.eof = true → r.stream.data ≠ [] → w.Takes → 0 < res) ∧ ∀ more, (r.stream.eof = true → more = []) →
        fromNet (r.stream.data ++ more) = out ++ fromNet (r.stream.data.drop res ++ more) := by
  have hSame : r.stream = { r.stream.write [] with bufferPtr := r.stream.bufferPtr + 0 } := by
    unfold Stream.write
    rw [List.append_nil]
    rfl
  unfold Stream.turn
  split_ifs with hDone
  · refine ⟨0, [], hSame, fun _ hSome _ => ?_, fun _ _ => rfl⟩
    rw [h.broken, h.error] at hDone
    exact absurd hDone (by simpa using hSome)
  · obtain ⟨res, out, hPut, -, hPos, hOut⟩ := putLL_spec h.ascii r.stream.data hw newline
    refine ⟨res, out, ?_, hPos, hOut⟩
    rw [hPut]
    dsimp only
    split_ifs with hSome
    · rw [Int.toNat_natCast]
      rfl
    · obtain rfl : res = 0 := by omega
      rfl

theorem Inv.turn {r : Run} (h : Inv r) {w : Write} (hw : w.Partial) (newline : Bool) :
    Inv ⟨r.text, r.stream.turn w newline⟩ := by
  obtain ⟨res, out, hTurn, -, hOut⟩ := turn_eq h hw newline
  rw [hTurn]
  refine ⟨h.ascii, h.broken, h.error, fun more hMore => ?_⟩
  show fromNet (r.text ++ more)
    = r.stream.written ++ out ++ fromNet (r.stream.buffer.drop (r.stream.bufferPtr + res) ++ more)
  rw [h.text more hMore, hOut more hMore, List.append_assoc, ← List.drop_drop]
  rfl

theorem Inv.act {r : Run} (h : Inv r) {e : Event} (hOk : Allowed r e) : Inv (act r e) := by
  cases e with
  | put b w newline => exact h.put hOk.2 b hOk.1 newline
  | putEOF =>
      exact ⟨h.ascii, h.broken, h.error, fun more hMore => h.text more fun _ => hMore rfl⟩
  | turn w newline => exact h.turn hOk newline

/-- The data that is left when so many turns of `Do` write all they can. -/
def drain : Nat → Stream → Stream
  | 0, s => s
  | n + 1, s => drain n (s.turn (.wrote s.data.length) true)

/-- At the end of the text every turn that writes brings it nearer. -/
theorem Inv.drained {n : Nat} {r : Run} (h : Inv r) (hEof : r.stream.eof = true)
    (hn : r.stream.data.length ≤ n) : (drain n r.stream).written = fromNet r.text := by
  induction n generalizing r with
  | zero =>
      have hNil := List.length_eq_zero_iff.mp (Nat.le_zero.mp hn)
      have hText := h.text [] fun _ => rfl
      rw [hNil, List.append_nil] at hText
      exact (hText.trans (List.append_nil _)).symm
  | succ n ih =>
      have hw : (Write.wrote r.stream.data.length).Partial := trivial
      obtain ⟨res, out, hTurn, hPos, -⟩ := turn_eq h hw true
      refine ih (h.turn hw true) (by rw [hTurn]; exact hEof) ?_
      show (r.stream.turn _ true).data.length ≤ n
      rw [hTurn]
      show (r.stream.buffer.drop (r.stream.bufferPtr + res)).length ≤ n
      rw [← List.drop_drop, List.length_drop]
      show r.stream.data.length - res ≤ n
      by_cases hNil : r.stream.data = []
      · rw [hNil]
        simp
      · have hSome := hPos hEof hNil (List.length_pos_iff.mpr hNil)
        omega

/-! ## A read -/

theorem memmove_one (pre rest junk : Bytes) (c x : UInt8) :
    memmove (pre ++ c :: rest ++ x :: junk) (pre.length + 1) pre.length (rest.length + 1)
      = .ok (pre ++ c :: c :: rest ++ junk) := by
  have hLength : (pre ++ c :: rest ++ x :: junk).length
      = pre.length + (rest.length + 1) + (junk.length + 1) := by
    simp only [List.length_append, List.length_cons]
  have hTake : (pre ++ c :: rest ++ x :: junk).take (pre.length + 1) = pre ++ [c] := by
    rw [List.append_assoc, List.take_length_add_append]
    rfl
  have hFrom : ((pre ++ c :: rest ++ x :: junk).drop pre.length).take (rest.length + 1)
      = c :: rest := by
    rw [List.append_assoc, List.drop_left]
    exact List.take_left' rfl
  have hDrop : (pre ++ c :: rest ++ x :: junk).drop (pre.length + 1 + (rest.length + 1)) = junk := by
    have hAt : pre.length + 1 + (rest.length + 1) = (pre ++ c :: rest ++ [x]).length := by
      simp only [List.length_append, List.length_cons, List.length_nil]
      omega
    rw [hAt, show pre ++ c :: rest ++ x :: junk = pre ++ c :: rest ++ [x] ++ junk by simp,
      List.drop_left]
  unfold memmove
  rw [hLength, if_pos (by omega), hTake, hFrom, hDrop]
  simp

theorem set_at (pre rest : Bytes) (c d : UInt8) :
    (pre ++ c :: rest).set pre.length d = pre ++ d :: rest := by
  simp

/-- The loop makes room for each CR in the space behind the text. -/
theorem expandLoop_spec (rest : Bytes) : ∀ (pre junk : Bytes) (res : Nat),
    rest.count lf ≤ junk.length → ∃ junk', expandLoop rest.length pre.length res (pre ++ rest ++ junk)
      = .ok (res + rest.count lf, pre ++ toNet rest ++ junk') := by
  induction rest with
  | nil => exact fun pre junk res _ => ⟨junk, rfl⟩
  | cons c rest ih =>
      intro pre junk res hRoom
      have hAt : (pre ++ c :: rest ++ junk)[pre.length]? = some c := by simp
      have hIn : pre.length < (pre ++ c :: rest ++ junk).length := by
        simp only [List.length_append, List.length_cons]
        omega
      rw [List.length_cons, expandLoop, if_pos hIn, hAt]
      by_cases hLine : c = lf
      · subst hLine
        rw [List.count_cons_self] at hRoom ⊢
        cases junk with
        | nil => cases hRoom
        | cons x junk =>
            rw [if_pos rfl, memmove_one, List.append_assoc, List.cons_append]
            show ∃ junk', expandLoop rest.length (pre.length + 2) (res + 1)
              ((pre ++ lf :: (lf :: rest ++ junk)).set pre.length cr) = _
            rw [set_at]
            obtain ⟨junk', hEq⟩ := ih (pre ++ [cr, lf]) junk (res + 1) (Nat.le_of_succ_le_succ hRoom)
            refine ⟨junk', ?_⟩
            have hNext : pre ++ cr :: (lf :: rest ++ junk) = pre ++ [cr, lf] ++ rest ++ junk := by simp
            have hPlace : pre.length + 2 = (pre ++ [cr, lf]).length := by simp
            rw [hNext, hPlace, hEq]
            have hText : toNet (lf :: rest) = [cr, lf] ++ toNet rest := rfl
            rw [hText]
            simp only [List.append_assoc, Nat.add_assoc, Nat.add_comm 1]
      · rw [if_neg fun hEq => hLine (Option.some.inj hEq)]
        obtain ⟨junk', hEq⟩ := ih (pre ++ [c]) junk res (by
          rwa [List.count_cons_of_ne hLine] at hRoom)
        refine ⟨junk', ?_⟩
        have hNext : pre ++ c :: rest ++ junk = pre ++ [c] ++ rest ++ junk := by simp
        have hPlace : pre.length + 1 = (pre ++ [c]).length := by simp
        rw [hNext, hPlace, hEq, List.count_cons_of_ne hLine]
        have hText : toNet (c :: rest) = [c] ++ toNet rest := by
          unfold toNet expand
          rw [List.flatMap_cons, if_neg hLine]
        rw [hText]
        simp only [List.append_assoc]

/-- The space is enough for a read. -/
theorem getLL_eq {s : Source} (hAscii : s.ascii = true) {len : Nat} {chunk : Bytes}
    (h : chunk.length ≤ len) : ∃ eof,
    s.getLL len chunk = .ok { s with given := s.given ++ toNet chunk, eof := eof } := by
  have hRoom : chunk.count lf ≤ (List.replicate (len * 2 - chunk.length) (0 : UInt8)).length := by
    rw [List.length_replicate]
    have hCount := List.count_le_length (a := lf) (l := chunk)
    omega
  obtain ⟨junk, hEq⟩ := expandLoop_spec chunk [] _ chunk.length hRoom
  have hLength : (toNet chunk).length = chunk.length + chunk.count lf := length_expand cr lf chunk
  refine ⟨s.eof || (chunk.length + chunk.count lf == 0), ?_⟩
  have hExpand : expandLoop chunk.length 0 chunk.length
      (chunk ++ List.replicate (len * 2 - chunk.length) 0)
      = .ok (chunk.length + chunk.count lf, toNet chunk ++ junk) := hEq
  unfold Source.getLL
  rw [hAscii]
  dsimp only [if_true]
  rw [if_pos rfl, if_pos rfl, hExpand, ok_bind, ← hLength, List.take_left]

/-- `Get_LL` with each of these lengths and chunks. -/
def reads (l : List (Nat × Bytes)) (s : Source) : Except Fault Source :=
  l.foldlM (fun s r => s.getLL r.1 r.2) s

theorem reads_eq {l : List (Nat × Bytes)} (h : ∀ r ∈ l, r.2.length ≤ r.1) {s : Source}
    (hAscii : s.ascii = true) : ∃ eof,
    reads l s = .ok { s with given := s.given ++ toNet (l.flatMap Prod.snd), eof := eof } := by
  induction l generalizing s with
  | nil => exact ⟨s.eof, by rw [List.flatMap_nil]; simp [reads, toNet]; rfl⟩
  | cons r l ih =>
      obtain ⟨eof, hRead⟩ := getLL_eq hAscii (h r List.mem_cons_self)
      obtain ⟨eof', hRest⟩ := ih (fun r' hr' => h r' (List.mem_cons_of_mem _ hr'))
        (s := { s with given := s.given ++ toNet r.2, eof := eof }) hAscii
      refine ⟨eof', ?_⟩
      unfold reads at hRest ⊢
      rw [List.foldlM_cons, hRead, ok_bind, hRest, List.flatMap_cons]
      simp only [toNet, expand_append, List.append_assoc]

/-! ## Both ways -/

/-- A text is the same whatever the pieces in which it is written or read, and comes back the
same. -/
theorem ascii_exact :
    (∀ r, Reach Start (Guarded act Allowed) r →
      r.stream.written <+: fromNet r.text
      ∧ (r.stream.eof = true → r.stream.data = [] → r.stream.written = fromNet r.text)
      ∧ (r.stream.eof = true → (drain r.stream.data.length r.stream).written = fromNet r.text))
    ∧ (∀ l : List (Nat × Bytes), (∀ r ∈ l, r.2.length ≤ r.1) → ∀ s : Source, s.ascii = true →
      s.given = [] → ∃ s', reads l s = .ok s' ∧ s'.given = toNet (l.flatMap Prod.snd))
    ∧ ∀ text, fromNet (toNet text) = text := by
  refine ⟨fun r hr => ?_, fun l hl s hAscii hGiven => ?_, contract_expand cr_ne_lf⟩
  · have h : Inv r := hr.invariant (fun _ => Inv.start) fun s e s' hs hStep => by
      rw [hStep.2]
      exact hs.act hStep.1
    have hText := h.text [] fun _ => rfl
    rw [List.append_nil, List.append_nil] at hText
    refine ⟨⟨_, hText.symm⟩, fun hEof hNil => ?_, fun hEof => h.drained hEof (Nat.le_refl _)⟩
    rw [hText, hNil]
    exact (List.append_nil _).symm
  · obtain ⟨eof, hEq⟩ := reads_eq hl hAscii
    exact ⟨_, hEq, by rw [hGiven]; rfl⟩

/-- A line end is cut in two, and the part that writes the LF fails at first. -/
example : (drain 3 ([.put [97, 13] (.wrote 1) true, .turn (.wrote 1) true,
    .put [10, 98] .again true, .turn .again false, .putEOF].foldl act
    (⟨[], true, [], 0, 0, false, false, false, 0, true, []⟩ : Run)).stream).written = [97, 10, 98] := by
  decide

end Lftp.Ports.AsciiMode
