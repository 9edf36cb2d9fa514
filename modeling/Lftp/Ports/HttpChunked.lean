import Lftp.Verified.Lines
import Lftp.Verified.Loop
import Lftp.Verified.Percent
import Lftp.Verified.Runs
import Mathlib.Algebra.Order.Ring.Int

/-!
# Reading a chunked HTTP body

`Http::_Read` with `_Skip`, and `Http::Read` around it. The bytes of the body come
in pieces of any size into `recv_buf`, and each call of `Read` asks for some bytes
and is allowed some by the rate limit. There is no content encoding: `inflate` is
null, and what is read are the bytes of the body.

* `Body` is a well-formed chunked body, with its text and its data.
* `At` says how far the decoder has come in it, and `Stage` is the invariant.
* `chunked_exact` is the result over runs.
-/

namespace Lftp.Ports.HttpChunked

open Lftp.Verified

/-! ## `Http` -/

/-- `Http::state_t`, as far as it occurs here. -/
inductive State
  | disconnected
  | receivingHeader
  | receivingBody
  | done
  deriving DecidableEq

/-- The result of `_Read`: a number of bytes, `DO_AGAIN` or `FATAL`. -/
inductive Result
  | got (n : Nat)
  | doAgain
  | fatal
  deriving DecidableEq

/-- `CHUNK_SIZE_UNKNOWN`. -/
def chunkSizeUnknown : Int := -1

/-- The members of `Http` that reading uses, `recvBuf` with its end of file and its
error. `delivered` is no member: it records the bytes that `_Read` and `_Skip` took
as data, in their order. -/
structure Http where
  state : State
  error : Bool
  closed : Bool
  recvBuf : Bytes
  recvEof : Bool
  recvError : Bool
  chunked : Bool
  chunkedTrailer : Bool
  chunkSize : Int
  chunkPos : Int
  bodySize : Int
  bytesReceived : Int
  entitySize : Int
  pos : Int
  realPos : Int
  norestManual : Bool
  delivered : Bytes

/-- The value of hexadecimal digits. -/
def hexNum (s : Bytes) : Nat := s.foldl (fun n c => n * 16 + hexVal c) 0

/-- A `0x` before a digit. -/
def dropPrefix : Bytes → Bytes
  | a :: x :: c :: s =>
    if a = ch '0' ∧ (x = ch 'x' ∨ x = ch 'X') ∧ isXDigit c then c :: s else a :: x :: c :: s
  | s => s

/-- `sscanf(s,"%lx",&n)`, for a text that starts with a hexadecimal digit. -/
def scanHex (s : Bytes) : Option Int :=
  let digits := (dropPrefix s).takeWhile isXDigit
  if digits = [] then none else some ((min (hexNum digits) (2 ^ 64 - 1) : Int).bmod (2 ^ 64))

namespace Http

/-- `Disconnect`. -/
def disconnect (h : Http) : Http := { h with state := .disconnected }

/-- `Fatal`. -/
def fatal (h : Http) : Http := { h with error := true }

/-- `n` bytes of `recv_buf` are data, with `_UpdatePos`. -/
def take (h : Http) (n : Nat) : Http :=
  { h with
    recvBuf := h.recvBuf.drop n
    chunkPos := if h.chunked then h.chunkPos + n else h.chunkPos
    bytesReceived := h.bytesReceived + n
    realPos := h.realPos + n
    delivered := h.delivered ++ h.recvBuf.take n }

/-- The label `not_yet`. -/
def notYet (h : Http) : Result × Http := (.doAgain, if h.recvEof then h.disconnect else h)

/-- What `_Read` does when `size1` bytes may be read. -/
def readData (h : Http) (size allowed size1 : Nat) : Http ⊕ (Result × Http) :=
  let size1 := if size1 > allowed then allowed else size1
  if size1 = 0 then .inr (.doAgain, h)
  else if h.norestManual ∧ h.realPos = 0 ∧ h.pos > 0 then .inr (.doAgain, h)
  else if h.realPos < h.pos then
    let toSkip := h.pos - h.realPos
    .inl (h.take (if toSkip > size1 then size1 else toSkip.toNat))
  else
    let size := if size > size1 then size1 else size
    .inr (.got size, h.take size)

/-- The branch of `_Read` for a chunked body with something in `recv_buf`. -/
def readChunk (h : Http) (size allowed : Nat) : Http ⊕ (Result × Http) :=
  if h.chunkedTrailer ∧ h.state = .receivingHeader then .inr (.doAgain, h)
  else if h.chunkSize = chunkSizeUnknown then
    match h.recvBuf.idxOf? (ch '\n') with
    | none => .inr h.notYet
    | some nl =>
      if isXDigit (h.recvBuf.headD 0) then
        match scanHex h.recvBuf with
        | none => .inr (.fatal, h.fatal)
        | some n => .inl { h with recvBuf := h.recvBuf.drop (nl + 1), chunkSize := n, chunkPos := 0 }
      else .inr (.fatal, h.fatal)
  else if h.chunkSize = 0 then
    .inr (.doAgain, { h with
      chunkedTrailer := true, state := .receivingHeader, bodySize := h.bytesReceived })
  else if h.chunkPos = h.chunkSize then
    if h.recvBuf.length < 2 then .inr h.notYet
    else if h.recvBuf.take 2 ≠ [ch '\r', ch '\n'] then .inr (.fatal, h.fatal)
    else .inl { h with recvBuf := h.recvBuf.drop 2, chunkSize := chunkSizeUnknown }
  else
    let left := h.chunkSize - h.chunkPos
    h.readData size allowed (if h.recvBuf.length > left then left.toNat else h.recvBuf.length)

/-- A turn of `_Read`, from the label `get_again`. -/
def turn (size allowed : Nat) (h : Http) : Http ⊕ (Result × Http) :=
  if h.recvBuf = [] ∧ h.recvError then .inr (.doAgain, h.disconnect)
  else if h.recvBuf = [] ∧ h.recvEof then
    if h.bytesReceived < h.bodySize ∨ h.chunked then .inr (.doAgain, h.disconnect)
    else .inr (.got 0, h)
  else if ¬ h.chunked ∧ h.bodySize ≥ 0 ∧ h.bytesReceived ≥ h.bodySize then .inr (.got 0, h)
  else if ¬ h.chunked ∧ h.entitySize ≥ 0 ∧ h.pos ≥ h.entitySize then .inr (.got 0, h)
  else if h.recvBuf = [] then .inr (.doAgain, h)
  else if h.chunked then h.readChunk size allowed
  else
    h.readData size allowed
      (if h.bodySize ≥ 0 ∧ h.recvBuf.length + h.bytesReceived ≥ h.bodySize then
        (h.bodySize - h.bytesReceived).toNat
      else h.recvBuf.length)

/-- `_Read`. Each turn but the last takes something from `recv_buf`. -/
def read_ (size allowed : Nat) (h : Http) : Result × Http :=
  (loop (turn size allowed) (h.recvBuf.length + 1) h).getD (.doAgain, h)

/-- `Read`. -/
def read (size allowed : Nat) (h : Http) : Result × Http :=
  if h.error then (.fatal, h)
  else if h.closed then (.got 0, h)
  else if h.state = .done then (.got 0, h)
  else if h.state = .receivingBody ∧ h.realPos ≥ 0 then
    match h.read_ size allowed with
    | (.got n, h) => (.got n, { h with pos := h.pos + n })
    | r => r
  else (.doAgain, h)

end Http

/-- What happens while a body is read: bytes come, all bytes have come and the
connection is closed, `Read` is called. -/
inductive Event
  | receive (bytes : Bytes)
  | close
  | read (size allowed : Nat)

def act (h : Http) : Event → Http
  | .receive bytes => { h with recvBuf := h.recvBuf ++ bytes }
  | .close => { h with recvEof := true }
  | .read size allowed => (h.read size allowed).2

/-! ## Well-formed bodies -/

def crlf : Bytes := [ch '\r', ch '\n']

/-- What may stand between the size and the end of its line. -/
structure Extension where
  text : Bytes
  no_newline : ch '\n' ∉ text
  start : ∀ c ∈ text.head?, c = ch ';' ∨ c = ch ' ' ∨ c = ch '\t'

/-- A chunk with data. -/
structure Chunk where
  digits : Bytes
  ext : Extension
  data : Bytes
  digits_hex : ∀ c ∈ digits, isXDigit c = true
  size_eq : hexNum digits = data.length
  size_pos : 0 < data.length
  size_lt : data.length < 2 ^ 31

/-- The chunks with data, the last chunk with its zeros, and what follows it. -/
structure Body where
  chunks : List Chunk
  zeros : Nat
  ext : Extension
  trailer : Bytes
  trailer_ne : trailer ≠ []

/-- The line with the size. -/
def sizeLine (digits : Bytes) (ext : Extension) : Bytes := digits ++ ext.text ++ crlf

/-- The text from the line of the last chunk on. -/
def Body.lastText (b : Body) : Bytes :=
  sizeLine (List.replicate (b.zeros + 1) (ch '0')) b.ext ++ b.trailer

/-- The text from some of the chunks on. -/
def Body.textOf (b : Body) : List Chunk → Bytes
  | [] => b.lastText
  | c :: cs => sizeLine c.digits c.ext ++ (c.data ++ (crlf ++ b.textOf cs))

def Body.text (b : Body) : Bytes := b.textOf b.chunks

def dataOf (cs : List Chunk) : Bytes := cs.flatMap Chunk.data

def Body.data (b : Body) : Bytes := dataOf b.chunks

/-! ## The line with the size -/

theorem not_x_of_hex {c : UInt8} (h : isXDigit c = true) :
    c ≠ ch 'x' ∧ c ≠ ch 'X' ∧ c ≠ ch '\n' :=
  ⟨fun hc => absurd (hc ▸ h) (by decide), fun hc => absurd (hc ▸ h) (by decide),
    fun hc => absurd (hc ▸ h) (by decide)⟩

/-- What ends the digits of a size is no digit and no `x`. -/
theorem Extension.head (e : Extension) (s : Bytes) :
    ∃ x t, e.text ++ (crlf ++ s) = x :: t ∧ isXDigit x = false ∧ x ≠ ch 'x' ∧ x ≠ ch 'X' := by
  cases hText : e.text with
  | nil => exact ⟨ch '\r', ch '\n' :: s, rfl, by decide, by decide, by decide⟩
  | cons x t =>
      refine ⟨x, t ++ (crlf ++ s), rfl, ?_⟩
      rcases e.start x (by rw [hText]; rfl) with hx | hx | hx <;> subst hx <;> decide

theorem dropPrefix_digits {x : UInt8} (hx : x ≠ ch 'x' ∧ x ≠ ch 'X') (digits t : Bytes)
    (hHex : ∀ c ∈ digits, isXDigit c = true) (hNe : digits ≠ []) :
    dropPrefix (digits ++ x :: t) = digits ++ x :: t := by
  match digits, hNe with
  | [a], _ =>
      cases t with
      | nil => rfl
      | cons c t => simp [dropPrefix, hx.1, hx.2]
  | a :: b :: ds, _ =>
      have hb := not_x_of_hex (hHex b (by simp))
      cases hRest : ds ++ x :: t with
      | nil => simp at hRest
      | cons c s =>
          show dropPrefix (a :: b :: (ds ++ x :: t)) = a :: b :: (ds ++ x :: t)
          rw [hRest]
          simp [dropPrefix, hb.1, hb.2.1]

theorem scanHex_line {digits : Bytes} (hHex : ∀ c ∈ digits, isXDigit c = true)
    (hNe : digits ≠ []) (hLt : hexNum digits < 2 ^ 31) (e : Extension) (s : Bytes) :
    scanHex (digits ++ (e.text ++ (crlf ++ s))) = some (hexNum digits : Int) := by
  obtain ⟨x, t, hEq, hxHex, hx⟩ := e.head s
  have hTake : (digits ++ x :: t).takeWhile isXDigit = digits := by
    rw [List.takeWhile_append_of_pos hHex, List.takeWhile_cons, hxHex]
    simp
  have hMin : (min (hexNum digits) (2 ^ 64 - 1) : Int) = hexNum digits :=
    min_eq_left (by omega)
  simp only [scanHex, hEq, dropPrefix_digits hx digits t hHex hNe, hTake, hNe, if_false, hMin]
  rw [Int.bmod_eq_of_le (by omega) (by omega)]

/-! ## The decoder in a body -/

/-- How far the decoder has come: `chunk_size`, `chunk_pos`, the text still to be
decoded and the data so far. -/
inductive At (b : Body) : Int → Int → Bytes → Bytes → Prop
  | header {p : Int} {d : Bytes} (cs : List Chunk) (h : d ++ dataOf cs = b.data) :
      At b chunkSizeUnknown p (b.textOf cs) d
  | data {n p : Nat} {d : Bytes} (l : Bytes) (cs : List Chunk) (hLen : p + l.length = n)
      (hPos : 0 < n) (hLt : n < 2 ^ 31) (h : d ++ (l ++ dataOf cs) = b.data) :
      At b n p (l ++ (crlf ++ b.textOf cs)) d
  | last {p : Int} : At b 0 p b.trailer b.data

/-- The decoder is in the body; `future` are the bytes that have not come yet. -/
structure Reading (b : Body) (h : Http) (future : Bytes) : Prop where
  state : h.state = .receivingBody
  error : h.error = false
  closed : h.closed = false
  chunked : h.chunked = true
  recvError : h.recvError = false
  eof : h.recvEof = true → future = []
  realPos : 0 ≤ h.realPos
  here : At b h.chunkSize h.chunkPos (h.recvBuf ++ future) h.delivered

/-- The decoder has seen the last chunk, and the trailer is next. -/
structure Finished (b : Body) (h : Http) (future : Bytes) : Prop where
  state : h.state = .receivingHeader
  error : h.error = false
  closed : h.closed = false
  trailer : h.recvBuf ++ future = b.trailer
  delivered : h.delivered = b.data

def Stage (b : Body) (h : Http) (future : Bytes) : Prop :=
  Reading b h future ∨ Finished b h future

/-- `_Read` gives nothing: the server ignored the position that was asked for. -/
def Http.Refused (h : Http) : Prop := h.norestManual ∧ h.realPos = 0 ∧ h.pos > 0

/-- A reason for a call to read nothing. -/
def Starved (h : Http) (future : Bytes) (size allowed : Nat) : Prop :=
  size = 0 ∨ allowed = 0 ∨ h.Refused ∨ future ≠ []

theorem At.rest_ne {b : Body} {n p : Int} {rest d : Bytes} (h : At b n p rest d) : rest ≠ [] := by
  cases h with
  | header cs =>
      cases cs with
      | nil => simp [Body.textOf, Body.lastText, sizeLine]
      | cons c cs => simp [Body.textOf, sizeLine, crlf]
  | data l cs => simp [crlf]
  | last => exact b.trailer_ne

/-- A buffer is only empty when there is more to come. -/
theorem Reading.buffer {b : Body} {h : Http} {future : Bytes} (hr : Reading b h future) :
    h.recvBuf ≠ [] ∨ future ≠ [] := by
  have hNe := hr.here.rest_ne
  rw [ne_eq, List.append_eq_nil_iff] at hNe
  exact not_and_or.mp hNe

/-- The end is not there while more is to come. -/
theorem Reading.recvEof_eq {b : Body} {h : Http} {future : Bytes} (hr : Reading b h future)
    (hFuture : future ≠ []) : h.recvEof = false := by
  by_contra hEof
  exact hFuture (hr.eof (by simpa using hEof))

/-- A turn with something in the buffer. -/
theorem Reading.turn_eq {b : Body} {h : Http} {future : Bytes} (hr : Reading b h future)
    (hBuf : h.recvBuf ≠ []) (size allowed : Nat) :
    h.turn size allowed = h.readChunk size allowed := by
  simp [Http.turn, hBuf, hr.chunked]

theorem Reading.turn_nil {b : Body} {h : Http} {future : Bytes} (hr : Reading b h future)
    (hBuf : h.recvBuf = []) (size allowed : Nat) :
    h.turn size allowed = .inr (.doAgain, h) := by
  have hEof := hr.recvEof_eq (hr.buffer.resolve_left (not_not.mpr hBuf))
  simp [Http.turn, hBuf, hr.chunked, hr.recvError, hEof]

/-- The turn at the line with a size: it is taken whole, or it is not there yet. -/
theorem Reading.turn_line {b : Body} {h : Http} {future : Bytes} (hr : Reading b h future)
    (hUnknown : h.chunkSize = chunkSizeUnknown) {digits : Bytes}
    (hHex : ∀ c ∈ digits, isXDigit c = true) (hNe : digits ≠ []) (hLt : hexNum digits < 2 ^ 31)
    {e : Extension} {more : Bytes} (hText : h.recvBuf ++ future = sizeLine digits e ++ more)
    (size allowed : Nat) :
    (∃ r, h.turn size allowed
          = .inl { h with recvBuf := r, chunkSize := hexNum digits, chunkPos := 0 }
        ∧ r ++ future = more ∧ r.length < h.recvBuf.length)
      ∨ (h.turn size allowed = .inr (.doAgain, h) ∧ future ≠ []) := by
  by_cases hBuf : h.recvBuf = []
  · exact .inr ⟨hr.turn_nil hBuf size allowed, hr.buffer.resolve_left (not_not.mpr hBuf)⟩
  rw [hr.turn_eq hBuf]
  have hNotHeader : ¬ (h.chunkedTrailer = true ∧ h.state = .receivingHeader) := by simp [hr.state]
  have hLine : ch '\n' ∉ digits ++ (e.text ++ [ch '\r']) := by
    simp only [List.mem_append, List.mem_singleton, not_or]
    exact ⟨fun h => (not_x_of_hex (hHex _ h)).2.2 rfl, e.no_newline, by decide⟩
  have hSplit : h.recvBuf ++ future = (digits ++ (e.text ++ [ch '\r'])) ++ ch '\n' :: more := by
    rw [hText]
    simp [sizeLine, crlf]
  rcases line_in_buffer hLine hSplit with ⟨r, hRecv, hMore⟩ | ⟨hNone, hFuture⟩
  · left
    have hIdx := idxOf?_line hLine r
    rw [← hRecv] at hIdx
    have hRecv' : h.recvBuf = digits ++ (e.text ++ (crlf ++ r)) := by
      rw [hRecv]
      simp [crlf]
    have hFirst : isXDigit (h.recvBuf.headD 0) = true := by
      obtain ⟨c, ds, rfl⟩ := List.exists_cons_of_ne_nil hNe
      rw [hRecv']
      exact hHex c (by simp)
    have hScan : scanHex h.recvBuf = some (hexNum digits : Int) := by
      rw [hRecv', scanHex_line hHex hNe hLt]
    refine ⟨r, ?_, hMore, by simp [hRecv]; omega⟩
    have hDrop : h.recvBuf.drop ((digits ++ (e.text ++ [ch '\r'])).length + 1) = r := by
      rw [hRecv, List.drop_length_add_append]
      rfl
    simp only [Http.readChunk, hNotHeader, if_false, hUnknown, if_true, hIdx, hFirst, hScan, hDrop]
  · right
    have hIdx := List.idxOf?_eq_none_iff.mpr hNone
    have hEof := hr.recvEof_eq hFuture
    refine ⟨?_, hFuture⟩
    simp only [Http.readChunk, hNotHeader, if_false, hUnknown, if_true, hIdx, Http.notYet, hEof]
    simp

/-- What a call that starts in `h` leaves. -/
structure Step (b : Body) (future : Bytes) (size allowed : Nat) (h h' : Http) : Prop where
  stage : Stage b h' future
  refused : h'.Refused → h.Refused
  progress : Starved h future size allowed ∨ Finished b h' future
    ∨ h'.recvBuf.length < h.recvBuf.length

/-- The caller's part of the result of `_Read`. -/
def advance : Result × Http → Http
  | (.got n, h) => { h with pos := h.pos + n }
  | (_, h) => h

/-- The ways in which a turn goes: it goes on with less in the buffer, or it leaves. -/
def Turned (b : Body) (future : Bytes) (size allowed : Nat) (h : Http)
    (t : Http ⊕ (Result × Http)) : Prop :=
  (∃ h', t = .inl h' ∧ Reading b h' future ∧ (h'.Refused → h.Refused)
      ∧ h'.recvBuf.length < h.recvBuf.length)
    ∨ ∃ r, t = .inr r ∧ Step b future size allowed h (advance r)

/-- A call that waits for more. -/
theorem Reading.wait {b : Body} {h : Http} {future : Bytes} (hr : Reading b h future)
    {size allowed : Nat} (hStarved : Starved h future size allowed) :
    Turned b future size allowed h (.inr (.doAgain, h)) :=
  .inr ⟨_, rfl, .inl hr, id, .inl hStarved⟩

theorem Reading.turn_header {b : Body} {h : Http} {future : Bytes} (hr : Reading b h future)
    (hUnknown : h.chunkSize = chunkSizeUnknown) {cs : List Chunk}
    (hText : h.recvBuf ++ future = b.textOf cs) (hData : h.delivered ++ dataOf cs = b.data)
    (size allowed : Nat) : Turned b future size allowed h (h.turn size allowed) := by
  cases cs with
  | nil =>
      have hZero : ∀ n, hexNum (List.replicate (n + 1) (ch '0')) = 0 := by
        intro n
        induction n with
        | zero => rfl
        | succ n ih => rw [List.replicate_succ]; exact ih
      have hHex : ∀ c ∈ List.replicate (b.zeros + 1) (ch '0'), isXDigit c = true := fun c hc =>
        List.eq_of_mem_replicate hc ▸ by decide
      rcases hr.turn_line hUnknown hHex (by simp) (by rw [hZero]; decide) hText size allowed
        with ⟨r, hTurn, hMore, hLess⟩ | ⟨hTurn, hFuture⟩
      · refine .inl ⟨_, hTurn, { hr with here := ?_ }, id, hLess⟩
        show At b (hexNum _) 0 (r ++ future) h.delivered
        have hAll : h.delivered = b.data := by simpa [dataOf] using hData
        rw [hZero, hMore, hAll]
        exact .last
      · rw [hTurn]
        exact hr.wait (.inr (.inr (.inr hFuture)))
  | cons c cs =>
      have hNe : c.digits ≠ [] := by
        intro hNil
        have hSize := c.size_eq
        rw [hNil] at hSize
        exact absurd c.size_pos (by rw [← hSize]; decide)
      rcases hr.turn_line hUnknown c.digits_hex hNe (c.size_eq ▸ c.size_lt) hText size allowed
        with ⟨r, hTurn, hMore, hLess⟩ | ⟨hTurn, hFuture⟩
      · refine .inl ⟨_, hTurn, { hr with here := ?_ }, id, hLess⟩
        show At b (hexNum c.digits) 0 (r ++ future) h.delivered
        rw [hMore, c.size_eq]
        exact .data (p := 0) c.data cs (Nat.zero_add _) c.size_pos c.size_lt hData
      · rw [hTurn]
        exact hr.wait (.inr (.inr (.inr hFuture)))

theorem Reading.turn_delimiter {b : Body} {h : Http} {future : Bytes} (hr : Reading b h future)
    (hKnown : h.chunkSize ≠ chunkSizeUnknown) (hMore : h.chunkSize ≠ 0)
    (hEnd : h.chunkPos = h.chunkSize) {cs : List Chunk}
    (hText : h.recvBuf ++ future = crlf ++ b.textOf cs) (hData : h.delivered ++ dataOf cs = b.data)
    (size allowed : Nat) : Turned b future size allowed h (h.turn size allowed) := by
  by_cases hBuf : h.recvBuf = []
  · rw [hr.turn_nil hBuf]
    exact hr.wait (.inr (.inr (.inr (hr.buffer.resolve_left (not_not.mpr hBuf)))))
  rw [hr.turn_eq hBuf]
  have hNotHeader : ¬ (h.chunkedTrailer = true ∧ h.state = .receivingHeader) := by simp [hr.state]
  simp only [Http.readChunk, hNotHeader, hKnown, hMore, hEnd, if_false, if_true]
  by_cases hShort : h.recvBuf.length < 2
  · have hFuture : future ≠ [] := by
      intro hNil
      have hLen := congrArg List.length hText
      simp [hNil, crlf] at hLen
      omega
    have hEof := hr.recvEof_eq hFuture
    simp only [hShort, if_true, Http.notYet, hEof, Bool.false_eq_true, if_false]
    exact hr.wait (.inr (.inr (.inr hFuture)))
  · have hTake : h.recvBuf.take 2 = crlf := by
      have hEq := congrArg (List.take 2) hText
      rwa [List.take_append_of_le_length (by omega)] at hEq
    have hDrop : h.recvBuf.drop 2 ++ future = b.textOf cs := by
      have hEq := congrArg (List.drop 2) hText
      rwa [List.drop_append_of_le_length (by omega)] at hEq
    simp only [hShort, if_false, hTake, crlf, ne_eq, not_true_eq_false]
    refine .inl ⟨_, rfl, { hr with here := ?_ }, id, ?_⟩
    · show At b chunkSizeUnknown h.chunkSize (h.recvBuf.drop 2 ++ future) h.delivered
      rw [hDrop]
      exact .header cs hData
    · show (h.recvBuf.drop 2).length < h.recvBuf.length
      rw [List.length_drop]
      omega

/-- Some bytes of a chunk are taken. -/
theorem Reading.take {b : Body} {h : Http} {future : Bytes} (hr : Reading b h future)
    {n p : Nat} (hSize : h.chunkSize = n) (hPos : h.chunkPos = p) {l : Bytes} {cs : List Chunk}
    (hLen : p + l.length = n) (hMore : 0 < n) (hLt : n < 2 ^ 31)
    (hText : h.recvBuf ++ future = l ++ (crlf ++ b.textOf cs))
    (hData : h.delivered ++ (l ++ dataOf cs) = b.data) {k : Nat} (hRecv : k ≤ h.recvBuf.length)
    (hk : k ≤ l.length) : Reading b (h.take k) future := by
  have hTake : h.recvBuf.take k = l.take k := by
    have hEq := congrArg (List.take k) hText
    rwa [List.take_append_of_le_length hRecv, List.take_append_of_le_length hk] at hEq
  have hDrop : h.recvBuf.drop k ++ future = l.drop k ++ (crlf ++ b.textOf cs) := by
    have hEq := congrArg (List.drop k) hText
    rwa [List.drop_append_of_le_length hRecv, List.drop_append_of_le_length hk] at hEq
  have hReal := hr.realPos
  refine { hr with realPos := ?_, here := ?_ }
  · show 0 ≤ h.realPos + k
    omega
  · show At b h.chunkSize (if h.chunked then h.chunkPos + k else h.chunkPos)
      (h.recvBuf.drop k ++ future) (h.delivered ++ h.recvBuf.take k)
    rw [hr.chunked, if_pos rfl, hSize, hPos, hDrop, hTake, ← Nat.cast_add]
    refine .data (l.drop k) cs ?_ hMore hLt ?_
    · rw [List.length_drop]
      omega
    · rw [List.append_assoc, ← List.append_assoc (l.take k), List.take_append_drop, hData]

theorem Http.take_refused {h : Http} {k : Nat} (hk : 0 < k) (hReal : 0 ≤ h.realPos) :
    ¬ (h.take k).Refused := by
  rintro ⟨-, hZero, -⟩
  have hEq : h.realPos + k = 0 := hZero
  omega

theorem Reading.turn_data {b : Body} {h : Http} {future : Bytes} (hr : Reading b h future)
    {n p : Nat} (hSize : h.chunkSize = n) (hPos : h.chunkPos = p) {l : Bytes} {cs : List Chunk}
    (hLen : p + l.length = n) (hMore : 0 < n) (hLt : n < 2 ^ 31) (hLeft : l ≠ [])
    (hText : h.recvBuf ++ future = l ++ (crlf ++ b.textOf cs))
    (hData : h.delivered ++ (l ++ dataOf cs) = b.data)
    (size allowed : Nat) : Turned b future size allowed h (h.turn size allowed) := by
  by_cases hBuf : h.recvBuf = []
  · rw [hr.turn_nil hBuf]
    exact hr.wait (.inr (.inr (.inr (hr.buffer.resolve_left (not_not.mpr hBuf)))))
  have hRecvPos := List.length_pos_iff.mpr hBuf
  have hLeftPos := List.length_pos_iff.mpr hLeft
  have hTaken : ∀ k, k ≤ min h.recvBuf.length l.length → Reading b (h.take k) future := fun k hk =>
    hr.take hSize hPos hLen hMore hLt hText hData (hk.trans (Nat.min_le_left _ _))
      (hk.trans (Nat.min_le_right _ _))
  have hShrink : ∀ k, 0 < k → (h.take k).recvBuf.length < h.recvBuf.length := by
    intro k hk
    show (h.recvBuf.drop k).length < _
    rw [List.length_drop]
    omega
  rw [hr.turn_eq hBuf]
  have hNotHeader : ¬ (h.chunkedTrailer = true ∧ h.state = .receivingHeader) := by simp [hr.state]
  have hKnown : (n : Int) ≠ chunkSizeUnknown := by
    rw [chunkSizeUnknown]
    omega
  have hSome : (n : Int) ≠ 0 := by omega
  have hNotEnd : (p : Int) ≠ n := by omega
  have hMin : (if (h.recvBuf.length : Int) > (n : Int) - p then ((n : Int) - p).toNat
      else h.recvBuf.length) = min h.recvBuf.length l.length := by
    split <;> omega
  simp only [Http.readChunk, hNotHeader, if_false, hSize, hPos, hKnown, hSome, hNotEnd, hMin,
    Http.readData]
  have hGet : (if min h.recvBuf.length l.length > allowed then allowed
      else min h.recvBuf.length l.length) = min (min h.recvBuf.length l.length) allowed := by
    split <;> omega
  rw [hGet]
  generalize hm : min (min h.recvBuf.length l.length) allowed = m
  by_cases hZero : m = 0
  · rw [if_pos hZero]
    exact hr.wait (.inr (.inl (by omega)))
  rw [if_neg hZero]
  by_cases hRefused : h.norestManual ∧ h.realPos = 0 ∧ h.pos > 0
  · rw [if_pos hRefused]
    exact hr.wait (.inr (.inr (.inl hRefused)))
  rw [if_neg hRefused]
  by_cases hSkip : h.realPos < h.pos
  · rw [if_pos hSkip]
    -- what lies before the position asked for is skipped
    have hk : 0 < (if h.pos - h.realPos > m then m else (h.pos - h.realPos).toNat)
        ∧ (if h.pos - h.realPos > m then m else (h.pos - h.realPos).toNat) ≤ m := by
      split <;> omega
    exact .inl ⟨_, rfl, hTaken _ (by omega), fun hRef => absurd hRef
      (Http.take_refused hk.1 hr.realPos), hShrink _ hk.1⟩
  · rw [if_neg hSkip]
    have hGot : (if size > m then m else size) = min size m := by
      split <;> omega
    rw [hGot]
    have hStage := hTaken (min size m) (by omega)
    refine .inr ⟨_, rfl, .inl { hStage with }, ?_, ?_⟩
    · rintro ⟨hNorest, hZeroPos, hSought⟩
      have hBase := hr.realPos
      have hZeroPos : h.realPos + (min size m : Nat) = 0 := hZeroPos
      have hSought : h.pos + (min size m : Nat) > 0 := hSought
      exact ⟨hNorest, by omega, by omega⟩
    · by_cases hSizeZero : size = 0
      · exact .inl (.inl hSizeZero)
      · exact .inr (.inr (hShrink _ (by omega)))

theorem Reading.turn_last {b : Body} {h : Http} {future : Bytes} (hr : Reading b h future)
    (hZero : h.chunkSize = 0) (hText : h.recvBuf ++ future = b.trailer)
    (hData : h.delivered = b.data) (size allowed : Nat) :
    Turned b future size allowed h (h.turn size allowed) := by
  by_cases hBuf : h.recvBuf = []
  · rw [hr.turn_nil hBuf]
    exact hr.wait (.inr (.inr (.inr (hr.buffer.resolve_left (not_not.mpr hBuf)))))
  rw [hr.turn_eq hBuf]
  have hNotHeader : ¬ (h.chunkedTrailer = true ∧ h.state = .receivingHeader) := by simp [hr.state]
  have hKnown : (0 : Int) ≠ chunkSizeUnknown := by decide
  simp only [Http.readChunk, hNotHeader, hKnown, hZero, if_false, if_true]
  have hFinished : Finished b { h with
      chunkedTrailer := true, state := .receivingHeader, bodySize := h.bytesReceived
      chunkSize := 0 } future :=
    ⟨rfl, hr.error, hr.closed, hText, hData⟩
  exact .inr ⟨_, rfl, .inr hFinished, id, .inr (.inl hFinished)⟩

/-- One turn of `_Read`, wherever the decoder is. -/
theorem Reading.turn_spec {b : Body} {h : Http} {future : Bytes} (hr : Reading b h future)
    (size allowed : Nat) : Turned b future size allowed h (h.turn size allowed) := by
  have hHere := hr.here
  generalize hn : h.chunkSize = n, hp : h.chunkPos = p, hRest : h.recvBuf ++ future = rest,
    hd : h.delivered = d at hHere
  cases hHere with
  | header cs hData => exact hr.turn_header hn hRest (hd ▸ hData) size allowed
  | data l cs hLen hPos hLt hData =>
      subst hd
      cases l with
      | nil =>
          have hEnd : h.chunkPos = h.chunkSize := by
            rw [hn, hp, ← hLen]
            rfl
          refine hr.turn_delimiter ?_ ?_ hEnd hRest hData size allowed
          · rw [hn, chunkSizeUnknown]
            omega
          · rw [hn]
            omega
      | cons c l =>
          exact hr.turn_data hn hp hLen hPos hLt (List.cons_ne_nil c l) hRest hData size allowed
  | last => exact hr.turn_last hn hRest hd size allowed

/-! ## Calls and runs -/

/-- A call of `_Read` in the body. -/
theorem Reading.read_spec {b : Body} {h : Http} {future : Bytes} (hr : Reading b h future)
    (size allowed : Nat) :
    ∃ r, h.read_ size allowed = r ∧ Step b future size allowed h (advance r) := by
  have hTotal : ∃ r, loop (Http.turn size allowed) (h.recvBuf.length + 1) h = some r
      ∧ Step b future size allowed h (advance r) := by
    apply loop_total (I := fun s => Reading b s future ∧ (s.Refused → h.Refused)
      ∧ s.recvBuf.length ≤ h.recvBuf.length) (fun s => s.recvBuf.length) _
      ⟨hr, id, le_rfl⟩ (Nat.lt_succ_self _)
    rintro s ⟨hs, hRef, hLe⟩
    rcases hs.turn_spec size allowed with ⟨s', hTurn, hs', hRef', hLess⟩ | ⟨r, hTurn, hStep⟩
    · exact .inr ⟨s', hTurn, ⟨hs', hRef ∘ hRef', by omega⟩, hLess⟩
    · refine .inl ⟨r, hTurn, hStep.stage, hRef ∘ hStep.refused, ?_⟩
      rcases hStep.progress with (hZero | hZero | hZero | hZero) | hEnd | hLess
      · exact .inl (.inl hZero)
      · exact .inl (.inr (.inl hZero))
      · exact .inl (.inr (.inr (.inl (hRef hZero))))
      · exact .inl (.inr (.inr (.inr hZero)))
      · exact .inr (.inl hEnd)
      · exact .inr (.inr (hLess.trans_le hLe))
  obtain ⟨r, hLoop, hStep⟩ := hTotal
  exact ⟨r, by rw [Http.read_, hLoop]; rfl, hStep⟩

theorem Reading.read {b : Body} {h : Http} {future : Bytes} (hr : Reading b h future)
    (size allowed : Nat) : Step b future size allowed h (h.read size allowed).2 := by
  obtain ⟨r, hRead, hStep⟩ := hr.read_spec size allowed
  have hReal := hr.realPos
  have hEq : (h.read size allowed).2 = advance r := by
    simp only [Http.read, hr.error, hr.closed, hr.state, hRead, Bool.false_eq_true, if_false,
      reduceCtorEq, true_and, if_pos hReal]
    rcases r with ⟨_ | _ | _, s⟩ <;> rfl
  exact hEq ▸ hStep

theorem Finished.read {b : Body} {h : Http} {future : Bytes} (hf : Finished b h future)
    (size allowed : Nat) : h.read size allowed = (.doAgain, h) := by
  simp [Http.read, hf.error, hf.closed, hf.state]

/-- A body is about to be read: what `recv_buf` holds and what is still to come are
its text. -/
structure Starts (b : Body) (s : Http × Bytes) : Prop where
  state : s.1.state = .receivingBody
  error : s.1.error = false
  closed : s.1.closed = false
  chunked : s.1.chunked = true
  chunkSize : s.1.chunkSize = chunkSizeUnknown
  recvError : s.1.recvError = false
  recvEof : s.1.recvEof = false
  realPos : 0 ≤ s.1.realPos
  delivered : s.1.delivered = []
  text : s.1.recvBuf ++ s.2 = b.text

/-- A step, with the bytes that have not come yet. -/
inductive Next : Http × Bytes → Event → Http × Bytes → Prop
  | receive (h : Http) (bytes future : Bytes) :
      Next (h, bytes ++ future) (.receive bytes) (act h (.receive bytes), future)
  | close (h : Http) : Next (h, []) .close (act h .close, [])
  | read (h : Http) (future : Bytes) (size allowed : Nat) :
      Next (h, future) (.read size allowed) (act h (.read size allowed), future)

theorem Starts.stage {b : Body} {s : Http × Bytes} (hs : Starts b s) : Stage b s.1 s.2 := by
  refine .inl ⟨hs.state, hs.error, hs.closed, hs.chunked, hs.recvError, ?_, hs.realPos, ?_⟩
  · rw [hs.recvEof]
    nofun
  · rw [hs.chunkSize, hs.text, hs.delivered]
    exact .header b.chunks rfl

/-- Every step keeps the stage. -/
theorem Stage.next {b : Body} {s s' : Http × Bytes} {e : Event} (hs : Stage b s.1 s.2)
    (hNext : Next s e s') : Stage b s'.1 s'.2 := by
  cases hNext with
  | receive h bytes future =>
      rcases hs with hr | hf
      · refine .inl { hr with eof := fun hEof => ?_, here := ?_ }
        · exact (List.append_eq_nil_iff.mp (hr.eof hEof)).2
        · show At b h.chunkSize h.chunkPos ((h.recvBuf ++ bytes) ++ future) h.delivered
          rw [List.append_assoc]
          exact hr.here
      · refine .inr { hf with trailer := ?_ }
        show (h.recvBuf ++ bytes) ++ future = b.trailer
        rw [List.append_assoc]
        exact hf.trailer
  | close h =>
      rcases hs with hr | hf
      · exact .inl { hr with eof := fun _ => rfl }
      · exact .inr { hf with }
  | read h future size allowed =>
      rcases hs with hr | hf
      · exact (hr.read size allowed).stage
      · show Stage b (h.read size allowed).2 future
        rw [Finished.read hf]
        exact .inr hf

theorem Stage.not_disconnected {b : Body} {h : Http} {future : Bytes} (hs : Stage b h future) :
    h.error = false ∧ h.state ≠ .disconnected := by
  rcases hs with hr | hf
  · exact ⟨hr.error, by rw [hr.state]; nofun⟩
  · exact ⟨hf.error, by rw [hf.state]; nofun⟩

theorem Stage.delivered_prefix {b : Body} {h : Http} {future : Bytes} (hs : Stage b h future) :
    h.delivered <+: b.data := by
  rcases hs with hr | hf
  · have hHere := hr.here
    generalize h.chunkSize = n, h.chunkPos = p, h.recvBuf ++ future = rest,
      h.delivered = d at hHere
    cases hHere with
    | header cs hData => exact ⟨_, hData⟩
    | data l cs _ _ _ hData => exact ⟨_, hData⟩
    | last => exact List.prefix_rfl
  · exact hf.delivered ▸ List.prefix_rfl

/-- A list of calls. -/
def reads (calls : List (Nat × Nat)) (h : Http) : Http :=
  (calls.map fun c => Event.read c.1 c.2).foldl act h

theorem Finished.reads {b : Body} {h : Http} {future : Bytes} (hf : Finished b h future)
    (calls : List (Nat × Nat)) : reads calls h = h := by
  induction calls with
  | nil => rfl
  | cons c calls ih =>
      show HttpChunked.reads calls (h.read c.1 c.2).2 = h
      rw [hf.read]
      exact ih

/-- Enough calls bring the decoder to the trailer, when all has come. -/
theorem Stage.completes {b : Body} {h : Http} (hs : Stage b h []) (hRefused : ¬ h.Refused)
    (calls : List (Nat × Nat)) (hCalls : ∀ c ∈ calls, 0 < c.1 ∧ 0 < c.2)
    (hEnough : h.recvBuf.length < calls.length) : Finished b (reads calls h) [] := by
  induction calls generalizing h with
  | nil => exact absurd hEnough (Nat.not_lt_zero _)
  | cons c calls ih =>
      rcases hs with hr | hf
      · have hStep := hr.read c.1 c.2
        have hHead := hCalls c List.mem_cons_self
        show Finished b (reads calls (h.read c.1 c.2).2) []
        rcases hStep.progress with (hZero | hZero | hZero | hZero) | hEnd | hLess
        · omega
        · omega
        · exact absurd hZero hRefused
        · exact absurd rfl hZero
        · rw [hEnd.reads]
          exact hEnd
        · refine ih hStep.stage (fun hRef => hRefused (hStep.refused hRef))
            (fun c hc => hCalls c (List.mem_cons_of_mem _ hc)) ?_
          simp only [List.length_cons] at hEnough
          omega
      · rw [hf.reads]
        exact hf

/-- Chunked decoding is exact in every run, however the body is cut and whatever is
asked for and allowed. What was delivered is a beginning of the data of the chunks,
and no error comes up. Once the decoder has left the body it is all of the data, and
just the trailer is left; and it does leave the body when all bytes have come and
there are calls enough. -/
theorem chunked_exact (b : Body) (s : Http × Bytes) (hs : Reach (Starts b) Next s) :
    (s.1.error = false ∧ s.1.state ≠ .disconnected)
      ∧ s.1.delivered <+: b.data
      ∧ (s.1.state = .receivingHeader →
          s.1.delivered = b.data ∧ s.1.recvBuf ++ s.2 = b.trailer)
      ∧ (s.2 = [] → ¬ s.1.Refused → ∀ calls : List (Nat × Nat),
          (∀ c ∈ calls, 0 < c.1 ∧ 0 < c.2) → s.1.recvBuf.length < calls.length →
          (reads calls s.1).delivered = b.data ∧ (reads calls s.1).recvBuf = b.trailer) := by
  have hStage : Stage b s.1 s.2 :=
    hs.invariant (I := fun t => Stage b t.1 t.2) (fun _ => Starts.stage) fun _ _ _ => Stage.next
  refine ⟨hStage.not_disconnected, hStage.delivered_prefix, fun hState => ?_, ?_⟩
  · rcases hStage with hr | hf
    · exact absurd (hr.state.symm.trans hState) (by decide)
    · exact ⟨hf.delivered, hf.trailer⟩
  · intro hFuture hRefused calls hCalls hEnough
    rw [hFuture] at hStage
    have hEnd := hStage.completes hRefused calls hCalls hEnough
    exact ⟨hEnd.delivered, by simpa using hEnd.trailer⟩

/-- A chunk with one byte of data. -/
def oneByteChunk : Chunk where
  digits := [ch '1']
  ext := ⟨[], nofun, nofun⟩
  data := [ch 'A']
  digits_hex := List.forall_mem_singleton.2 rfl
  size_eq := rfl
  size_pos := by decide
  size_lt := by decide

def oneByte : Body where
  chunks := [oneByteChunk]
  zeros := 0
  ext := ⟨[], nofun, nofun⟩
  trailer := crlf
  trailer_ne := List.cons_ne_nil _ _

/-- The header of a response has been read. -/
def afterHeader : Http where
  state := .receivingBody
  error := false
  closed := false
  recvBuf := []
  recvEof := false
  recvError := false
  chunked := true
  chunkedTrailer := false
  chunkSize := chunkSizeUnknown
  chunkPos := 0
  bodySize := -1
  bytesReceived := 0
  entitySize := -1
  pos := 0
  realPos := 0
  norestManual := false
  delivered := []

theorem chunked_exact_oneByte :
    (reads (List.replicate 12 (1, 1)) (act afterHeader (.receive oneByte.text))).delivered
      = [ch 'A'] := by
  have hStart : Starts oneByte (afterHeader, oneByte.text ++ []) :=
    ⟨rfl, rfl, rfl, rfl, rfl, rfl, rfl, le_rfl, rfl, List.append_nil _⟩
  have hRun : Reach (Starts oneByte) Next (act afterHeader (.receive oneByte.text), []) :=
    .next _ (.start hStart) (.receive afterHeader oneByte.text [])
  exact ((chunked_exact oneByte _ hRun).2.2.2 rfl (fun h => absurd h.1 (by decide))
    (List.replicate 12 (1, 1)) (by decide) (by decide)).1

end Lftp.Ports.HttpChunked
