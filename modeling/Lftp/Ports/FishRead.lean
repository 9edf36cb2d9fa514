import Lftp.Verified.Loop
import Lftp.Verified.Tokens

/-!
# Reading a file over FISH

The bytes of the file and the reply line after them come in one stream. `Fish::Read` tells them
apart by the position while it is below the known size, and only then looks for a `### `.

A restart begins at a block of `dd`, and what comes before the position is skipped. With
`norest_manual` nothing is skipped from the beginning of the file on: the caller has to go back to
the position 0.

* `Inv.step`: what of the stream has been delivered and what is left of it, after any step.
* `retrieve_exact`: the file from the position on is delivered, and then the reply is handled.
-/

namespace Lftp.Ports.FishRead

open Lftp.Verified

/-! ## The session -/

/-- `Fish::state`, from the reply to `ls` on. -/
inductive Conn
  | fileRecv
  | waiting
  | done
  | disconnected
deriving DecidableEq

/-- A session in the mode `RETRIEVE`, without an error. -/
structure Session where
  state : Conn
  recvBuf : Bytes
  recvEof : Bool
  recvError : Bool
  entitySize : Option Nat
  pos : Nat
  realPos : Nat
  norestManual : Bool
  /-- `RespQueue` holds `EXPECT_RETR`; else it is empty. -/
  expectRetr : Bool
  /-- The lines that `HandleReplies` has taken from `recv_buf`. -/
  lines : List Bytes

/-- What `Read` returns, with the bytes that it has put into the buffer. -/
inductive Got
  | doAgain
  | eof
  | bytes (data : Bytes)

def marker : Bytes := bytes "### "

/-- `memstr` -/
def memstr (str : Bytes) : Bytes → Option Nat
  | [] => none
  | c :: mem => if str <+: c :: mem then some 0 else (memstr str mem).map (· + 1)

def disconnect (s : Session) : Session := { s with state := .disconnected }

/-- A line says how a request went. -/
def replyCode (line : Bytes) : Int :=
  if line.length + 1 > 7 ∧ marker <+: line then
    match scanWidth 3 (line.drop 4) with
    | some (code, _) => code
    | none => -1
  else -1

/-- What is done for a line with a code. -/
def nextReply (s : Session) : Session :=
  if s.expectRetr then { s with expectRetr := false, state := .done } else s

/-- `Fish::HandleReplies`, while nothing comes over the terminal. -/
def handleReplies (s : Session) : Session :=
  let hup := if s.recvError || s.recvEof then disconnect s else s
  if s.state = .fileRecv ∧ (s.entitySize = none ∨ ∃ n ∈ s.entitySize, s.realPos < n) then s
  else if s.recvBuf.length < 5 then hup
  else match s.recvBuf.idxOf? (ch '\n') with
    | none => hup
    | some eol =>
      let line := s.recvBuf.take eol
      let s := { s with recvBuf := s.recvBuf.drop (eol + 1), lines := s.lines ++ [line] }
      if replyCode line = -1 then s else nextReply s

/-! ## Reading -/

/-- What `Read` finds in the buffer. -/
inductive Window
  | data (size : Nat)
  | reply
  | hangup

/-- Up to three `#` at the end are left out, as a marker may begin there. -/
def stripMarks (buf : Bytes) : Nat :=
  buf.length - ((buf.reverse.take 3).takeWhile (· = ch '#')).length

/-- `size1` -/
def window (s : Session) : Window :=
  let byMarker : Window := match memstr marker s.recvBuf with
    | some 0 => .reply
    | some e => .data e
    | none => if stripMarks s.recvBuf = 0 ∧ s.recvEof then .hangup else .data (stripMarks s.recvBuf)
  match s.entitySize with
  | some n => if s.realPos < n then .data (min s.recvBuf.length (n - s.realPos)) else byMarker
  | none => byMarker

/-- From `get_again` on. At the `k`th time `allowed k` is `BytesAllowedToGet`. -/
def readTurn (size : Nat) (allowed : Nat → Nat) (w : Nat × Session) :
    (Nat × Session) ⊕ (Session × Got) :=
  let (k, s) := w
  if s.recvBuf = [] then
    if s.recvError || s.recvEof then .inr (disconnect s, .doAgain) else .inr (s, .doAgain)
  else match window s with
  | .reply => .inr (handleReplies { s with state := .waiting }, .doAgain)
  | .hangup => .inr (disconnect s, .doAgain)
  | .data size1 =>
    let size1 := min size1 (allowed k)
    if size1 = 0 then .inr (s, .doAgain)
    else if s.norestManual ∧ s.realPos = 0 ∧ s.pos > 0 then .inr (s, .doAgain)
    else if s.realPos < s.pos then
      let toSkip := min (s.pos - s.realPos) size1
      .inl (k + 1, { s with recvBuf := s.recvBuf.drop toSkip, realPos := s.realPos + toSkip })
    else
      let size := min size size1
      if size = 0 then .inr (s, .doAgain)
      else .inr ({ s with recvBuf := s.recvBuf.drop size, pos := s.pos + size
                          realPos := s.realPos + size }, .bytes (s.recvBuf.take size))

/-- `Fish::Read` -/
def read (size : Nat) (allowed : Nat → Nat) (s : Session) : Option (Session × Got) :=
  match s.state with
  | .done => some (s, .eof)
  | .fileRecv => loop (readTurn size allowed) (s.pos - s.realPos + 1) (0, s)
  | _ => some (s, .doAgain)

/-! ## Runs -/

/-- `int bs=0x1000` -/
def bs : Nat := 0x1000

/-- `real_pos`, as `SendMethod` sets it. -/
def startPos (pos : Nat) : Nat := if pos > 0 then pos - pos % bs else 0

def reply : Bytes := bytes "### 200\n"

/-- What the server sends after the first reply: the output of `dd` or `cat`, and a reply. -/
def served (file : Bytes) (pos : Nat) : Bytes :=
  (if pos > 0 then file.drop (startPos pos / bs * bs) else file) ++ reply

/-- A session, with the bytes that are to come and those that `Read` has delivered. -/
structure Run where
  session : Session
  incoming : Bytes
  delivered : Bytes

inductive Event
  | arrive (n : Nat)
  | read (size : Nat) (allowed : Nat → Nat)
  | doStep

/-- `Fish::Do`: `HandleReplies` and the cases `WAITING` and `FILE_RECV`. -/
def doSession (s : Session) : Session :=
  let s := handleReplies s
  if s.state = .waiting then { s with state := if s.expectRetr then .fileRecv else .done } else s

def step (r : Run) : Event → Run
  | .arrive n =>
    { r with session := { r.session with recvBuf := r.session.recvBuf ++ r.incoming.take n }
             incoming := r.incoming.drop n }
  | .read size allowed =>
    match read size allowed r.session with
    | some (s, .bytes data) => { r with session := s, delivered := r.delivered ++ data }
    | some (s, _) => { r with session := s }
    | none => r
  | .doStep => { r with session := doSession r.session }

/-- The session as the reply to `ls` has come. -/
def start (file : Bytes) (pos : Nat) (norestManual : Bool) : Run where
  session := ⟨.fileRecv, [], false, false, some file.length, pos, startPos pos, norestManual, true,
    []⟩
  incoming := served file pos
  delivered := []

/-- What is delivered, and what is left, when the download starts at `pos`. -/
structure Exact (file : Bytes) (pos : Nat) (r : Run) : Prop where
  /-- Only bytes of the file from the position on are delivered, in their order. -/
  delivered : r.delivered <+: file.drop pos
  /-- A reply is handled only after all of them, and it is the one of the server. -/
  lines : r.session.lines = [] ∨
    r.session.lines = [reply.dropLast] ∧ r.delivered = file.drop pos ∧ r.session.state = .done
  waiting : r.session.state ≠ .fileRecv → r.delivered = file.drop pos
  /-- Until then the reply comes after the bytes of the file that are left. -/
  rest : r.session.lines = [] →
    r.session.recvBuf ++ r.incoming = file.drop r.session.realPos ++ reply

/-- Nothing is lost: what has come is delivered when it is read, and then the reply is handled. -/
structure Progress (file : Bytes) (pos : Nat) (r : Run) : Prop where
  reads : ∀ size allowed, 0 < size → (∀ k, 0 < allowed k) → r.delivered ≠ file.drop pos →
    r.session.pos < r.session.realPos + r.session.recvBuf.length →
      r.delivered.length < (step r (.read size allowed)).delivered.length
  ends : r.delivered = file.drop pos → r.incoming = [] → (step r .doStep).session.state = .done

/-! ## The reply -/

section
variable {file : Bytes} {pos : Nat} {norest : Bool} {s : Session} {r : Run}
  {incoming delivered : Bytes}

/-- What the fields say that no step changes. -/
structure Steady (file : Bytes) (norest : Bool) (s : Session) : Prop where
  recvEof : s.recvEof = false
  recvError : s.recvError = false
  entitySize : s.entitySize = some file.length
  norestManual : s.norestManual = norest

/-- The file and then the reply are still to come, or in the buffer. -/
structure Active (file : Bytes) (pos : Nat) (norest : Bool) (s : Session)
    (incoming delivered : Bytes) : Prop extends Steady file norest s where
  state : s.state = .fileRecv ∨ s.state = .waiting ∧ s.realPos = file.length
  expectRetr : s.expectRetr = true
  lines : s.lines = []
  rest : s.recvBuf ++ incoming = file.drop s.realPos ++ reply
  realPos : s.realPos ≤ file.length
  begins : startPos pos ≤ s.realPos
  /-- The surplus is skipped, or delivery has reached `pos`. -/
  position : s.pos = pos ∧ delivered = [] ∧ s.realPos ≤ pos ∨
    pos ≤ s.pos ∧ s.realPos = s.pos ∧ delivered = (file.drop pos).take (s.pos - pos)

/-- The reply has been handled. -/
structure Finished (file : Bytes) (pos : Nat) (norest : Bool) (s : Session)
    (incoming delivered : Bytes) : Prop extends Steady file norest s where
  state : s.state = .done
  empty : s.recvBuf = [] ∧ incoming = []
  lines : s.lines = [reply.dropLast]
  delivered : delivered = file.drop pos

/-- What holds after any steps. -/
def Inv (file : Bytes) (pos : Nat) (norest : Bool) (s : Session) (incoming delivered : Bytes) :
    Prop :=
  Active file pos norest s incoming delivered ∨ Finished file pos norest s incoming delivered

theorem reply_length : reply.length = 8 := by decide

theorem no_newline {k : Nat} (h : k < 8) : (reply.take k).idxOf? (ch '\n') = none := by
  revert k
  decide

theorem memstr_reply {k : Nat} (h : 4 ≤ k) : memstr marker (reply.take k) = some 0 := by
  obtain ⟨k, rfl⟩ := Nat.exists_eq_add_of_le' h
  rfl

theorem memstr_short {k : Nat} (h : k < 4) :
    memstr marker (reply.take k) = none ∧ stripMarks (reply.take k) = 0 := by
  revert k
  decide

/-- Behind the file there is a beginning of the reply in the buffer. -/
theorem Active.recvBuf (h : Active file pos norest s incoming delivered)
    (hEnd : s.realPos = file.length) : s.recvBuf = reply.take s.recvBuf.length := by
  have hRest := h.rest
  rw [hEnd, List.drop_length, List.nil_append] at hRest
  rw [← hRest, List.take_left]

theorem Active.all_delivered (h : Active file pos norest s incoming delivered)
    (hPos : pos < file.length) (hEnd : s.realPos = file.length) : delivered = file.drop pos := by
  rcases h.position with ⟨-, -, hLe⟩ | ⟨-, hEq, hDelivered⟩
  · omega
  · rw [hDelivered, ← hEq, hEnd, List.take_of_length_le (by rw [List.length_drop])]

/-- Either there is no whole reply, and nothing happens, or the reply is handled. -/
theorem Active.handleReplies (h : Active file pos norest s incoming delivered)
    (hPos : pos < file.length) :
    handleReplies s = s ∧ (s.realPos = file.length → incoming ≠ [])
      ∨ Finished file pos norest (handleReplies s) incoming delivered := by
  have hHup : (if s.recvError || s.recvEof then disconnect s else s) = s := by
    rw [h.recvError, h.recvEof]
    rfl
  have hMore : (s.entitySize = none ∨ ∃ n ∈ s.entitySize, s.realPos < n)
      ↔ s.realPos < file.length := by simp [h.entitySize]
  unfold FishRead.handleReplies
  dsimp only
  rw [hHup]
  by_cases hEnd : s.realPos = file.length
  · have hBuf := h.recvBuf hEnd
    have hRest := h.rest
    rw [hEnd, List.drop_length, List.nil_append] at hRest
    rw [if_neg fun hAnd => by
      have hLt := hMore.mp hAnd.2
      omega]
    by_cases hShort : s.recvBuf.length < 8
    · left
      refine ⟨?_, fun _ hNil => ?_⟩
      · split
        · rfl
        · rw [hBuf, no_newline hShort]
      · rw [hNil, List.append_nil] at hRest
        rw [hRest, reply_length] at hShort
        exact absurd hShort (lt_irrefl 8)
    · have hReply : s.recvBuf = reply := by
        rw [hBuf, List.take_of_length_le (by rw [reply_length]; omega)]
      have hNil : incoming = [] := by
        rw [hReply] at hRest
        exact List.append_right_eq_self.mp hRest
      right
      rw [hReply, if_neg (by decide), show reply.idxOf? (ch '\n') = some 7 by decide]
      dsimp only
      rw [if_neg (by decide), nextReply, if_pos h.expectRetr]
      exact ⟨⟨h.recvEof, h.recvError, h.entitySize, h.norestManual⟩, rfl, ⟨rfl, hNil⟩, by
        rw [h.lines]
        rfl, h.all_delivered hPos hEnd⟩
  · have hState : s.state = .fileRecv := h.state.resolve_right fun hAnd => hEnd hAnd.2
    have hLt : s.realPos < file.length := lt_of_le_of_ne h.realPos hEnd
    rw [if_pos ⟨hState, hMore.mpr hLt⟩]
    exact .inl ⟨rfl, fun hEq => absurd hEq hEnd⟩

/-! ## A call of `Read` -/

/-- Bytes of the file are taken from the buffer. -/
theorem Active.drop_rest (h : Active file pos norest s incoming delivered) {t : Nat}
    (ht : t ≤ s.recvBuf.length) (hFile : s.realPos + t ≤ file.length) :
    s.recvBuf.drop t ++ incoming = file.drop (s.realPos + t) ++ reply
      ∧ s.recvBuf.take t = (file.drop s.realPos).take t := by
  have hLe : t ≤ (file.drop s.realPos).length := by
    rw [List.length_drop]
    omega
  constructor
  · rw [← List.drop_append_of_le_length ht, h.rest, List.drop_append_of_le_length hLe,
      List.drop_drop]
  · rw [← List.take_append_of_le_length ht, h.rest, List.take_append_of_le_length hLe]

/-- While bytes of the file are left, `Read` sees only such. -/
theorem Active.window_file (h : Active file pos norest s incoming delivered)
    (hLt : s.realPos < file.length) :
    window s = .data (min s.recvBuf.length (file.length - s.realPos)) := by
  rw [window, h.entitySize]
  exact if_pos hLt

/-- Behind them it sees the beginning of the reply. -/
theorem Active.window_reply (h : Active file pos norest s incoming delivered)
    (hEnd : s.realPos = file.length) :
    window s = if 4 ≤ s.recvBuf.length then .reply else .data 0 := by
  rw [window, h.entitySize]
  dsimp only
  rw [if_neg (by omega)]
  have hBuf := h.recvBuf hEnd
  by_cases hLong : 4 ≤ s.recvBuf.length
  · have hFirst : memstr marker s.recvBuf = some 0 := by
      rw [hBuf]
      exact memstr_reply hLong
    rw [if_pos hLong, hFirst]
    rfl
  · obtain ⟨hNone, hStrip⟩ := memstr_short (not_le.mp hLong)
    rw [← hBuf] at hNone hStrip
    rw [if_neg hLong, hNone]
    dsimp only
    rw [hStrip, h.recvEof]
    rfl

/-- A turn of `Read` while bytes of the file are left. -/
theorem Active.turn_file (h : Active file pos norest s incoming delivered)
    (hLt : s.realPos < file.length) (hNe : s.recvBuf ≠ []) (size : Nat) (allowed : Nat → Nat)
    (k : Nat) :
    readTurn size allowed (k, s) =
      let size1 := min (min s.recvBuf.length (file.length - s.realPos)) (allowed k)
      if size1 = 0 then .inr (s, .doAgain)
      else if s.norestManual ∧ s.realPos = 0 ∧ s.pos > 0 then .inr (s, .doAgain)
      else if s.realPos < s.pos then
        let toSkip := min (s.pos - s.realPos) size1
        .inl (k + 1, { s with recvBuf := s.recvBuf.drop toSkip, realPos := s.realPos + toSkip })
      else
        let size := min size size1
        if size = 0 then .inr (s, .doAgain)
        else .inr ({ s with recvBuf := s.recvBuf.drop size, pos := s.pos + size
                            realPos := s.realPos + size }, .bytes (s.recvBuf.take size)) := by
  rw [readTurn]
  dsimp only
  rw [if_neg hNe, h.window_file hLt]

/-- What a call returns goes to what was delivered before. -/
def Got.add (delivered : Bytes) : Got → Bytes
  | .bytes data => delivered ++ data
  | _ => delivered

/-- A turn of `Read`: it comes to an end with what holds anyway, or some of the surplus is skipped. -/
theorem Active.turn (h : Active file pos norest s incoming delivered) (hPos : pos < file.length)
    (hState : s.state = .fileRecv) (size : Nat) (allowed : Nat → Nat) (k : Nat) :
    (∃ s' got, readTurn size allowed (k, s) = .inr (s', got)
        ∧ Inv file pos norest s' incoming (got.add delivered))
      ∨ ∃ s', readTurn size allowed (k, s) = .inl (k + 1, s') ∧ s'.state = .fileRecv
        ∧ Active file pos norest s' incoming delivered
        ∧ s'.pos - s'.realPos < s.pos - s.realPos := by
  by_cases hEmpty : s.recvBuf = []
  · refine .inl ⟨s, .doAgain, ?_, .inl h⟩
    rw [readTurn]
    dsimp only
    rw [if_pos hEmpty, h.recvError, h.recvEof]
    rfl
  by_cases hEnd : s.realPos = file.length
  · left
    rw [readTurn]
    dsimp only
    rw [if_neg hEmpty, h.window_reply hEnd]
    by_cases hLong : 4 ≤ s.recvBuf.length
    · rw [if_pos hLong]
      have hWait : Active file pos norest { s with state := .waiting } incoming delivered :=
        { h with state := .inr ⟨rfl, hEnd⟩ }
      refine ⟨_, .doAgain, rfl, ?_⟩
      rcases hWait.handleReplies hPos with ⟨hSame, -⟩ | hFinished
      · rw [hSame]
        exact .inl hWait
      · exact .inr hFinished
    · rw [if_neg hLong]
      dsimp only
      rw [Nat.zero_min, if_pos rfl]
      exact ⟨s, .doAgain, rfl, .inl h⟩
  have hLt : s.realPos < file.length := lt_of_le_of_ne h.realPos hEnd
  rw [h.turn_file hLt hEmpty]
  dsimp only
  generalize hSize : min (min s.recvBuf.length (file.length - s.realPos)) (allowed k) = size1
  by_cases hZero : size1 = 0
  · rw [if_pos hZero]
    exact .inl ⟨s, .doAgain, rfl, .inl h⟩
  rw [if_neg hZero]
  by_cases hGate : s.norestManual = true ∧ s.realPos = 0 ∧ s.pos > 0
  · rw [if_pos hGate]
    exact .inl ⟨s, .doAgain, rfl, .inl h⟩
  rw [if_neg hGate]
  by_cases hSkip : s.realPos < s.pos
  · right
    rw [if_pos hSkip]
    obtain ⟨hRest, -⟩ := h.drop_rest (t := min (s.pos - s.realPos) size1) (by omega) (by omega)
    refine ⟨_, rfl, hState, ?_, ?_⟩
    · exact { h with
        state := .inl hState
        rest := hRest
        realPos := by
          dsimp only
          omega
        begins := h.begins.trans (Nat.le_add_right _ _)
        position := by
          rcases h.position with ⟨hSame, hNone, -⟩ | ⟨-, hEq, -⟩
          · refine .inl ⟨hSame, hNone, ?_⟩
            dsimp only
            omega
          · omega }
    · dsimp only
      omega
  · left
    rw [if_neg hSkip]
    by_cases hNone : min size size1 = 0
    · rw [if_pos hNone]
      exact ⟨s, .doAgain, rfl, .inl h⟩
    rw [if_neg hNone]
    obtain ⟨hRest, hTake⟩ := h.drop_rest (t := min size size1) (by omega) (by omega)
    refine ⟨_, _, rfl, .inl ?_⟩
    have hAt : pos ≤ s.pos ∧ s.realPos = s.pos ∧ delivered = (file.drop pos).take (s.pos - pos) := by
      rcases h.position with ⟨hSame, hNil, hLe⟩ | hAt
      · refine ⟨hSame.ge, by omega, ?_⟩
        rw [hNil, hSame, Nat.sub_self, List.take_zero]
      · exact hAt
    exact { h with
      state := .inl hState
      rest := hRest
      realPos := by
        dsimp only
        omega
      begins := h.begins.trans (Nat.le_add_right _ _)
      position := by
        obtain ⟨hLe, hEq, hDelivered⟩ := hAt
        refine .inr ⟨?_, ?_, ?_⟩
        · dsimp only
          omega
        · dsimp only
          rw [hEq]
        · dsimp only [Got.add]
          rw [hTake, hDelivered, show s.pos + min size size1 - pos
            = s.pos - pos + min size size1 by omega, List.take_add, List.drop_drop,
            show pos + (s.pos - pos) = s.realPos by omega] }

/-- A call of `Read` comes to an end, and keeps what holds. -/
theorem Active.read (h : Active file pos norest s incoming delivered) (hPos : pos < file.length)
    (size : Nat) (allowed : Nat → Nat) :
    ∃ s' got, read size allowed s = some (s', got)
      ∧ Inv file pos norest s' incoming (got.add delivered) := by
  rcases h.state with hState | ⟨hState, -⟩
  · obtain ⟨⟨s', got⟩, hLoop, hInv⟩ := loop_total (f := readTurn size allowed)
      (I := fun w => w.2.state = .fileRecv ∧ Active file pos norest w.2 incoming delivered)
      (Q := fun q => Inv file pos norest q.1 incoming (q.2.add delivered))
      (fun w => w.2.pos - w.2.realPos)
      (fun ⟨k, s⟩ ⟨hState, h⟩ => by
        rcases h.turn hPos hState size allowed k with ⟨s', got, hTurn, hInv⟩ | ⟨s', hTurn, hNext⟩
        · exact .inl ⟨_, hTurn, hInv⟩
        · exact .inr ⟨_, hTurn, ⟨hNext.1, hNext.2.1⟩, hNext.2.2⟩)
      (s := (0, s)) ⟨hState, h⟩ (Nat.lt_succ_self _)
    refine ⟨s', got, ?_, hInv⟩
    rw [FishRead.read, hState]
    exact hLoop
  · refine ⟨s, .doAgain, ?_, .inl h⟩
    rw [FishRead.read, hState]

/-! ## Runs -/

theorem Finished.doSession (h : Finished file pos norest s incoming delivered) :
    doSession s = s := by
  have hSame : FishRead.handleReplies s = s := by
    unfold FishRead.handleReplies
    dsimp only
    rw [if_neg fun hAnd => by
        rw [h.state] at hAnd
        exact absurd hAnd.1 (by decide),
      h.empty.1, if_pos (by decide), h.recvError, h.recvEof]
    rfl
  rw [FishRead.doSession, hSame, if_neg (by rw [h.state]; nofun)]

theorem Inv.step (h : Inv file pos norest r.session r.incoming r.delivered)
    (hPos : pos < file.length) (e : Event) :
    Inv file pos norest (step r e).session (step r e).incoming (step r e).delivered := by
  rcases h with h | h
  · cases e with
    | arrive n =>
        refine .inl { h with rest := ?_ }
        dsimp only [FishRead.step]
        rw [List.append_assoc, List.take_append_drop]
        exact h.rest
    | read size allowed =>
        obtain ⟨s', got, hRead, hInv⟩ := h.read hPos size allowed
        rw [FishRead.step, hRead]
        cases got <;> exact hInv
    | doStep =>
        rw [FishRead.step, doSession]
        dsimp only
        rcases h.handleReplies hPos with ⟨hSame, -⟩ | hFinished
        · rw [hSame, h.expectRetr, if_pos rfl]
          split
          · exact .inl { h with state := .inl rfl, expectRetr := rfl }
          · exact .inl h
        · rw [if_neg (by rw [hFinished.state]; nofun)]
          exact .inr hFinished
  · obtain ⟨hBuf, hNil⟩ := h.empty
    cases e with
    | arrive n =>
        refine .inr { h with empty := ?_ }
        dsimp only [FishRead.step]
        rw [hBuf, hNil, List.take_nil, List.drop_nil]
        exact ⟨rfl, rfl⟩
    | read size allowed =>
        rw [FishRead.step, FishRead.read, h.state]
        exact .inr h
    | doStep =>
        rw [FishRead.step, h.doSession]
        exact .inr h

/-- A byte of the file at the position has come, and nothing keeps `Read` from passing it on. -/
structure Ready (file : Bytes) (s : Session) : Prop where
  open_ : ¬ (s.norestManual = true ∧ s.realPos = 0 ∧ s.pos > 0)
  before : s.pos < file.length
  here : s.pos < s.realPos + s.recvBuf.length

theorem Active.turn_ready (h : Active file pos norest s incoming delivered)
    (hReady : Ready file s) (hState : s.state = .fileRecv) (hPos : pos < file.length) {size : Nat}
    {allowed : Nat → Nat} (hSize : 0 < size) (hAllowed : ∀ k, 0 < allowed k) (k : Nat) :
    (∃ s' data, readTurn size allowed (k, s) = .inr (s', .bytes data) ∧ data ≠ [])
      ∨ ∃ s', readTurn size allowed (k, s) = .inl (k + 1, s') ∧ s'.state = .fileRecv
        ∧ Active file pos norest s' incoming delivered ∧ Ready file s'
        ∧ s'.pos - s'.realPos < s.pos - s.realPos := by
  have hBefore := hReady.before
  have hHere := hReady.here
  have hLe : s.realPos ≤ s.pos := by
    rcases h.position with ⟨hSame, -, hLe⟩ | ⟨-, hEq, -⟩ <;> omega
  have hNe : s.recvBuf ≠ [] := fun hNil => by
    rw [hNil, List.length_nil] at hHere
    omega
  have hAllow := hAllowed k
  have hTurn := h.turn_file (by omega) hNe size allowed k
  have hStep := h.turn hPos hState size allowed k
  dsimp only at hTurn
  rw [if_neg (by omega), if_neg hReady.open_] at hTurn
  by_cases hSkip : s.realPos < s.pos
  · right
    rw [if_pos hSkip] at hTurn
    rw [hTurn] at hStep
    rcases hStep with ⟨s', got, hEq, -⟩ | ⟨s', hEq, hState', hActive, hLess⟩
    · cases hEq
    · cases hEq
      refine ⟨_, hTurn, hState', hActive, ⟨?_, hBefore, ?_⟩, hLess⟩
      · dsimp only
        omega
      · dsimp only
        rw [List.length_drop]
        omega
  · left
    rw [if_neg hSkip, if_neg (by omega)] at hTurn
    refine ⟨_, _, hTurn, fun hNil => ?_⟩
    have hLength := congrArg List.length hNil
    rw [List.length_take, List.length_nil] at hLength
    omega

/-- Where there is something to deliver, something is delivered. -/
theorem Active.read_ready (h : Active file pos norest s incoming delivered)
    (hReady : Ready file s) (hState : s.state = .fileRecv) (hPos : pos < file.length) {size : Nat}
    {allowed : Nat → Nat} (hSize : 0 < size) (hAllowed : ∀ k, 0 < allowed k) :
    ∃ s' data, FishRead.read size allowed s = some (s', .bytes data) ∧ data ≠ [] := by
  have hStart : (0, s).2.pos - (0, s).2.realPos < s.pos - s.realPos + 1 := Nat.lt_succ_self _
  obtain ⟨⟨s', got⟩, hLoop, data, rfl, hNe⟩ := loop_total (f := readTurn size allowed)
    (I := fun w => Active file pos norest w.2 incoming delivered ∧ Ready file w.2
      ∧ w.2.state = .fileRecv)
    (Q := fun q => ∃ data, q.2 = .bytes data ∧ data ≠ [])
    (fun w => w.2.pos - w.2.realPos)
    (fun ⟨k, s⟩ ⟨h, hReady, hState⟩ => by
      rcases h.turn_ready hReady hState hPos hSize hAllowed k with
        ⟨s', data, hTurn, hNe⟩ | ⟨s', hTurn, hState', hActive, hNext, hLess⟩
      · exact .inl ⟨_, hTurn, data, rfl, hNe⟩
      · exact .inr ⟨_, hTurn, ⟨hActive, hNext, hState'⟩, hLess⟩)
    (s := (0, s)) ⟨h, hReady, hState⟩ hStart
  exact ⟨s', data, by rw [FishRead.read, hState]; exact hLoop, hNe⟩

theorem inv_run (hPos : pos < file.length)
    (h : Inv file pos norest r.session r.incoming r.delivered) (es : List Event) :
    Inv file pos norest (es.foldl step r).session (es.foldl step r).incoming
      (es.foldl step r).delivered := by
  induction es generalizing r with
  | nil => exact h
  | cons e es ih => exact ih (h.step hPos e)

theorem startPos_le (pos : Nat) : startPos pos ≤ pos := by
  unfold startPos
  split <;> omega

theorem served_eq (file : Bytes) (pos : Nat) :
    served file pos = file.drop (startPos pos) ++ reply := by
  unfold served
  split
  · next hPos =>
    have hBlocks : startPos pos / bs * bs = startPos pos := by
      rw [startPos, if_pos hPos]
      exact Nat.div_mul_cancel (Nat.dvd_sub_mod pos)
    rw [hBlocks]
  · next hPos => rw [startPos, if_neg hPos, List.drop_zero]

theorem inv_start (norest : Bool) (hPos : pos < file.length) :
    Inv file pos norest (start file pos norest).session (start file pos norest).incoming
      (start file pos norest).delivered := by
  have hLe := startPos_le pos
  exact .inl {
    recvEof := rfl
    recvError := rfl
    entitySize := rfl
    norestManual := rfl
    state := .inl rfl
    expectRetr := rfl
    lines := rfl
    rest := served_eq file pos
    realPos := by
      dsimp only [start]
      omega
    begins := le_rfl
    position := .inl ⟨rfl, rfl, hLe⟩ }

theorem Inv.exact (h : Inv file pos norest r.session r.incoming r.delivered)
    (hPos : pos < file.length) : Exact file pos r := by
  rcases h with h | h
  · refine ⟨?_, .inl h.lines, fun hState => ?_, fun _ => h.rest⟩
    · rcases h.position with ⟨-, hNil, -⟩ | ⟨-, -, hTake⟩
      · rw [hNil]
        exact List.nil_prefix
      · rw [hTake]
        exact List.take_prefix _ _
    · exact h.all_delivered hPos (h.state.resolve_left hState).2
  · refine ⟨h.delivered ▸ List.prefix_refl _, .inr ⟨h.lines, h.delivered, h.state⟩,
      fun _ => h.delivered, fun hNil => ?_⟩
    rw [h.lines] at hNil
    cases hNil

/-! ## What is delivered -/

/-- `Read` does not skip from the beginning of the file on. -/
theorem Active.turn_stuck (h : Active file pos norest s incoming delivered)
    (hGate : s.norestManual = true ∧ s.realPos = 0 ∧ s.pos > 0) (hPos : pos < file.length)
    (size : Nat) (allowed : Nat → Nat) (k : Nat) :
    readTurn size allowed (k, s) = .inr (s, .doAgain) := by
  by_cases hEmpty : s.recvBuf = []
  · rw [readTurn]
    dsimp only
    rw [if_pos hEmpty, h.recvError, h.recvEof]
    rfl
  · rw [h.turn_file (by omega) hEmpty]
    dsimp only
    rw [if_pos hGate, ite_self]

/-- A session that does not go on. -/
def Stuck (s : Session) : Prop := s.norestManual = true ∧ s.realPos = 0 ∧ s.pos > 0

theorem Active.step_stuck (h : Active file pos norest r.session r.incoming r.delivered)
    (hStuck : Stuck r.session) (hPos : pos < file.length) (e : Event) :
    (step r e).delivered = r.delivered ∧ Stuck (step r e).session := by
  have hState : r.session.state = .fileRecv := h.state.resolve_right fun hAnd => by
    have hZero := hStuck.2.1
    omega
  cases e with
  | arrive n => exact ⟨rfl, hStuck⟩
  | read size allowed =>
      have hRead : FishRead.read size allowed r.session = some (r.session, .doAgain) := by
        rw [FishRead.read, hState]
        exact loop_inr (h.turn_stuck hStuck hPos size allowed 0) _
      rw [step, hRead]
      exact ⟨rfl, hStuck⟩
  | doStep =>
      have hSame : FishRead.handleReplies r.session = r.session := by
        refine if_pos ⟨hState, .inr ⟨file.length, h.entitySize, ?_⟩⟩
        have hZero := hStuck.2.1
        omega
      rw [step, doSession, hSame, if_neg (by rw [hState]; nofun)]
      exact ⟨rfl, hStuck⟩

theorem stuck_run (hPos : pos < file.length)
    (h : Inv file pos norest r.session r.incoming r.delivered) (hNone : r.delivered = [])
    (hStuck : Stuck r.session) (es : List Event) :
    (es.foldl step r).delivered = [] ∧ (es.foldl step r).session.realPos = 0 := by
  induction es generalizing r with
  | nil => exact ⟨hNone, hStuck.2.1⟩
  | cons e es ih =>
      have hActive : Active file pos norest r.session r.incoming r.delivered := by
        refine h.resolve_right fun hFinished => ?_
        have hLength := congrArg List.length (hFinished.delivered.symm.trans hNone)
        rw [List.length_drop, List.length_nil] at hLength
        omega
      obtain ⟨hSame, hNext⟩ := hActive.step_stuck hStuck hPos e
      exact ih (h.step hPos e) (hSame.trans hNone) hNext

/-- The position is reached from the start, unless the session is stuck. -/
theorem Active.not_stuck (h : Active file pos norest s incoming delivered)
    (hOpen : ¬ (norest = true ∧ 0 < pos ∧ pos < bs)) : ¬ Stuck s := by
  rintro ⟨hNorest, hZero, hPos⟩
  have hBegins := h.begins
  rw [h.norestManual] at hNorest
  have hNear : pos = 0 ∨ bs ≤ pos := by
    by_contra hNot
    exact hOpen ⟨hNorest, by omega⟩
  rcases hNear with rfl | hFar
  · rcases h.position with ⟨hSame, -⟩ | ⟨-, hEq, -⟩ <;> omega
  · have hStart : bs ≤ startPos pos := by
      have hMod := Nat.mod_lt pos (show 0 < bs by decide)
      have hDvd : bs ∣ pos - pos % bs := Nat.dvd_sub_mod pos
      rw [startPos, if_pos (by unfold bs at hFar; omega)]
      exact Nat.le_of_dvd (by omega) hDvd
    unfold bs at hStart
    omega

theorem Inv.progress (h : Inv file pos norest r.session r.incoming r.delivered)
    (hPos : pos < file.length) (hOpen : ¬ (norest = true ∧ 0 < pos ∧ pos < bs)) :
    Progress file pos r where
  reads := by
    intro size allowed hSize hAllowed hNot hHere
    have hActive := h.resolve_right fun hFinished => hNot hFinished.delivered
    have hMore : r.session.realPos ≠ file.length := fun hEnd =>
      hNot (hActive.all_delivered hPos hEnd)
    have hState := hActive.state.resolve_right fun hAnd => hMore hAnd.2
    have hBefore : r.session.pos < file.length := by
      have hLe := hActive.realPos
      rcases hActive.position with ⟨hSame, -⟩ | ⟨-, hEq, -⟩ <;> omega
    obtain ⟨s', data, hRead, hNe⟩ := hActive.read_ready
      ⟨hActive.not_stuck hOpen, hBefore, hHere⟩ hState hPos hSize hAllowed
    rw [FishRead.step, hRead]
    dsimp only
    rw [List.length_append]
    have hLength := List.length_pos_iff.mpr hNe
    omega
  ends := by
    intro hAll hNil
    have hFinished : Finished file pos norest (handleReplies r.session) r.incoming r.delivered
        ∨ Finished file pos norest r.session r.incoming r.delivered := by
      rcases h with h | h
      · left
        have hEnd : r.session.realPos = file.length := by
          have hLength := congrArg List.length hAll
          rw [List.length_drop] at hLength
          have hLe := h.realPos
          rcases h.position with ⟨-, hNone, -⟩ | ⟨hFrom, hEq, hTake⟩
          · rw [hNone, List.length_nil] at hLength
            omega
          · rw [hTake, List.length_take, List.length_drop] at hLength
            omega
        exact (h.handleReplies hPos).resolve_left fun hAnd => hAnd.2 hEnd hNil
      · exact .inr h
    rcases hFinished with hFinished | hFinished
    · rw [FishRead.step, doSession, if_neg (by rw [hFinished.state]; nofun)]
      exact hFinished.state
    · rw [FishRead.step, hFinished.doSession]
      exact hFinished.state

end

/-- Whatever comes when and is read in what pieces, the bytes that are delivered are those of the
file from the position on, and then the reply is handled. With `norest_manual` and a position in the
first block nothing is delivered, and the session stays at the beginning of the file. -/
theorem retrieve_exact (file : Bytes) (pos : Nat) (norestManual : Bool) (es : List Event)
    (hPos : pos < file.length) :
    Exact file pos (es.foldl step (start file pos norestManual)) ∧
      if norestManual = true ∧ 0 < pos ∧ pos < bs then
        (es.foldl step (start file pos norestManual)).delivered = []
          ∧ (es.foldl step (start file pos norestManual)).session.realPos = 0
      else Progress file pos (es.foldl step (start file pos norestManual)) := by
  have hStart := inv_start norestManual hPos
  have hInv := inv_run hPos hStart es
  refine ⟨hInv.exact hPos, ?_⟩
  split
  · next hGate =>
    have hZero : startPos pos = 0 := by
      rw [startPos, if_pos hGate.2.1, Nat.mod_eq_of_lt hGate.2.2, Nat.sub_self]
    exact stuck_run hPos hStart rfl ⟨hGate.1, hZero, hGate.2.1⟩ es
  · next hOpen => exact hInv.progress hPos hOpen

theorem retrieve_marked :
    1 < (bytes "a### 200\nb").length ∧
      (Exact (bytes "a### 200\nb") 1
        ([.arrive 30, .read 4 fun _ => 3, .doStep].foldl step (start (bytes "a### 200\nb") 1 false)) ∧
      if false = true ∧ 0 < 1 ∧ 1 < bs then
        ([.arrive 30, .read 4 fun _ => 3, .doStep].foldl step
            (start (bytes "a### 200\nb") 1 false)).delivered = []
          ∧ ([.arrive 30, .read 4 fun _ => 3, .doStep].foldl step
            (start (bytes "a### 200\nb") 1 false)).session.realPos = 0
      else Progress (bytes "a### 200\nb") 1 ([.arrive 30, .read 4 fun _ => 3, .doStep].foldl step
        (start (bytes "a### 200\nb") 1 false))) :=
  ⟨by decide, retrieve_exact (bytes "a### 200\nb") 1 false [.arrive 30, .read 4 fun _ => 3, .doStep]
    (by decide)⟩

/-- With `norest_manual` the second byte of a file is not delivered. -/
theorem not_retrieved :
    ¬ ∀ (file : Bytes) (pos : Nat) (norestManual : Bool) (es : List Event), pos < file.length →
      Exact file pos (es.foldl step (start file pos norestManual))
        ∧ Progress file pos (es.foldl step (start file pos norestManual)) := by
  intro h
  obtain ⟨-, hProgress⟩ := h [1, 2] 1 true [.arrive 10] (by decide)
  have hMore := hProgress.reads 1 (fun _ => 1) Nat.one_pos (fun _ => Nat.one_pos) (by decide)
    (by decide)
  exact absurd hMore (by decide)

end Lftp.Ports.FishRead
