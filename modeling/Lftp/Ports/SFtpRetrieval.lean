import Lftp.Verified.Decimal
import Lftp.Verified.Runs
import Lftp.Verified.Tiling

/-!
# Reading a file over SFTP

`SFtp` in the mode `RETRIEVE`, from the handle of the file on: several `READ`
requests are under way at once, the replies come in any order and may be short,
and those ahead of the position needed wait in `ooo_chain`.

A request for data that is still expected or whose reply waits is a span of the
file; the spans tile what was asked for (`Verified.Tiling`), and this is what
the proofs carry along.

The end of the file is where the code goes wrong, in two ways. At the label
`eof` only requests with an earlier id than that of the reply are waited for
(`KeepsOpen`), and once the end was seen a short reply is taken for the last one
and the rest of it is not asked for again (`WholeAfterEof`).

* `Sent` is the invariant: what was put into `file_buf` is the file from the
  starting position on, and the rest below its end is on order.
* `handleReplies_eq` says that `HandleReplies` does nothing but the events.
* `retrieval_exact` is the result over runs.
-/

namespace Lftp.Ports.SFtpRetrieval

open Lftp.Verified

/-- `SSH_FX_EOF`. -/
def sshFxEof : Nat := 1

/-- The members of `SFtp` that `Reconfig` sets. -/
structure Config where
  sizeRead : Nat
  maxPacketsInFlight : Nat
  maxOutOfOrder : Nat
  sizeRead_ge : 16 ≤ sizeRead

/-- `Expect::expect_t`, as far as it occurs here. -/
inductive Tag
  | data
  | info
  | ignore
  deriving DecidableEq

/-- `Expect`, with what the handlers read of its request. -/
structure Expect where
  id : UInt32
  tag : Tag
  pos : Nat
  len : Nat

/-- The replies of the server; `attrs` comes with the size when there is one. -/
inductive Reply
  | data (bytes : Bytes) (eof : Bool)
  | name (eof : Bool)
  | status (code : Nat)
  | attrs (size : Option Nat)
  | other

inductive State
  | disconnected
  | connected
  | fileRecv
  | done
  deriving DecidableEq

/-- `Buffer`: what was put and not yet read, and its `eof`. -/
structure Buffer where
  data : Bytes
  eof : Bool

/-- The members of `SFtp` that a retrieval uses. A null `file_buf` is `none`.
`put` and `ends` are no members: they record the bytes put into `file_buf`, and
what these were at each `PutEOF`. -/
structure Session where
  state : State
  error : Bool
  sshId : UInt32
  pos : Nat
  requestPos : Nat
  fileBuf : Option Buffer
  eof : Bool
  entitySize : Option Nat
  slowStart : Nat
  expectQueue : List Expect
  oooChain : List (Expect × Reply)
  put : Bytes
  ends : List Bytes

namespace Session

variable (c : Config)

/-- `pos+file_buf->Size()`. -/
def needPos (t : Session) : Nat := t.pos + (t.fileBuf.map fun b => b.data.length).getD 0

/-- `file_buf->Put`. -/
def putData (t : Session) (bytes : Bytes) : Session :=
  { t with
    fileBuf := t.fileBuf.map fun b => { b with data := b.data ++ bytes }
    put := t.put ++ bytes }

/-- `file_buf->PutEOF`. -/
def putEof (t : Session) : Session :=
  { t with
    fileBuf := t.fileBuf.map fun b => { b with eof := true }
    ends := t.ends ++ [t.put] }

/-- `SFtp::SendRequest(Packet*,expect_t)`. The queue is a map: an entry with the
same id is replaced. -/
def sendRequest (t : Session) (tag : Tag) (pos len : Nat) : Session :=
  { t with
    sshId := t.sshId + 1
    expectQueue :=
      ⟨t.sshId, tag, pos, len⟩ :: t.expectQueue.filter fun e => e.id != t.sshId }

/-- `SFtp::RequestMoreData`. -/
def requestMoreData (t : Session) : Session :=
  { t.sendRequest .data t.requestPos c.sizeRead with requestPos := t.requestPos + c.sizeRead }

/-- `SFtp::HasExpect`. -/
def hasExpect (t : Session) (tag : Tag) : Bool := t.expectQueue.any fun e => e.tag == tag

/-- `IsBefore`. -/
def isBefore (id1 id2 : UInt32) : Bool := id2 - id1 < id1 - id2

/-- `SFtp::HasExpectBefore`. -/
def hasExpectBefore (t : Session) (id : UInt32) (tag : Tag) : Bool :=
  t.expectQueue.any fun e => e.tag == tag && isBefore e.id id

/-- `Disconnect`, as far as `DisconnectLL` does it. -/
def disconnect (t : Session) : Session :=
  { t with state := .disconnected, fileBuf := none, expectQueue := [], oooChain := [] }

/-- `SFtp::Close`. -/
def close (t : Session) : Session :=
  { t with
    state := .connected
    eof := false
    fileBuf := none
    expectQueue := t.expectQueue.map fun e => { e with tag := .ignore }
    oooChain := [] }

/-- The label `eof` of `HandleExpect`; `id` is that of the reply. -/
def atEof (t : Session) (id : UInt32) : Session :=
  let t := { t with eof := true, state := .done }
  if t.fileBuf.isSome ∧ t.oooChain = [] ∧ t.hasExpectBefore id .data = false then t.putEof else t

/-- A `DATA` reply for the position needed. -/
def takeData (t : Session) (e : Expect) (bytes : Bytes) (eof : Bool) : Session :=
  let t := t.putData bytes
  if eof ∨ t.eof then t.atEof e.id
  else if bytes.length < e.len then
    if e.pos + e.len = t.requestPos then { t with requestPos := e.pos + bytes.length }
    else t.sendRequest .data (e.pos + bytes.length) (e.len - bytes.length)
  else t

/-- The case `DATA` of `HandleExpect`. A `NAME` has nothing for `file_buf` in
this mode. -/
def handleData (t : Session) (e : Expect) : Reply → Session
  | .data bytes eof =>
    if e.pos = t.needPos then t.takeData e bytes eof
    else if c.maxOutOfOrder ≤ t.oooChain.length then t.disconnect
    else { t with oooChain := t.oooChain ++ [(e, .data bytes eof)] }
  | .name eof => if eof ∨ t.eof then t.atEof e.id else t
  | .status code => if code = sshFxEof then t.atEof e.id else { t with error := true }
  | .attrs _ | .other => { t with error := true }

/-- `SFtp::HandleExpect`, with `e` out of the queue. There are no expects for
data without a `file_buf`. -/
def handleExpect (t : Session) (e : Expect) (r : Reply) : Session :=
  match e.tag with
  | .data =>
    if t.fileBuf.isNone then t
    else
      { t with
        slowStart := if t.slowStart < c.maxPacketsInFlight then t.slowStart + 1 else t.slowStart
      }.handleData c e r
  | .info =>
    { t with
      entitySize := match r with
        | .attrs size => size
        | _ => none }
  | .ignore => t

/-- `HandleExpect` for an element of `ooo_chain`. -/
def handleLate (t : Session) (i : Nat) : Session :=
  match t.oooChain[i]? with
  | none => t
  | some (e, r) => { t with oooChain := t.oooChain.eraseIdx i }.handleExpect c e r

/-- `Expect::has_data_at_pos`. -/
def hasDataAt (e : Expect × Reply) (pos : Nat) : Bool :=
  match e.2 with
  | .data .. => e.1.tag == .data && e.1.pos == pos
  | _ => false

/-- The loop of `HandleReplies` over `ooo_chain`; `n` bounds the rounds left. -/
def handleChain (needPos : Nat) : Nat → Nat → Session → Session
  | 0, _, t => t
  | n + 1, i, t =>
    if t.oooChain[i]?.any fun e => hasDataAt e needPos then
      handleChain needPos n (i + 1) (t.handleLate c i)
    else handleChain needPos n (i + 1) t

/-- The test of `HandleReplies` that puts the end of file. -/
def putEofAtEnd (t : Session) : Session :=
  if t.eof ∧ (t.fileBuf.any fun b => !b.eof) ∧ t.oooChain = [] ∧ t.hasExpect .data = false then
    t.putEof
  else t

/-- `FindExpectExclusive` and `HandleExpect` for a packet received. A reply
without an expect is an error that changes nothing here. -/
def handlePacket (t : Session) (id : UInt32) (r : Reply) : Session :=
  match t.expectQueue.find? fun e => e.id == id with
  | none => t
  | some e =>
    { t with expectQueue := t.expectQueue.eraseP fun e => e.id == id }.handleExpect c e r

/-- `SFtp::HandleReplies`, with the packet that is there. -/
def handleReplies (t : Session) (pkt : Option (UInt32 × Reply)) : Session :=
  let t := if t.fileBuf.isSome then handleChain c t.needPos t.oooChain.length 0 t else t
  let t := t.putEofAtEnd
  match pkt with
  | none => t
  | some (id, r) => t.handlePacket c id r

/-- The first part of `SFtp::Read`. -/
def keepInFlight (t : Session) : Session :=
  let limit := if t.entitySize.isSome then c.maxPacketsInFlight else t.slowStart
  if t.state = .fileRecv ∧ t.expectQueue.length < limit ∧ (t.fileBuf.any fun b => !b.eof) ∧
      t.expectQueue.length + t.oooChain.length < c.maxOutOfOrder ∧
      (t.entitySize.all (t.requestPos < ·) ∨ t.expectQueue.length < 2) then
    t.requestMoreData c
  else t

/-- The second part of `SFtp::Read`; `size` is what the caller and the rate limit
allow. -/
def moveData (t : Session) (size : Nat) : Session :=
  match t.fileBuf with
  | none => t
  | some b =>
    { t with
      pos := t.pos + min size b.data.length
      fileBuf := some { b with data := b.data.drop size } }

/-- `SFtp::Read`. -/
def read (t : Session) (size : Nat) : Session :=
  if t.error ∨ (t.state = .done ∧ t.fileBuf.all fun b => b.data.isEmpty && b.eof) then t
  else (t.keepInFlight c).moveData size

end Session

/-! ## Events -/

inductive Event
  | packet (id : UInt32) (r : Reply)
  | late (i : Nat)
  | putEofAtEnd
  | read (size : Nat)
  | sendInfo
  | disconnect
  | close

def Event.act (c : Config) (t : Session) : Event → Session
  | packet id r => t.handlePacket c id r
  | late i => t.handleLate c i
  | putEofAtEnd => t.putEofAtEnd
  | read size => t.read c size
  | sendInfo => t.sendRequest .info 0 0
  | disconnect => t.disconnect
  | close => t.close

/-- A step whose event meets `ok` in the state before it. -/
def Step (c : Config) (ok : Session → Event → Prop) : Session → Event → Session → Prop :=
  Guarded (Event.act c) ok

/-- What `HandleExpect` leaves when the handle has come: an empty `file_buf` and
no request for data. The ids of the queue, a map, are distinct. -/
structure Opened (start : Nat) (t : Session) : Prop where
  state : t.state = .fileRecv
  pos : t.pos = start
  request_pos : t.requestPos = start
  file_buf : t.fileBuf = some ⟨[], false⟩
  ids : (t.expectQueue.map Expect.id).Nodup
  no_data : ∀ e ∈ t.expectQueue, e.tag ≠ .data
  ooo_chain : t.oooChain = []
  put : t.put = []
  ends : t.ends = []

/-! ## The server, and the condition on a step -/

/-- What a server with the file replies to a request for data. -/
def Honest (file : Bytes) (e : Expect) : Reply → Prop
  | .data bytes eof =>
    1 ≤ bytes.length ∧ bytes.length ≤ e.len ∧ bytes = (file.drop e.pos).take bytes.length ∧
      (eof = true → e.pos + bytes.length = file.length)
  | .status code => code = sshFxEof ∧ file.length ≤ e.pos
  | _ => False

/-- The replies of the event are those of such a server. -/
def Event.Serves (file : Bytes) (t : Session) : Event → Prop
  | packet id r =>
    ∀ e, t.expectQueue.find? (fun e => e.id == id) = some e → e.tag = .data → Honest file e r
  | _ => True

/-- `HandleExpect` comes to the label `eof`. -/
def ReachesEof (t : Session) (e : Expect) : Reply → Prop
  | .data _ eof => e.pos = t.needPos ∧ (eof = true ∨ t.eof = true)
  | .name eof => eof = true ∨ t.eof = true
  | .status code => code = sshFxEof
  | _ => False

/-- At the label `eof`, with nothing in `ooo_chain` and no earlier request for
data expected, no later one is for a position below the end of the file. -/
def KeepsOpen (file : Bytes) (t : Session) (e : Expect) (r : Reply) : Prop :=
  ReachesEof t e r → t.oooChain = [] → t.hasExpectBefore e.id .data = false →
    ∀ e' ∈ t.expectQueue, e'.tag = .data → file.length ≤ e'.pos

/-- When the end was seen before, a short reply for the position needed comes up
to the end of the file. -/
def WholeAfterEof (file : Bytes) (t : Session) (e : Expect) : Reply → Prop
  | .data bytes _ =>
    e.pos = t.needPos → t.eof = true → bytes.length < e.len → file.length ≤ e.pos + bytes.length
  | _ => True

/-- The event does not meet one of the defects at the end of the file, and
`ssh_id`, a counter of 32 bits, has not come round to an id that is expected. -/
def Event.Clean (file : Bytes) (t : Session) (ev : Event) : Prop :=
  (∀ e ∈ t.expectQueue, e.id ≠ t.sshId) ∧
  match ev with
  | packet id r =>
    ∀ e, t.expectQueue.find? (fun e => e.id == id) = some e → e.tag = .data →
      KeepsOpen file { t with expectQueue := t.expectQueue.eraseP fun e => e.id == id } e r ∧
        WholeAfterEof file t e r
  | late i =>
    ∀ e r, t.oooChain[i]? = some (e, r) →
      KeepsOpen file { t with oooChain := t.oooChain.eraseIdx i } e r ∧ WholeAfterEof file t e r
  | _ => True

/-! ## What is on order -/

/-- The span of the file that a request is for. -/
def Expect.span (e : Expect) : Span := ⟨e.pos, e.len⟩

/-- The spans of the requests for data. -/
def wanted (queue : List Expect) : List Span :=
  (queue.filter fun e => e.tag == .data).map Expect.span

/-- The spans that are expected or wait in `ooo_chain`. -/
def Session.spans (t : Session) : List Span :=
  wanted t.expectQueue ++ t.oooChain.map fun e => e.1.span

/-- `file_buf` is there; `pending` are spans whose reply is being handled. -/
structure Active (file : Bytes) (start : Nat) (t : Session) (b : Buffer) (pending : List Span) :
    Prop where
  need : t.pos + b.data.length = start + t.put.length
  tiling : Tiling (pending ++ t.spans) (t.pos + b.data.length) t.requestPos file.length
  late : ∀ e ∈ t.oooChain, e.1.tag = .data ∧ Honest file e.1 e.2
  eof : t.eof = true → file.length ≤ t.requestPos
  receiving : t.state = .fileRecv → t.eof = false

/-- What was put is the file from the starting position on, all of it at each
`PutEOF`, and what is missing is on order. -/
structure Sent (file : Bytes) (start : Nat) (t : Session) : Prop where
  put : t.put = (file.drop start).take t.put.length
  ends : ∀ l ∈ t.ends, l = file.drop start
  active : ∀ b, t.fileBuf = some b → Active file start t b []

variable {c : Config} {file : Bytes} {start : Nat} {t : Session} {b : Buffer} {e : Expect}
  {r : Reply}

theorem wanted_cons (e : Expect) (queue : List Expect) :
    wanted (e :: queue) = if e.tag = .data then e.span :: wanted queue else wanted queue := by
  unfold wanted
  rw [List.filter_cons]
  by_cases h : e.tag = .data
  · rw [if_pos h, if_pos (beq_iff_eq.mpr h)]
    rfl
  · rw [if_neg h, if_neg fun hEq => h (beq_iff_eq.mp hEq)]

theorem wanted_perm {queue queue' : List Expect} (h : queue.Perm queue') :
    (wanted queue).Perm (wanted queue') := (h.filter _).map _

theorem wanted_eq_nil {queue : List Expect} (h : ∀ e ∈ queue, e.tag ≠ .data) :
    wanted queue = [] := by
  unfold wanted
  rw [List.filter_eq_nil_iff.mpr fun e he => by simpa using h e he]
  rfl

theorem spans_sendRequest (hFresh : ∀ e ∈ t.expectQueue, e.id ≠ t.sshId) (tag : Tag)
    (pos len : Nat) :
    (t.sendRequest tag pos len).spans =
      if tag = .data then ⟨pos, len⟩ :: t.spans else t.spans := by
  have hKept : t.expectQueue.filter (fun e => e.id != t.sshId) = t.expectQueue := by
    apply List.filter_eq_self.mpr
    intro e he
    simpa using hFresh e he
  unfold Session.spans Session.sendRequest
  dsimp only
  rw [hKept, wanted_cons]
  split <;> rfl

/-! ## The end of the file -/

theorem drop_of_put {put : Bytes} (hPut : put = (file.drop start).take put.length)
    (hAll : file.length ≤ start + put.length) : put = file.drop start := by
  rw [List.take_of_length_le] at hPut
  · exact hPut
  · rw [List.length_drop]
    omega

/-- Nothing is missing when all was asked for and nothing below the end is on
order. -/
theorem Active.complete (h : Active file start t b [])
    (hPut : t.put = (file.drop start).take t.put.length) (hEof : file.length ≤ t.requestPos)
    (hLate : t.oooChain = []) (hQueue : ∀ e ∈ t.expectQueue, e.tag = .data → file.length ≤ e.pos) :
    t.put = file.drop start := by
  apply drop_of_put hPut
  rw [← h.need]
  apply h.tiling.exhausted hEof
  intro s hs
  unfold Session.spans at hs
  rw [List.nil_append, hLate, List.map_nil, List.append_nil] at hs
  rcases List.mem_map.mp hs with ⟨e, he, rfl⟩
  rcases List.mem_filter.mp he with ⟨he, hTag⟩
  exact hQueue e he (beq_iff_eq.mp hTag)

theorem Sent.putEof (h : Sent file start t) (hAll : t.put = file.drop start) :
    Sent file start t.putEof := by
  refine ⟨h.put, fun l hl => ?_, fun b hb => ?_⟩
  · rcases List.mem_append.mp hl with hl | hl
    · exact h.ends l hl
    · rw [List.mem_singleton.mp hl]
      exact hAll
  · rcases Option.map_eq_some_iff.mp hb with ⟨b', hb', rfl⟩
    have hOld := h.active b' hb'
    exact ⟨hOld.need, hOld.tiling, hOld.late, hOld.eof, hOld.receiving⟩

theorem Sent.atEof (h : Sent file start t) (hBuf : t.fileBuf = some b)
    (hEof : file.length ≤ t.requestPos) {id : UInt32}
    (hOpen : t.oooChain = [] → t.hasExpectBefore id .data = false →
      ∀ e ∈ t.expectQueue, e.tag = .data → file.length ≤ e.pos) :
    Sent file start (t.atEof id) := by
  have hOld := h.active b hBuf
  have hSeen : Sent file start { t with eof := true, state := .done } := by
    refine ⟨h.put, h.ends, fun b' hb' => ?_⟩
    rw [← Option.some.inj (hBuf.symm.trans hb')]
    exact ⟨hOld.need, hOld.tiling, hOld.late, fun _ => hEof, nofun⟩
  unfold Session.atEof
  dsimp only
  split
  · next hLast =>
    apply hSeen.putEof
    exact hOld.complete h.put hEof hLast.2.1 (hOpen hLast.2.1 hLast.2.2)
  · exact hSeen

/-! ## Replies -/

theorem needPos_of (h : t.fileBuf = some b) : t.needPos = t.pos + b.data.length := by
  unfold Session.needPos
  rw [h]
  rfl

/-- A reply for the position needed continues what was put. -/
theorem put_append (hPut : t.put = (file.drop start).take t.put.length) {bytes : Bytes} {p : Nat}
    (hPos : p = start + t.put.length) (hBytes : bytes = (file.drop p).take bytes.length) :
    t.put ++ bytes = (file.drop start).take (t.put ++ bytes).length := by
  rw [List.length_append, List.take_add, List.drop_drop, ← hPos, ← hPut, ← hBytes]

theorem sent_takeData {bytes : Bytes} {eof : Bool}
    (hPut : t.put = (file.drop start).take t.put.length)
    (hEnds : ∀ l ∈ t.ends, l = file.drop start) (hBuf : t.fileBuf = some b)
    (h : Active file start t b [e.span]) (hPos : e.pos = t.needPos)
    (hHonest : Honest file e (.data bytes eof)) (hFresh : ∀ e ∈ t.expectQueue, e.id ≠ t.sshId)
    (hOpen : KeepsOpen file t e (.data bytes eof))
    (hWhole : WholeAfterEof file t e (.data bytes eof)) :
    Sent file start (t.takeData e bytes eof) := by
  rcases hHonest with ⟨hOne, hLen, hBytes, hLast⟩
  have hNeed := needPos_of hBuf
  have hSpan : e.span = ⟨t.pos + b.data.length, e.len⟩ := by
    unfold Expect.span
    rw [hPos, hNeed]
  have hTiling := h.tiling
  rw [List.singleton_append, hSpan] at hTiling
  have hPut' : t.put ++ bytes = (file.drop start).take (t.put ++ bytes).length := by
    apply put_append hPut _ hBytes
    rw [hPos, hNeed]
    exact h.need
  have hNeed' : t.pos + (b.data ++ bytes).length = start + (t.put ++ bytes).length := by
    rw [List.length_append, List.length_append]
    have hOld := h.need
    omega
  have hFront : t.pos + (b.data ++ bytes).length = t.pos + b.data.length + bytes.length := by
    rw [List.length_append]
    omega
  have hBuf' : (t.putData bytes).fileBuf = some { b with data := b.data ++ bytes } := by
    unfold Session.putData
    rw [hBuf]
    rfl
  -- the reply is whole, or no byte of the file is behind it
  have hDone : bytes.length = e.len ∨ file.length ≤ t.pos + b.data.length + bytes.length →
      Sent file start (t.putData bytes) := by
    intro hCase
    refine ⟨hPut', hEnds, fun b' hb' => ?_⟩
    rw [← Option.some.inj (hBuf'.symm.trans hb')]
    refine ⟨hNeed', ?_, h.late, h.eof, h.receiving⟩
    show Tiling t.spans (t.pos + (b.data ++ bytes).length) t.requestPos file.length
    rw [hFront]
    exact hTiling.advance hLen hCase
  unfold Session.takeData
  dsimp only
  by_cases hSeen : eof = true ∨ t.eof = true
  · have hSeen' : eof = true ∨ (t.putData bytes).eof = true := hSeen
    rw [if_pos hSeen']
    have hCase : bytes.length = e.len ∨ file.length ≤ t.pos + b.data.length + bytes.length := by
      rcases hSeen with hFlag | hBefore
      · right
        have hEnd := hLast hFlag
        omega
      · by_cases hShort : bytes.length < e.len
        · right
          have hEnd := hWhole hPos hBefore hShort
          omega
        · left
          omega
    apply (hDone hCase).atEof hBuf'
    · rcases hSeen with hFlag | hBefore
      · have hEnd := hLast hFlag
        have hIn := (hTiling.within _ List.mem_cons_self).2.1
        dsimp only at hIn
        show file.length ≤ t.requestPos
        omega
      · exact h.eof hBefore
    · exact hOpen ⟨hPos, hSeen⟩
  · have hSeen' : ¬ (eof = true ∨ (t.putData bytes).eof = true) := hSeen
    rw [if_neg hSeen']
    have hEof : t.eof = false := Bool.eq_false_iff.mpr fun hTrue => hSeen (.inr hTrue)
    by_cases hShort : bytes.length < e.len
    · rw [if_pos hShort]
      by_cases hEnd : e.pos + e.len = (t.putData bytes).requestPos
      · rw [if_pos hEnd]
        refine ⟨hPut', hEnds, fun b' hb' => ?_⟩
        rw [← Option.some.inj (hBuf'.symm.trans hb')]
        refine ⟨hNeed', ?_, h.late, fun hTrue => ?_, h.receiving⟩
        · show Tiling t.spans (t.pos + (b.data ++ bytes).length) (e.pos + bytes.length) file.length
          rw [hFront, hPos, hNeed]
          apply hTiling.retreat
          rw [← hNeed, ← hPos]
          exact hEnd
        · exact absurd (hEof.symm.trans hTrue) Bool.false_ne_true
      · rw [if_neg hEnd]
        refine ⟨hPut', hEnds, fun b' hb' => ?_⟩
        rw [← Option.some.inj (hBuf'.symm.trans hb')]
        refine ⟨hNeed', ?_, h.late, h.eof, h.receiving⟩
        have hSpans := spans_sendRequest (t := t.putData bytes) hFresh .data (e.pos + bytes.length)
          (e.len - bytes.length)
        rw [if_pos rfl] at hSpans
        rw [List.nil_append, hSpans]
        show Tiling (⟨e.pos + bytes.length, e.len - bytes.length⟩ :: t.spans)
          (t.pos + (b.data ++ bytes).length) t.requestPos file.length
        rw [hFront, hPos, hNeed]
        exact hTiling.split hShort
    · rw [if_neg hShort]
      apply hDone
      left
      omega

theorem sent_disconnect (hPut : t.put = (file.drop start).take t.put.length)
    (hEnds : ∀ l ∈ t.ends, l = file.drop start) : Sent file start t.disconnect :=
  ⟨hPut, hEnds, nofun⟩

theorem sent_handleData (hPut : t.put = (file.drop start).take t.put.length)
    (hEnds : ∀ l ∈ t.ends, l = file.drop start) (hBuf : t.fileBuf = some b)
    (h : Active file start t b [e.span]) (hTag : e.tag = .data) (hHonest : Honest file e r)
    (hFresh : ∀ e ∈ t.expectQueue, e.id ≠ t.sshId) (hOpen : KeepsOpen file t e r)
    (hWhole : WholeAfterEof file t e r) : Sent file start (t.handleData c e r) := by
  unfold Session.handleData
  cases r with
  | data bytes eof =>
      dsimp only
      split
      · next hPos => exact sent_takeData hPut hEnds hBuf h hPos hHonest hFresh hOpen hWhole
      · split
        · exact sent_disconnect hPut hEnds
        · refine ⟨hPut, hEnds, fun b' hb' => ?_⟩
          rw [← Option.some.inj (hBuf.symm.trans hb')]
          refine ⟨h.need, ?_, fun e' he' => ?_, h.eof, h.receiving⟩
          · apply h.tiling.perm
            show ([e.span] ++ t.spans).Perm
              (wanted t.expectQueue ++
                (t.oooChain ++ [(e, Reply.data bytes eof)]).map fun e => e.1.span)
            have hMoved : wanted t.expectQueue ++
                (t.oooChain ++ [(e, Reply.data bytes eof)]).map (fun e => e.1.span) =
                  t.spans ++ [e.span] := by
              rw [List.map_append, ← List.append_assoc]
              rfl
            rw [hMoved]
            exact List.perm_append_comm
          · rcases List.mem_append.mp he' with he' | he'
            · exact h.late e' he'
            · rw [List.mem_singleton.mp he']
              exact ⟨hTag, hHonest⟩
  | status code =>
      rcases hHonest with ⟨hCode, hBeyond⟩
      dsimp only
      rw [if_pos hCode]
      have hDropped : Sent file start t := by
        refine ⟨hPut, hEnds, fun b' hb' => ?_⟩
        rw [← Option.some.inj (hBuf.symm.trans hb')]
        exact ⟨h.need, h.tiling.drop_beyond hBeyond, h.late, h.eof, h.receiving⟩
      apply hDropped.atEof hBuf
      · have hIn := (h.tiling.within e.span List.mem_cons_self).2.1
        change e.pos + e.len ≤ t.requestPos at hIn
        omega
      · exact hOpen hCode
  | name eof => exact hHonest.elim
  | attrs size => exact hHonest.elim
  | other => exact hHonest.elim

theorem sent_handleExpect (hPut : t.put = (file.drop start).take t.put.length)
    (hEnds : ∀ l ∈ t.ends, l = file.drop start)
    (h : ∀ b, t.fileBuf = some b →
      Active file start t b (if e.tag = .data then [e.span] else []))
    (hHonest : e.tag = .data → Honest file e r)
    (hFresh : ∀ e ∈ t.expectQueue, e.id ≠ t.sshId)
    (hOpen : e.tag = .data → KeepsOpen file t e r)
    (hWhole : e.tag = .data → WholeAfterEof file t e r) :
    Sent file start (t.handleExpect c e r) := by
  unfold Session.handleExpect
  split
  · next hTag =>
    rw [if_pos hTag] at h
    split
    · next hNone =>
      refine ⟨hPut, hEnds, fun b hb => ?_⟩
      rw [hb] at hNone
      exact absurd hNone nofun
    · next hSome =>
      have hThere : t.fileBuf.isSome = true := by
        rw [← Option.not_isNone, Bool.eq_false_iff.mpr hSome]
        rfl
      rcases Option.isSome_iff_exists.mp hThere with ⟨b, hb⟩
      have hOld := h b hb
      apply sent_handleData
      · exact hPut
      · exact hEnds
      · exact hb
      · exact ⟨hOld.need, hOld.tiling, hOld.late, hOld.eof, hOld.receiving⟩
      · exact hTag
      · exact hHonest hTag
      · exact hFresh
      · exact hOpen hTag
      · exact hWhole hTag
  · next hTag =>
    refine ⟨hPut, hEnds, fun b hb => ?_⟩
    have hOld := h b hb
    rw [if_neg (by rw [hTag]; exact nofun)] at hOld
    exact ⟨hOld.need, hOld.tiling, hOld.late, hOld.eof, hOld.receiving⟩
  · next hTag =>
    refine ⟨hPut, hEnds, fun b hb => ?_⟩
    have hOld := h b hb
    rw [if_neg (by rw [hTag]; exact nofun)] at hOld
    exact hOld

/-- Without a `file_buf` nothing is put. -/
theorem sent_handleExpect_closed (hPut : t.put = (file.drop start).take t.put.length)
    (hEnds : ∀ l ∈ t.ends, l = file.drop start) (hNone : t.fileBuf = none) :
    Sent file start (t.handleExpect c e r) := by
  have hClosed : ∀ b, t.fileBuf = some b → Active file start t b [] :=
    fun b hb => absurd (hNone.symm.trans hb) nofun
  unfold Session.handleExpect
  split
  · rw [if_pos (hNone ▸ rfl)]
    exact ⟨hPut, hEnds, hClosed⟩
  · exact ⟨hPut, hEnds, fun b hb => absurd (hNone.symm.trans hb) nofun⟩
  · exact ⟨hPut, hEnds, hClosed⟩

/-! ## Events -/

theorem find?_split {queue : List Expect} {id : UInt32}
    (h : queue.find? (fun e => e.id == id) = some e) :
    queue.Perm (e :: queue.eraseP fun e => e.id == id) := by
  have hMem := List.mem_of_find?_eq_some h
  have hId := List.find?_some h
  rcases List.find?_eq_some_iff_append.mp h with ⟨_, before, after, rfl, hBefore⟩
  have hErased : (before ++ e :: after).eraseP (fun e => e.id == id) = before ++ after := by
    rw [List.eraseP_append_right]
    · exact congrArg (before ++ ·) (List.eraseP_cons_of_pos hId)
    · intro e' he'
      simpa using hBefore e' he'
  rw [hErased]
  exact List.perm_middle

theorem perm_eraseIdx {α : Type} {l : List α} {i : Nat} {a : α} (h : l[i]? = some a) :
    (a :: l.eraseIdx i).Perm l := by
  rcases List.getElem?_eq_some_iff.mp h with ⟨hLt, rfl⟩
  rw [List.eraseIdx_eq_take_drop_succ]
  have hSplit : l.take i ++ l[i] :: l.drop (i + 1) = l := by
    rw [← List.drop_eq_getElem_cons hLt]
    exact List.take_append_drop i l
  have hMiddle : (l[i] :: (l.take i ++ l.drop (i + 1))).Perm (l.take i ++ l[i] :: l.drop (i + 1)) :=
    List.perm_middle.symm
  rw [hSplit] at hMiddle
  exact hMiddle

theorem sent_handlePacket (h : Sent file start t) {id : UInt32}
    (hServes : (Event.packet id r).Serves file t) (hClean : (Event.packet id r).Clean file t) :
    Sent file start (t.handlePacket c id r) := by
  rcases hClean with ⟨hFresh, hClean⟩
  unfold Session.handlePacket
  cases hFind : t.expectQueue.find? fun e => e.id == id with
  | none => exact h
  | some e =>
      have hPerm := find?_split hFind
      apply sent_handleExpect
      · exact h.put
      · exact h.ends
      · intro b hb
        have hOld := h.active b hb
        refine ⟨hOld.need, ?_, hOld.late, hOld.eof, hOld.receiving⟩
        apply hOld.tiling.perm
        have hWanted := wanted_perm hPerm
        rw [wanted_cons] at hWanted
        unfold Session.spans
        rw [List.nil_append, ← List.append_assoc]
        apply List.Perm.append_right
        split at hWanted
        · next hTag =>
          rw [if_pos hTag]
          exact hWanted
        · next hTag =>
          rw [if_neg hTag]
          exact hWanted
      · exact hServes e hFind
      · intro e' he'
        exact hFresh e' (List.mem_of_mem_eraseP he')
      · exact fun hTag => (hClean e hFind hTag).1
      · exact fun hTag => (hClean e hFind hTag).2

theorem sent_handleLate (h : Sent file start t) {i : Nat} (hClean : (Event.late i).Clean file t) :
    Sent file start (t.handleLate c i) := by
  rcases hClean with ⟨hFresh, hClean⟩
  unfold Session.handleLate
  cases hGet : t.oooChain[i]? with
  | none => exact h
  | some er =>
      rcases er with ⟨e, r⟩
      have hPerm := perm_eraseIdx hGet
      by_cases hNone : t.fileBuf = none
      · exact sent_handleExpect_closed h.put h.ends hNone
      · rcases Option.ne_none_iff_exists'.mp hNone with ⟨b, hBuf⟩
        have hOld := h.active b hBuf
        have hLate := hOld.late (e, r) (hPerm.mem_iff.mp List.mem_cons_self)
        apply sent_handleExpect
        · exact h.put
        · exact h.ends
        · intro b' hb'
          rw [← Option.some.inj (hBuf.symm.trans hb'), if_pos hLate.1]
          refine ⟨hOld.need, ?_, fun e' he' => ?_, hOld.eof, hOld.receiving⟩
          · apply hOld.tiling.perm
            have hSpans := hPerm.symm.map fun e => e.1.span
            exact (hSpans.append_left _).trans List.perm_middle
          · exact hOld.late e' (List.mem_of_mem_eraseIdx he')
        · exact fun _ => hLate.2
        · exact hFresh
        · exact fun _ => (hClean e r hGet).1
        · exact fun _ => (hClean e r hGet).2

theorem sent_putEofAtEnd (h : Sent file start t) : Sent file start t.putEofAtEnd := by
  unfold Session.putEofAtEnd
  split
  · next hEnd =>
    rcases hEnd with ⟨hEof, hBuf, hLate, hNone⟩
    rcases Option.any_eq_true_iff_get _ _ |>.mp hBuf with ⟨hSome, -⟩
    have hOld := h.active _ (Option.some_get hSome).symm
    apply h.putEof
    apply hOld.complete h.put (hOld.eof hEof) hLate
    intro e he hTag
    have hIs : t.hasExpect .data = true := List.any_eq_true.mpr ⟨e, he, beq_iff_eq.mpr hTag⟩
    exact absurd (hNone.symm.trans hIs) Bool.false_ne_true
  · exact h

theorem sent_read (h : Sent file start t) (hFresh : ∀ e ∈ t.expectQueue, e.id ≠ t.sshId)
    (size : Nat) : Sent file start (t.read c size) := by
  have hKept : Sent file start (t.keepInFlight c) := by
    unfold Session.keepInFlight
    dsimp only
    generalize (if t.entitySize.isSome then c.maxPacketsInFlight else t.slowStart) = limit
    split
    · next hMore =>
      refine ⟨h.put, h.ends, fun b hb => ?_⟩
      have hOld := h.active b hb
      have hEof := hOld.receiving hMore.1
      refine ⟨hOld.need, ?_, hOld.late, fun hTrue => ?_, hOld.receiving⟩
      · have hSpans := spans_sendRequest hFresh .data t.requestPos c.sizeRead
        rw [if_pos rfl] at hSpans
        show Tiling ((t.sendRequest .data t.requestPos c.sizeRead).spans) (t.pos + b.data.length)
          (t.requestPos + c.sizeRead) file.length
        rw [hSpans]
        apply hOld.tiling.extend
        have hSize := c.sizeRead_ge
        omega
      · exact absurd (hEof.symm.trans hTrue) Bool.false_ne_true
    · exact h
  unfold Session.read
  split
  · exact h
  · generalize t.keepInFlight c = t' at hKept ⊢
    unfold Session.moveData
    split
    · exact hKept
    · next b hb =>
      have hOld := hKept.active b hb
      have hMoved : t'.pos + min size b.data.length + (b.data.drop size).length =
          t'.pos + b.data.length := by
        rw [List.length_drop]
        omega
      refine ⟨hKept.put, hKept.ends, fun b' hb' => ?_⟩
      rw [← Option.some.inj hb']
      refine ⟨hMoved.trans hOld.need, ?_, hOld.late, hOld.eof, hOld.receiving⟩
      show Tiling t'.spans (t'.pos + min size b.data.length + (b.data.drop size).length) _ _
      rw [hMoved]
      exact hOld.tiling

/-- One event keeps the promise. -/
theorem Sent.act (h : Sent file start t) {ev : Event} (hServes : ev.Serves file t)
    (hClean : ev.Clean file t) : Sent file start (ev.act c t) := by
  cases ev with
  | packet id r => exact sent_handlePacket h hServes hClean
  | late i => exact sent_handleLate h hClean
  | putEofAtEnd => exact sent_putEofAtEnd h
  | read size => exact sent_read h hClean.1 size
  | sendInfo =>
      refine ⟨h.put, h.ends, fun b hb => ?_⟩
      have hOld := h.active b hb
      refine ⟨hOld.need, ?_, hOld.late, hOld.eof, hOld.receiving⟩
      have hSpans := spans_sendRequest hClean.1 .info 0 0
      rw [if_neg nofun] at hSpans
      show Tiling ((t.sendRequest .info 0 0).spans) (t.pos + b.data.length) t.requestPos file.length
      rw [hSpans]
      exact hOld.tiling
  | disconnect => exact sent_disconnect h.put h.ends
  | close => exact ⟨h.put, h.ends, nofun⟩

theorem Opened.sent (h : Opened start t) (hEof : t.eof = false) : Sent file start t := by
  refine ⟨?_, ?_, fun b hb => ?_⟩
  · rw [h.put]
    rfl
  · rw [h.ends]
    exact fun _ hl => absurd hl List.not_mem_nil
  · rw [h.file_buf, Option.some.injEq] at hb
    subst hb
    refine ⟨?_, ?_, ?_, fun hTrue => ?_, fun _ => hEof⟩
    · rw [h.pos, h.put]
    · unfold Session.spans
      rw [wanted_eq_nil h.no_data, h.ooo_chain, h.request_pos, h.pos]
      exact Tiling.nil start file.length
    · rw [h.ooo_chain]
      exact fun _ he => absurd he List.not_mem_nil
    · exact absurd (hEof.symm.trans hTrue) Bool.false_ne_true

/-- A call of `HandleReplies` is a sequence of events. -/
theorem handleReplies_eq (c : Config) (t : Session) (pkt : Option (UInt32 × Reply)) :
    ∃ evs : List Event, t.handleReplies c pkt = evs.foldl (Event.act c) t := by
  have hChain : ∀ (needPos n i : Nat) (t : Session),
      ∃ evs : List Event, t.handleChain c needPos n i = evs.foldl (Event.act c) t := by
    intro needPos n
    induction n with
    | zero => exact fun i t => ⟨[], rfl⟩
    | succ n ih =>
        intro i t
        unfold Session.handleChain
        split
        · rcases ih (i + 1) (t.handleLate c i) with ⟨evs, hEvs⟩
          exact ⟨.late i :: evs, hEvs⟩
        · exact ih (i + 1) t
  have hLoop : ∃ evs : List Event, (if t.fileBuf.isSome then
      t.handleChain c t.needPos t.oooChain.length 0 else t) = evs.foldl (Event.act c) t := by
    split
    · exact hChain _ _ _ _
    · exact ⟨[], rfl⟩
  rcases hLoop with ⟨evs, hEvs⟩
  unfold Session.handleReplies
  dsimp only
  rw [hEvs]
  cases pkt with
  | none =>
      refine ⟨evs ++ [.putEofAtEnd], ?_⟩
      rw [List.foldl_append]
      rfl
  | some p =>
      refine ⟨evs ++ [.putEofAtEnd, .packet p.1 p.2], ?_⟩
      rw [List.foldl_append]
      rfl

/-! ## Runs -/

/-- A retrieval starts with `eof` clear; `Close` clears it, `Disconnect` does not. -/
def Started (start : Nat) (t : Session) : Prop := Opened start t ∧ t.eof = false

/-- In a run with an honest server whose steps do not meet the defects at the end
of the file, the bytes put into `file_buf` are those of the file from the starting
position on, and at each `PutEOF` they are all of them. -/
theorem retrieval_exact (c : Config) (file : Bytes) (start : Nat) (t : Session)
    (h : Reach (Started start) (Step c fun t ev => ev.Serves file t ∧ ev.Clean file t) t) :
    t.put <+: file.drop start ∧ ∀ l ∈ t.ends, l = file.drop start := by
  have hSent : Sent file start t := by
    apply h.invariant (I := Sent file start)
    · intro t hStart
      exact hStart.1.sent hStart.2
    · intro t ev t' hSent hStep
      exact hStep.2 ▸ hSent.act hStep.1.1 hStep.1.2
  refine ⟨?_, hSent.ends⟩
  rw [hSent.put]
  exact List.take_prefix _ _

/-- The defaults, with the smallest size of a request. -/
def smallReads : Config := ⟨16, 16, 64, Nat.le_refl 16⟩

/-- The handle of a file of 20 bytes has come, and its size. -/
def opened : Session where
  state := .fileRecv
  error := false
  sshId := 1
  pos := 0
  requestPos := 0
  fileBuf := some ⟨[], false⟩
  eof := false
  entitySize := some 20
  slowStart := 1
  expectQueue := []
  oooChain := []
  put := []
  ends := []

theorem started_opened : Started 0 opened :=
  ⟨⟨rfl, rfl, rfl, rfl, List.nodup_nil, fun _ he => absurd he List.not_mem_nil, rfl, rfl, rfl⟩, rfl⟩

/-- Twenty bytes. -/
def twenty : Bytes := (List.range 20).map UInt8.ofNat

/-- The replies come in order, the second one short at the end of the file. -/
def inOrder : List Event :=
  [.read 0, .read 0, .packet 1 (.data (twenty.take 16) false), .packet 2 (.data (twenty.drop 16) false),
    .read 100, .packet 3 (.status sshFxEof)]

theorem retrieval_exact_inOrder :
    (inOrder.foldl (Event.act smallReads) opened).ends = [twenty] ∧
    ((inOrder.foldl (Event.act smallReads) opened).put <+: twenty.drop 0 ∧
      ∀ l ∈ (inOrder.foldl (Event.act smallReads) opened).ends, l = twenty.drop 0) := by
  have hStart : Reach (Started 0)
      (Step smallReads fun t ev => ev.Serves twenty t ∧ ev.Clean twenty t) opened :=
    .start started_opened
  refine ⟨by decide, retrieval_exact smallReads twenty 0 _ (hStart.foldl inOrder ?_)⟩
  have hRead : ∀ {t : Session} {size : Nat}, (∀ e ∈ t.expectQueue, e.id ≠ t.sshId) →
      (Event.read size).Serves twenty t ∧ (Event.read size).Clean twenty t :=
    fun hFresh => ⟨trivial, hFresh, trivial⟩
  have hData : ∀ {t : Session} {id : UInt32} {bytes : Bytes} {e : Expect},
      t.expectQueue.find? (fun e => e.id == id) = some e →
      Honest twenty e (.data bytes false) → t.eof = false →
      (∀ e ∈ t.expectQueue, e.id ≠ t.sshId) →
      (Event.packet id (.data bytes false)).Serves twenty t ∧
        (Event.packet id (.data bytes false)).Clean twenty t := by
    intro t id bytes e hFind hHonest hEof hFresh
    refine ⟨fun e' he' _ => ?_, hFresh, fun e' he' _ => ⟨fun hReach => ?_, fun _ hTrue => ?_⟩⟩
    · rw [hFind, Option.some.injEq] at he'
      exact he' ▸ hHonest
    · rcases hReach.2 with hFlag | hTrue
      · exact absurd hFlag Bool.false_ne_true
      · exact absurd (hEof.symm.trans hTrue) Bool.false_ne_true
    · exact absurd (hEof.symm.trans hTrue) Bool.false_ne_true
  have hLast : ∀ {t : Session} {id : UInt32} {e : Expect}, t.expectQueue = [e] → (e.id == id) = true →
      twenty.length ≤ e.pos → e.id ≠ t.sshId →
      (Event.packet id (.status sshFxEof)).Serves twenty t ∧
        (Event.packet id (.status sshFxEof)).Clean twenty t := by
    intro t id e hQueue hId hBeyond hFresh
    have hFind : t.expectQueue.find? (fun e => e.id == id) = some e := by
      rw [hQueue]
      exact List.find?_cons_of_pos hId
    have hNone : t.expectQueue.eraseP (fun e => e.id == id) = [] := by
      rw [hQueue]
      exact List.eraseP_cons_of_pos hId
    refine ⟨fun e' he' _ => ?_, fun e' he' => ?_, fun e' he' _ => ⟨fun _ _ _ e'' he'' => ?_, trivial⟩⟩
    · rw [hFind, Option.some.injEq] at he'
      exact he' ▸ ⟨rfl, hBeyond⟩
    · rw [hQueue] at he'
      exact List.mem_singleton.mp he' ▸ hFresh
    · change e'' ∈ t.expectQueue.eraseP fun e => e.id == id at he''
      rw [hNone] at he''
      exact absurd he'' List.not_mem_nil
  refine ⟨hRead (by decide), hRead (by decide), ?_, ?_, hRead (by decide), ?_, trivial⟩
  · exact hData rfl ⟨by decide, by decide, by decide, nofun⟩ rfl (by decide)
  · exact hData rfl ⟨by decide, by decide, by decide, nofun⟩ rfl (by decide)
  · exact hLast rfl rfl (by decide) (by decide)

/-- The reply for the last bytes is cut, the end of the file is seen at the next
request, and the request for what was cut has a later id. -/
def cutShort : List Event :=
  [.read 0, .read 0, .packet 1 (.data (twenty.take 16) false), .read 0,
    .packet 2 (.data ((twenty.drop 16).take 2) false), .packet 3 (.status sshFxEof)]

/-- `PutEOF` comes after 18 of the 20 bytes. -/
theorem not_retrieval_exact :
    ¬ ∀ (c : Config) (file : Bytes) (start : Nat) (t : Session),
      Reach (Started start) (Step c fun t ev => ev.Serves file t) t →
      ∀ l ∈ t.ends, l = file.drop start := by
  intro hAll
  have hStart : Reach (Started 0) (Step smallReads fun t ev => ev.Serves twenty t) opened :=
    .start started_opened
  have hServes : ∀ {t : Session} {id : UInt32} {r : Reply} {e : Expect},
      t.expectQueue.find? (fun e => e.id == id) = some e → Honest twenty e r →
      (Event.packet id r).Serves twenty t := by
    intro t id r e hFind hHonest e' he' _
    rw [hFind, Option.some.injEq] at he'
    exact he' ▸ hHonest
  have hReach := hStart.foldl cutShort (by
    refine ⟨trivial, trivial, ?_, trivial, ?_, ?_, trivial⟩
    · exact hServes rfl ⟨by decide, by decide, by decide, nofun⟩
    · exact hServes rfl ⟨by decide, by decide, by decide, nofun⟩
    · exact hServes rfl ⟨rfl, by decide⟩)
  have hEarly : (cutShort.foldl (Event.act smallReads) opened).ends = [twenty.take 18] := by decide
  have hEqual := hAll smallReads twenty 0 _ hReach (twenty.take 18) (hEarly ▸ List.mem_cons_self)
  exact absurd hEqual (by decide)

end Lftp.Ports.SFtpRetrieval
