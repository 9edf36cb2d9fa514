import Lftp.Ports.TorrentPeers

/-!
# Two peers on one connection

A connection between two `TorrentPeer`s, with the messages about choking, interest and blocks. What
an end has sent and the other end has not taken yet is on its wire, in the order in which it was
sent. `fast` says that both ends have the fast extension. Both have the metadata, and a run ends
where an end disconnects.

No end sends `allowed-fast`, so nothing is asked for while the other end is choking. The other
messages change nothing here, but for the decisions that are steps of their own.

* `View` is the invariant of one direction: what the other end knows of this one, once the wire is
  empty.
* `link_agrees`: both ends agree about choking and interest, up to the messages on the wire.
* `no_block_while_choked`: no block arrives while the other end is known to be choking.
* `outstanding_accounted`: a request that waits for an answer is on the wire or in the queue, or its
  answer is, or the other end has ignored it.
-/

namespace Lftp.Ports.TorrentLink

open Lftp.Verified
open Lftp.Ports.TorrentPieces (blockSize)
open Lftp.Ports.TorrentPeers (Request maxQueueLen)

/-! ## The ends -/

inductive Msg where
  | choke | unchoke | interested | uninterested
  | request (r : Request)
  | cancel (r : Request)
  | piece (r : Request)
  | rejectRequest (r : Request)

/-- One end, with what it has sent. `ignored` is no member of the source: the requests that it has
taken and will never answer. Without the fast extension a `choke` answers all of them. -/
structure End where
  amChoking : Bool
  amInterested : Bool
  peerChoking : Bool
  peerInterested : Bool
  sentQueue : List Request
  recvQueue : List Request
  wire : List Msg
  ignored : List Request

/-- What both ends know of the torrent. -/
structure Pieces where
  totalPieces : Nat
  pieceLength : Nat → Nat

/-- The request is for the block that begins there. -/
def isFor (p start : Nat) (r : Request) : Bool := r.index == p && r.start == start

/-- `FindRequest` -/
def findRequest (p start : Nat) (q : List Request) : Option Nat := q.findIdx? (isFor p start)

/-- `ClearSentQueue(int)` -/
def clearSentQueue (fast : Bool) (i : Nat) (q : List Request) : List Request :=
  if fast then q.eraseIdx i else q.drop (i + 1)

namespace End

/-- A `TorrentPeer` when the connection begins. -/
def new : End := ⟨true, false, true, false, [], [], [], []⟩

def say (e : End) (ms : List Msg) : End := { e with wire := e.wire ++ ms }

/-- `SetAmChoking` -/
def setAmChoking (fast c : Bool) (e : End) : End :=
  if e.amChoking = c then e
  else if c then
    { e with amChoking := true, recvQueue := [] }.say
      (.choke :: if fast then e.recvQueue.map .rejectRequest else [])
  else { e with amChoking := false }.say [.unchoke]

/-- `SetAmInterested` -/
def setAmInterested (interest : Bool) (e : End) : End :=
  if e.amInterested = interest then e
  else { e with amInterested := interest }.say [if interest then .interested else .uninterested]

/-- A request that `SendDataRequests` sends. -/
def sendRequest (r : Request) (e : End) : End :=
  if e.amInterested && !e.peerChoking && decide (e.sentQueue.length < maxQueueLen) then
    { e with sentQueue := e.sentQueue ++ [r] }.say [.request r]
  else e

/-- `CancelBlock` -/
def cancelBlock (p start : Nat) (e : End) : End :=
  match findRequest p start e.sentQueue with
  | none => e
  | some i =>
    match e.sentQueue[i]? with
    | none => e
    | some r => { e with sentQueue := e.sentQueue.eraseIdx i }.say [.cancel ⟨p, start, r.reqLength⟩]

/-- `SendDataReply`, where the block may not be read and then is not sent. -/
def sendDataReply (read : Bool) (e : End) : End :=
  match e.recvQueue with
  | [] => e
  | r :: rest =>
    if read then { e with recvQueue := rest }.say [.piece r]
    else { e with recvQueue := rest, ignored := e.ignored ++ [r] }

/-- `HandlePacket`; there is no value where the end disconnects. -/
def handlePacket (fast : Bool) (pieces : Pieces) (e : End) : Msg → Option End
  | .choke =>
    some { e with
      peerChoking := true
      sentQueue := clearSentQueue fast (e.sentQueue.length - 1) e.sentQueue }
  | .unchoke => some { e with peerChoking := false }
  | .interested => some { e with peerInterested := true }
  | .uninterested =>
    some { e with recvQueue := [], peerInterested := false, ignored := e.ignored ++ e.recvQueue }
  | .request r =>
    if blockSize * 2 < r.reqLength then none
    else if e.amChoking then
      some { e with ignored := if fast then e.ignored ++ [r] else e.ignored }
    else if pieces.totalPieces ≤ r.index ∨ pieces.pieceLength r.index ≤ r.start
        ∨ pieces.pieceLength r.index < (r.start + r.reqLength) % 2 ^ 32 then none
    else if maxQueueLen * 16 ≤ e.recvQueue.length then none
    else some { e with recvQueue := e.recvQueue ++ [r] }
  | .cancel r => some { e with recvQueue := e.recvQueue.eraseP (isFor r.index r.start) }
  | .piece r =>
    if pieces.totalPieces ≤ r.index ∨ pieces.pieceLength r.index ≤ r.start
        ∨ pieces.pieceLength r.index < r.start + r.reqLength then none
    else
      match findRequest r.index r.start e.sentQueue with
      | none => some e
      | some i => some { e with sentQueue := clearSentQueue fast i e.sentQueue }
  | .rejectRequest r =>
    if !fast then none
    else
      match findRequest r.index r.start e.sentQueue with
      | none => some e
      | some i => some { e with sentQueue := clearSentQueue fast i e.sentQueue }

end End

/-! ## Runs -/

/-- What an end may do. -/
inductive Action where
  | choke (c : Bool)
  | interest (interest : Bool)
  | request (r : Request)
  | cancel (p start : Nat)
  | reply (read : Bool)
  /-- The first message on the wire of the other end is taken. -/
  | take

structure Link where
  a : End
  b : End

def Link.new : Link := ⟨.new, .new⟩

section

variable (fast : Bool) (pieces : Pieces)

/-- A step of the end `e`, where `other` is the other one. -/
def stepEnd (e other : End) : Action → Option (End × End)
  | .choke c => some (e.setAmChoking fast c, other)
  | .interest interest => some (e.setAmInterested interest, other)
  | .request r => some (e.sendRequest r, other)
  | .cancel p start => some (e.cancelBlock p start, other)
  | .reply read => some (e.sendDataReply read, other)
  | .take =>
    match other.wire with
    | [] => some (e, other)
    | m :: rest => (e.handlePacket fast pieces m).map fun e => (e, { other with wire := rest })

/-- A step of the first end, or of the second. -/
def Link.step (l : Link) : Bool × Action → Option Link
  | (true, action) => (stepEnd fast pieces l.a l.b action).map fun (a, b) => ⟨a, b⟩
  | (false, action) => (stepEnd fast pieces l.b l.a action).map fun (b, a) => ⟨a, b⟩

/-- The states of a connection. -/
abbrev Reached (l : Link) : Prop :=
  Reach (· = .new) (fun l o l' => Link.step fast pieces l o = some l') l

end

/-! ## What is on the wire -/

/-- What a message tells of choking. -/
def hearChoke (choking : Bool) : Msg → Bool
  | .choke => true
  | .unchoke => false
  | _ => choking

/-- What a message tells of interest. -/
def hearInterest (interested : Bool) : Msg → Bool
  | .interested => true
  | .uninterested => false
  | _ => interested

/-- No block comes after a `choke` and before the next `unchoke`. -/
def blocksUnchoked : Bool → List Msg → Prop
  | _, [] => True
  | choking, m :: wire =>
    (match m with
      | .piece _ => choking = false
      | _ => True) ∧ blocksUnchoked (hearChoke choking m) wire

/-- The number of requests for a block. -/
def asked (p start : Nat) (q : List Request) : Nat := q.countP (isFor p start)

/-- How many of them a queue has after a message. -/
def queueAfter (p start n : Nat) : Msg → Nat
  | .request r => if isFor p start r then n + 1 else n
  | .cancel r => if isFor p start r then n - 1 else n
  | _ => n

def isAnswer (p start : Nat) : Msg → Bool
  | .piece r => isFor p start r
  | .rejectRequest r => isFor p start r
  | _ => false

/-! ## The queue of a block -/

variable {p start : Nat}

theorem queueAfter_le {n k j : Nat} (h : n ≤ k + j) (m : Msg) :
    queueAfter p start n m ≤ queueAfter p start k m + j := by
  cases m with
  | request r => by_cases hr : isFor p start r <;> simp [queueAfter, hr] <;> omega
  | cancel r => by_cases hr : isFor p start r <;> simp [queueAfter, hr] <;> omega
  | _ => exact h

/-- A queue that begins with more requests for a block ends with at most that many more. -/
theorem foldl_queueAfter_le {n k j : Nat} (h : n ≤ k + j) (wire : List Msg) :
    wire.foldl (queueAfter p start) n ≤ wire.foldl (queueAfter p start) k + j := by
  induction wire generalizing n k with
  | nil => exact h
  | cons m wire ih => exact ih (queueAfter_le h m)

theorem asked_append (q q' : List Request) :
    asked p start (q ++ q') = asked p start q + asked p start q' :=
  List.countP_append

theorem asked_singleton (r : Request) :
    asked p start [r] = if isFor p start r then 1 else 0 := by
  by_cases hr : isFor p start r <;> simp [asked, hr]

theorem isFor_congr {r r' : Request} (h : isFor p start r) :
    isFor r.index r.start r' = isFor p start r' := by
  simp only [isFor, Bool.and_eq_true, beq_iff_eq] at h
  obtain ⟨rfl, rfl⟩ := h
  rfl

theorem findRequest_none {q : List Request} (h : findRequest p start q = none) :
    asked p start q = 0 := by
  rw [findRequest, List.findIdx?_eq_none_iff] at h
  exact List.countP_eq_zero.mpr fun r hr => by simp [h r hr]

/-- A request that is found is one less once it is taken out. -/
theorem asked_eraseIdx {q : List Request} {i : Nat} (h : findRequest p start q = some i) :
    asked p start (q.eraseIdx i) + 1 = asked p start q := by
  induction q generalizing i with
  | nil => simp [findRequest] at h
  | cons r q ih =>
      by_cases hr : isFor p start r
      · have hZero : i = 0 := by simpa [findRequest, List.findIdx?_cons, hr] using h.symm
        subst hZero
        simp [asked, hr]
      · obtain ⟨j, hj, rfl⟩ : ∃ j, findRequest p start q = some j ∧ j + 1 = i := by
          simpa [findRequest, List.findIdx?_cons, hr] using h
        have hRest := ih hj
        simpa [asked, hr] using hRest

theorem asked_eraseIdx_le (q : List Request) (i : Nat) :
    asked p start (q.eraseIdx i) ≤ asked p start q :=
  (q.eraseIdx_sublist i).countP_le

theorem asked_drop_le_eraseIdx (q : List Request) (i : Nat) :
    asked p start (q.drop (i + 1)) ≤ asked p start (q.eraseIdx i) := by
  rw [List.eraseIdx_eq_take_drop_succ, asked_append]
  exact Nat.le_add_left _ _

theorem asked_clearSentQueue_le (fast : Bool) (i : Nat) (q : List Request) :
    asked p start (clearSentQueue fast i q) ≤ asked p start (q.eraseIdx i) := by
  cases fast with
  | true => exact Nat.le_refl _
  | false => exact asked_drop_le_eraseIdx q i

theorem length_clearSentQueue_le (fast : Bool) (i : Nat) (q : List Request) :
    (clearSentQueue fast i q).length ≤ q.length := by
  cases fast with
  | true => exact (q.eraseIdx_sublist i).length_le
  | false => exact (q.drop_sublist (i + 1)).length_le

/-- A request that is cancelled is one less. -/
theorem asked_eraseP (r : Request) (q : List Request) :
    asked p start (q.eraseP (isFor r.index r.start)) =
      queueAfter p start (asked p start q) (.cancel r) := by
  by_cases hr : isFor p start r
  · have hSame : isFor r.index r.start = isFor p start := funext fun r' => isFor_congr hr
    rw [hSame]
    simp only [queueAfter, hr, if_true]
    induction q with
    | nil => rfl
    | cons r' q ih =>
        by_cases hr' : isFor p start r'
        · simp [asked, hr']
        · simpa [asked, hr'] using ih
  · simp only [queueAfter, hr, if_false, Bool.false_eq_true]
    induction q with
    | nil => rfl
    | cons r' q ih =>
        by_cases hSame : isFor r.index r.start r'
        · have hOther : isFor p start r' = false := by
            obtain ⟨hIndex, hStart⟩ : r'.index = r.index ∧ r'.start = r.start := by
              simpa [isFor] using hSame
            unfold isFor at hr ⊢
            rw [hIndex, hStart]
            exact Bool.eq_false_of_not_eq_true hr
          simp [asked, hSame, hOther]
        · rw [List.eraseP_cons_of_neg (by simpa using hSame)]
          unfold asked at ih ⊢
          rw [List.countP_cons, List.countP_cons, ih]

/-! ## What a packet does -/

/-- What `e` is after a message. -/
structure Took (fast : Bool) (e : End) (m : Msg) (e' : End) : Prop where
  said : e'.wire = e.wire
  amChoking : e'.amChoking = e.amChoking
  amInterested : e'.amInterested = e.amInterested
  choking : e'.peerChoking = hearChoke e.peerChoking m
  interested : e'.peerInterested = hearInterest e.peerInterested m
  shorter : e'.sentQueue.length ≤ e.sentQueue.length
  answered : ∀ p start, asked p start e'.sentQueue ≤
    asked p start e.sentQueue - if isAnswer p start m then 1 else 0
  cleared : fast = false → m = .choke → e'.sentQueue = []
  idle : e.amChoking = true → e.recvQueue = [] → e'.recvQueue = []
  queued : ∀ p start, fast = true ∨ e.amChoking = false → ∃ k,
    asked p start e'.ignored = asked p start e.ignored + k ∧
      queueAfter p start (asked p start e.recvQueue) m ≤ asked p start e'.recvQueue + k

theorem Took.of_answer {fast : Bool} {e e' : End} {m : Msg} {r : Request}
    (hm : m = .piece r ∨ m = .rejectRequest r)
    (h : (match findRequest r.index r.start e.sentQueue with
      | none => some e
      | some i => some { e with sentQueue := clearSentQueue fast i e.sentQueue }) = some e') :
    Took fast e m e' := by
  have hNeutral : (∀ c, hearChoke c m = c) ∧ (∀ c, hearInterest c m = c) ∧
      (∀ p start n, queueAfter p start n m = n) ∧
      ∀ p start, isAnswer p start m = isFor p start r := by
    rcases hm with rfl | rfl
    all_goals exact ⟨fun _ => rfl, fun _ => rfl, fun _ _ _ => rfl, fun _ _ => rfl⟩
  obtain ⟨hChoke, hInterest, hQueue, hAnswer⟩ := hNeutral
  have hOther : m ≠ .choke := by rcases hm with rfl | rfl <;> nofun
  cases hFind : findRequest r.index r.start e.sentQueue with
  | none =>
      rw [hFind] at h
      obtain rfl := Option.some.inj h
      refine ⟨rfl, rfl, rfl, (hChoke _).symm, (hInterest _).symm, Nat.le_refl _, ?_,
        fun _ h => absurd h hOther, fun _ h => h, fun p start _ => ⟨0, rfl, ?_⟩⟩
      · intro p start
        rw [hAnswer]
        by_cases hr : isFor p start r
        · have hSame : isFor r.index r.start = isFor p start := funext fun _ => isFor_congr hr
          have hNone : asked p start e.sentQueue = 0 := by
            have h := findRequest_none hFind
            rwa [asked, hSame] at h
          rw [hNone]
          exact Nat.zero_le _
        · simp [hr]
      · rw [hQueue]
        exact Nat.le_refl _
  | some i =>
      rw [hFind] at h
      obtain rfl := Option.some.inj h
      refine ⟨rfl, rfl, rfl, (hChoke _).symm, (hInterest _).symm,
        length_clearSentQueue_le _ _ _, ?_, fun _ h => absurd h hOther, fun _ h => h, fun p start _ => ⟨0, rfl, ?_⟩⟩
      · intro p start
        rw [hAnswer]
        apply (asked_clearSentQueue_le fast i e.sentQueue).trans
        by_cases hr : isFor p start r
        · have hSame : isFor r.index r.start = isFor p start := funext fun _ => isFor_congr hr
          have hFind' : findRequest p start e.sentQueue = some i := by
            rwa [findRequest, hSame] at hFind
          have hLess := asked_eraseIdx hFind'
          rw [if_pos hr]
          omega
        · simpa [hr] using asked_eraseIdx_le e.sentQueue i
      · rw [hQueue]
        exact Nat.le_refl _

theorem clearSentQueue_last (q : List Request) : clearSentQueue false (q.length - 1) q = [] := by
  show q.drop (q.length - 1 + 1) = []
  rw [List.drop_eq_nil_iff]
  omega

/-- One that only changes what an end knows of the other. -/
theorem Took.of_word {fast : Bool} {e e' : End} {m : Msg} (hSaid : e'.wire = e.wire)
    (hChoke : e'.amChoking = e.amChoking) (hInterest : e'.amInterested = e.amInterested)
    (hChoking : e'.peerChoking = hearChoke e.peerChoking m)
    (hInterested : e'.peerInterested = hearInterest e.peerInterested m)
    (hSent : e'.sentQueue = e.sentQueue) (hm : m ≠ .choke ∧ ∀ p start, isAnswer p start m = false)
    (hIdle : e.amChoking = true → e.recvQueue = [] → e'.recvQueue = [])
    (hQueued : ∀ p start, fast = true ∨ e.amChoking = false →
      ∃ k, asked p start e'.ignored = asked p start e.ignored + k ∧
        queueAfter p start (asked p start e.recvQueue) m ≤ asked p start e'.recvQueue + k) :
    Took fast e m e' where
  said := hSaid
  amChoking := hChoke
  amInterested := hInterest
  choking := hChoking
  interested := hInterested
  shorter := hSent ▸ Nat.le_refl _
  answered p start := by simp [hSent, hm.2]
  cleared _ h := absurd h hm.1
  idle := hIdle
  queued := hQueued

theorem handlePacket_took {fast : Bool} {pieces : Pieces} {e e' : End} {m : Msg}
    (h : e.handlePacket fast pieces m = some e') : Took fast e m e' := by
  cases m with
  | choke =>
      obtain rfl := Option.some.inj h
      refine ⟨rfl, rfl, rfl, rfl, rfl, length_clearSentQueue_le _ _ _,
        fun _ _ => (asked_clearSentQueue_le _ _ _).trans (asked_eraseIdx_le _ _), ?_, fun _ h => h,
        fun _ _ _ => ⟨0, rfl, Nat.le_refl _⟩⟩
      rintro rfl -
      exact clearSentQueue_last e.sentQueue
  | unchoke =>
      obtain rfl := Option.some.inj h
      exact .of_word rfl rfl rfl rfl rfl rfl ⟨nofun, fun _ _ => rfl⟩ (fun _ h => h)
        fun _ _ _ => ⟨0, rfl, Nat.le_refl _⟩
  | interested =>
      obtain rfl := Option.some.inj h
      exact .of_word rfl rfl rfl rfl rfl rfl ⟨nofun, fun _ _ => rfl⟩ (fun _ h => h)
        fun _ _ _ => ⟨0, rfl, Nat.le_refl _⟩
  | uninterested =>
      obtain rfl := Option.some.inj h
      exact .of_word rfl rfl rfl rfl rfl rfl ⟨nofun, fun _ _ => rfl⟩ (fun _ _ => rfl)
        fun _ _ _ => ⟨_, asked_append _ _, by simp [queueAfter]⟩
  | request r =>
      simp only [End.handlePacket] at h
      by_cases hLong : blockSize * 2 < r.reqLength
      · simp [hLong] at h
      · rw [if_neg hLong] at h
        cases hChoking : e.amChoking with
        | true =>
            rw [if_pos hChoking] at h
            obtain rfl := Option.some.inj h
            refine .of_word rfl rfl rfl rfl rfl rfl ⟨nofun, fun _ _ => rfl⟩ (fun _ h => h) ?_
            rintro p start (rfl | hNot)
            · refine ⟨_, asked_append _ _, ?_⟩
              simp only [queueAfter, asked_singleton]
              split <;> omega
            · rw [hChoking] at hNot
              cases hNot
        | false =>
            rw [if_neg (by simp [hChoking])] at h
            split at h
            · cases h
            · split at h
              · cases h
              · obtain rfl := Option.some.inj h
                refine .of_word rfl rfl rfl rfl rfl rfl ⟨nofun, fun _ _ => rfl⟩ ?_ ?_
                · intro h
                  rw [hChoking] at h
                  cases h
                · intro p start _
                  refine ⟨0, rfl, ?_⟩
                  simp only [queueAfter, asked_append, asked_singleton]
                  split <;> omega
  | cancel r =>
      obtain rfl := Option.some.inj h
      refine .of_word rfl rfl rfl rfl rfl rfl ⟨nofun, fun _ _ => rfl⟩ ?_ ?_
      · intro _ hNone
        simp [hNone]
      · intro p start _
        exact ⟨0, rfl, by rw [← asked_eraseP]; exact Nat.le_refl _⟩
  | piece r =>
      simp only [End.handlePacket] at h
      split at h
      · cases h
      · exact .of_answer (.inl rfl) h
  | rejectRequest r =>
      simp only [End.handlePacket] at h
      split at h
      · cases h
      · exact .of_answer (.inr rfl) h

/-! ## The invariant -/

/-- What `other` knows of `me`, and where what it has asked for is. -/
structure View (fast : Bool) (me other : End) : Prop where
  choking : me.wire.foldl hearChoke other.peerChoking = me.amChoking
  interested : me.wire.foldl hearInterest other.peerInterested = me.amInterested
  idle : me.amChoking = true → me.recvQueue = []
  blocks : blocksUnchoked other.peerChoking me.wire
  cleared : fast = false → other.peerChoking = true → other.sentQueue = []
  accounted : ∀ p start, (fast = false ∧ .choke ∈ me.wire) ∨ asked p start other.sentQueue ≤
    other.wire.foldl (queueAfter p start) (asked p start me.recvQueue) +
      me.wire.countP (isAnswer p start) + asked p start me.ignored
  full : other.sentQueue.length ≤ maxQueueLen

theorem View.new (fast : Bool) : View fast .new .new where
  choking := rfl
  interested := rfl
  idle _ := rfl
  blocks := trivial
  cleared _ _ := rfl
  accounted _ _ := .inr (Nat.le_refl _)
  full := Nat.zero_le _

theorem blocksUnchoked_append {choking : Bool} {wire ms : List Msg} :
    blocksUnchoked choking (wire ++ ms) ↔
      blocksUnchoked choking wire ∧ blocksUnchoked (wire.foldl hearChoke choking) ms := by
  induction wire generalizing choking with
  | nil => simp [blocksUnchoked]
  | cons m wire ih =>
      simp only [List.cons_append, blocksUnchoked, List.foldl_cons, ih, and_assoc]

/-- Without a `choke` on the way, an end that will be known to be choking is known to be. -/
theorem choking_of_hear {choking : Bool} {wire : List Msg} (hNo : .choke ∉ wire)
    (h : wire.foldl hearChoke choking = true) : choking = true := by
  induction wire generalizing choking with
  | nil => exact h
  | cons m wire ih =>
      obtain ⟨hm, hRest⟩ := not_or.mp (mt List.mem_cons.mpr hNo)
      have hAfter := ih hRest h
      cases m with
      | choke => exact absurd rfl hm
      | unchoke => cases hAfter
      | _ => exact hAfter

section

variable {me other me' other' : End} {fast : Bool}

/-- The other end says what is about its own choking and interest. -/
theorem View.hear (h : View fast me other) (hChoking : other'.peerChoking = other.peerChoking)
    (hInterested : other'.peerInterested = other.peerInterested)
    (hSent : other'.sentQueue = other.sentQueue)
    (hWire : ∀ p start n,
      other'.wire.foldl (queueAfter p start) n = other.wire.foldl (queueAfter p start) n) :
    View fast me other' where
  choking := hChoking ▸ h.choking
  interested := hInterested ▸ h.interested
  idle := h.idle
  blocks := hChoking ▸ h.blocks
  cleared := by
    rw [hChoking, hSent]
    exact h.cleared
  accounted p start := by
    rw [hSent, hWire]
    exact h.accounted p start
  full := hSent ▸ h.full

/-- `other` takes a message of `me`. -/
theorem View.told {m : Msg} {rest : List Msg} (h : View fast me other) (hw : me.wire = m :: rest)
    (ht : Took fast other m other') : View fast { me with wire := rest } other' where
  choking := by
    have hMe := h.choking
    rw [hw] at hMe
    rw [ht.choking]
    exact hMe
  interested := by
    have hMe := h.interested
    rw [hw] at hMe
    rw [ht.interested]
    exact hMe
  idle := h.idle
  blocks := by
    have hMe := h.blocks
    rw [hw] at hMe
    rw [ht.choking]
    exact hMe.2
  cleared hFast hChoking := by
    rw [ht.choking] at hChoking
    have hStill (hSame : other.peerChoking = true) : other'.sentQueue = [] := by
      have hShorter := ht.shorter
      rw [h.cleared hFast hSame] at hShorter
      exact List.length_eq_zero_iff.mp (Nat.le_zero.mp hShorter)
    cases m with
    | choke => exact ht.cleared hFast rfl
    | unchoke => cases hChoking
    | _ => exact hStill hChoking
  accounted p start := by
    rcases h.accounted p start with ⟨hFast, hMem⟩ | hMe
    · rw [hw] at hMem
      rcases List.mem_cons.mp hMem with hNow | hLater
      · right
        rw [ht.cleared hFast hNow.symm]
        exact Nat.zero_le _
      · exact .inl ⟨hFast, hLater⟩
    · right
      have hLess := ht.answered p start
      rw [hw, List.countP_cons] at hMe
      rw [ht.said]
      dsimp only
      by_cases hm : isAnswer p start m <;> simp only [hm, if_true, Bool.false_eq_true, if_false]
        at hMe hLess <;> omega
  full := ht.shorter.trans h.full

/-- `me` takes a message of `other`. -/
theorem View.took {m : Msg} {rest : List Msg} (h : View fast me other) (hw : other.wire = m :: rest)
    (ht : Took fast me m me') : View fast me' { other with wire := rest } where
  choking := by
    rw [ht.said, ht.amChoking]
    exact h.choking
  interested := by
    rw [ht.said, ht.amInterested]
    exact h.interested
  idle hc := by
    rw [ht.amChoking] at hc
    exact ht.idle hc (h.idle hc)
  blocks := by
    rw [ht.said]
    exact h.blocks
  cleared := h.cleared
  accounted p start := by
    rw [ht.said]
    rcases h.accounted p start with hChoke | hOther
    · exact .inl hChoke
    · by_cases hc : fast = false ∧ .choke ∈ me.wire
      · exact .inl hc
      · right
        rw [hw, List.foldl_cons] at hOther
        by_cases hHeard : fast = true ∨ me.amChoking = false
        · obtain ⟨k, hIgnored, hQueue⟩ := ht.queued p start hHeard
          have hRest : rest.foldl (queueAfter p start) _ ≤ _ := foldl_queueAfter_le hQueue rest
          dsimp only
          omega
        · -- The request was sent before a `choke` that has since cleared the queue.
          have hFast : fast = false := Bool.eq_false_of_not_eq_true fun h => hHeard (.inl h)
          have hAm : me.amChoking = true := by
            cases hAm : me.amChoking with
            | true => rfl
            | false => exact absurd (.inr hAm) hHeard
          have hPeer : other.peerChoking = true :=
            choking_of_hear (fun hMem => hc ⟨hFast, hMem⟩) (h.choking.trans hAm)
          dsimp only
          rw [h.cleared hFast hPeer]
          exact Nat.zero_le _
  full := h.full

/-! ### Choking, interest, requests and blocks -/

theorem hear_rejects (choking : Bool) (q : List Request) :
    (q.map Msg.rejectRequest).foldl hearChoke choking = choking := by
  induction q with
  | nil => rfl
  | cons r q ih => exact ih

theorem hearInterest_rejects (b : Bool) (q : List Request) :
    (q.map Msg.rejectRequest).foldl hearInterest b = b := by
  induction q with
  | nil => rfl
  | cons r q ih => exact ih

theorem queueAfter_rejects (n : Nat) (q : List Request) :
    (q.map Msg.rejectRequest).foldl (queueAfter p start) n = n := by
  induction q with
  | nil => rfl
  | cons r q ih => exact ih

theorem blocksUnchoked_rejects (choking : Bool) (q : List Request) :
    blocksUnchoked choking (q.map Msg.rejectRequest) := by
  induction q with
  | nil => trivial
  | cons r q ih => exact ⟨trivial, ih⟩

theorem countP_rejects (q : List Request) :
    (q.map Msg.rejectRequest).countP (isAnswer p start) = asked p start q := by
  rw [List.countP_map]
  rfl

/-- `me` says something that answers nothing. -/
theorem View.say {ms : List Msg} (h : View fast me other) (hWire : me'.wire = me.wire ++ ms)
    (hChoking : ms.foldl hearChoke me.amChoking = me'.amChoking)
    (hInterested : ms.foldl hearInterest me.amInterested = me'.amInterested)
    (hIdle : me'.amChoking = true → me'.recvQueue = [])
    (hBlocks : blocksUnchoked me.amChoking ms)
    (hQueue : ∀ p start, (fast = false ∧ .choke ∈ ms) ∨ ∃ k, asked p start me.recvQueue ≤
      asked p start me'.recvQueue + k ∧ asked p start me.ignored + k ≤
        ms.countP (isAnswer p start) + asked p start me'.ignored) :
    View fast me' other where
  choking := by rw [hWire, List.foldl_append, h.choking, hChoking]
  interested := by rw [hWire, List.foldl_append, h.interested, hInterested]
  idle := hIdle
  blocks := by
    rw [hWire, blocksUnchoked_append, h.choking]
    exact ⟨h.blocks, hBlocks⟩
  cleared := h.cleared
  accounted p start := by
    rw [hWire, List.countP_append]
    rcases h.accounted p start with ⟨hFast, hMem⟩ | hBefore
    · exact .inl ⟨hFast, List.mem_append_left _ hMem⟩
    · rcases hQueue p start with ⟨hFast, hMem⟩ | ⟨k, hRecv, hAnswered⟩
      · exact .inl ⟨hFast, List.mem_append_right _ hMem⟩
      · right
        have hRest : other.wire.foldl (queueAfter p start) _ ≤ _ := foldl_queueAfter_le hRecv _
        omega
  full := h.full

theorem View.setAmChoking (h : View fast me other) (c : Bool) :
    View fast (me.setAmChoking fast c) other := by
  unfold End.setAmChoking
  by_cases hSame : me.amChoking = c
  · rwa [if_pos hSame]
  · rw [if_neg hSame]
    cases c with
    | false =>
        exact h.say rfl rfl rfl nofun ⟨trivial, trivial⟩
          fun _ _ => .inr ⟨0, Nat.le_refl _, by simp [End.say]⟩
    | true =>
        cases fast with
        | false =>
            exact h.say rfl rfl rfl (fun _ => rfl) ⟨trivial, trivial⟩
              fun _ _ => .inl ⟨rfl, List.mem_cons_self⟩
        | true =>
            refine h.say rfl ?_ ?_ (fun _ => rfl) ⟨trivial, blocksUnchoked_rejects _ _⟩ ?_
            · exact hear_rejects true me.recvQueue
            · exact hearInterest_rejects me.amInterested me.recvQueue
            · intro p start
              refine .inr ⟨asked p start me.recvQueue, Nat.le_add_left _ _, ?_⟩
              rw [if_pos rfl, List.countP_cons_of_neg (by simp [isAnswer]), countP_rejects]
              exact Nat.le_of_eq (Nat.add_comm _ _)

theorem View.heardChoking (h : View fast other me) (c : Bool) :
    View fast other (me.setAmChoking fast c) := by
  unfold End.setAmChoking
  split
  · exact h
  · split
    · refine h.hear rfl rfl rfl fun p start n => ?_
      show (me.wire ++ _ :: _).foldl _ n = _
      rw [List.foldl_append, List.foldl_cons]
      split
      · exact queueAfter_rejects _ _
      · rfl
    · exact h.hear rfl rfl rfl fun p start n => List.foldl_append

theorem View.setAmInterested (h : View fast me other) (interest : Bool) :
    View fast (me.setAmInterested interest) other := by
  unfold End.setAmInterested
  split
  · exact h
  · refine h.say rfl ?_ ?_ h.idle ?_ fun _ _ => .inr ⟨0, Nat.le_refl _, ?_⟩
    all_goals cases interest
    all_goals first | rfl | exact ⟨trivial, trivial⟩ | simp [End.say, isAnswer]

theorem View.heardInterested (h : View fast other me) (interest : Bool) :
    View fast other (me.setAmInterested interest) := by
  unfold End.setAmInterested
  split
  · exact h
  · refine h.hear rfl rfl rfl fun p start n => ?_
    show (me.wire ++ [_]).foldl _ n = _
    rw [List.foldl_append]
    cases interest <;> rfl

theorem View.sendDataReply (h : View fast me other) (read : Bool) :
    View fast (me.sendDataReply read) other := by
  unfold End.sendDataReply
  cases hQueue : me.recvQueue with
  | nil => exact h
  | cons r rest =>
      have hAm : me.amChoking = false := by
        cases hAm : me.amChoking with
        | false => rfl
        | true => simpa [hQueue] using h.idle hAm
      have hLess (p start : Nat) :
          asked p start (r :: rest) ≤ asked p start rest + asked p start [r] := by
        rw [Nat.add_comm, ← asked_append]
        exact Nat.le_refl _
      have hIdle {e : End} (hSame : e.amChoking = me.amChoking) :
          e.amChoking = true → e.recvQueue = [] := by
        rw [hSame, hAm]
        exact nofun
      dsimp only
      split
      · refine h.say rfl rfl rfl (hIdle rfl) ⟨hAm, trivial⟩
          fun p start => .inr ⟨asked p start [r], ?_, ?_⟩
        · rw [hQueue]
          exact hLess p start
        · exact Nat.le_of_eq (Nat.add_comm _ _)
      · refine h.say (List.append_nil _).symm rfl rfl (hIdle rfl) trivial
          fun p start => .inr ⟨asked p start [r], ?_, ?_⟩
        · rw [hQueue]
          exact hLess p start
        · rw [asked_append]
          exact Nat.le_add_left _ _

theorem View.heardReply (h : View fast other me) (read : Bool) :
    View fast other (me.sendDataReply read) := by
  unfold End.sendDataReply
  split
  · exact h
  · split
    · refine h.hear rfl rfl rfl fun p start n => ?_
      exact List.foldl_append
    · exact h.hear rfl rfl rfl fun _ _ _ => rfl

/-- What `me` says of its own requests tells nothing else. -/
theorem View.ask {m : Msg} (h : View fast me other) (hWire : me'.wire = me.wire ++ [m])
    (hm : (∃ r, m = .request r) ∨ ∃ r, m = .cancel r) (hChoking : me'.amChoking = me.amChoking)
    (hInterested : me'.amInterested = me.amInterested) (hRecv : me'.recvQueue = me.recvQueue)
    (hIgnored : me'.ignored = me.ignored) : View fast me' other := by
  refine h.say hWire ?_ ?_ ?_ ?_ ?_
  · rcases hm with ⟨r, rfl⟩ | ⟨r, rfl⟩ <;> exact hChoking.symm
  · rcases hm with ⟨r, rfl⟩ | ⟨r, rfl⟩ <;> exact hInterested.symm
  · rw [hChoking, hRecv]
    exact h.idle
  · rcases hm with ⟨r, rfl⟩ | ⟨r, rfl⟩ <;> exact ⟨trivial, trivial⟩
  · intro p start
    rw [hRecv, hIgnored]
    exact .inr ⟨0, Nat.le_refl _, Nat.le_add_left _ _⟩

theorem View.heardRequest (h : View fast other me) (r : Request) :
    View fast other (me.sendRequest r) := by
  unfold End.sendRequest
  split
  · rename_i hMay
    simp only [Bool.and_eq_true, Bool.not_eq_true', decide_eq_true_eq] at hMay
    obtain ⟨⟨-, hPeer⟩, hRoom⟩ := hMay
    refine ⟨h.choking, h.interested, h.idle, h.blocks, ?_, ?_, ?_⟩
    · intro _ hChoking
      rw [End.say, hPeer] at hChoking
      cases hChoking
    · intro p start
      refine (h.accounted p start).imp_right fun hBefore => ?_
      simp only [End.say, asked_append, asked_singleton, List.foldl_append, List.foldl_cons,
        List.foldl_nil, queueAfter]
      split <;> omega
    · simpa [End.say] using hRoom
  · exact h

theorem View.heardCancel (h : View fast other me) (p start : Nat) :
    View fast other (me.cancelBlock p start) := by
  unfold End.cancelBlock
  cases hFind : findRequest p start me.sentQueue with
  | none => exact h
  | some i =>
      dsimp only
      cases hAt : me.sentQueue[i]? with
      | none => exact h
      | some r =>
          refine ⟨h.choking, h.interested, h.idle, h.blocks, ?_, ?_, ?_⟩
          · intro hFast hChoking
            simp [End.say, h.cleared hFast hChoking]
          · intro p' start'
            refine (h.accounted p' start').imp_right fun hBefore => ?_
            simp only [End.say, List.foldl_append, List.foldl_cons, List.foldl_nil, queueAfter]
            by_cases hr : isFor p' start' ⟨p, start, r.reqLength⟩
            · have hLess : asked p' start' (me.sentQueue.eraseIdx i) + 1 =
                  asked p' start' me.sentQueue := by
                obtain ⟨rfl, rfl⟩ : p = p' ∧ start = start' := by simpa [isFor] using hr
                exact asked_eraseIdx hFind
              rw [if_pos hr]
              omega
            · rw [if_neg hr]
              exact (asked_eraseIdx_le _ _).trans hBefore
          · exact (me.sentQueue.eraseIdx_sublist i).length_le.trans h.full

end

/-! ## Runs of the link -/

section

variable {fast : Bool} {pieces : Pieces}

theorem view_stepEnd {e other e' other' : End} {action : Action}
    (h : stepEnd fast pieces e other action = some (e', other'))
    (hMe : View fast e other) (hOther : View fast other e) :
    View fast e' other' ∧ View fast other' e' := by
  cases action with
  | choke c =>
      obtain ⟨rfl, rfl⟩ := Prod.mk.inj (Option.some.inj h)
      exact ⟨hMe.setAmChoking c, hOther.heardChoking c⟩
  | interest interest =>
      obtain ⟨rfl, rfl⟩ := Prod.mk.inj (Option.some.inj h)
      exact ⟨hMe.setAmInterested interest, hOther.heardInterested interest⟩
  | request r =>
      obtain ⟨rfl, rfl⟩ := Prod.mk.inj (Option.some.inj h)
      refine ⟨?_, hOther.heardRequest r⟩
      unfold End.sendRequest
      split
      · exact hMe.ask rfl (.inl ⟨r, rfl⟩) rfl rfl rfl rfl
      · exact hMe
  | cancel p start =>
      obtain ⟨rfl, rfl⟩ := Prod.mk.inj (Option.some.inj h)
      refine ⟨?_, hOther.heardCancel p start⟩
      unfold End.cancelBlock
      split
      · exact hMe
      · split
        · exact hMe
        · exact hMe.ask rfl (.inr ⟨_, rfl⟩) rfl rfl rfl rfl
  | reply read =>
      obtain ⟨rfl, rfl⟩ := Prod.mk.inj (Option.some.inj h)
      exact ⟨hMe.sendDataReply read, hOther.heardReply read⟩
  | take =>
      simp only [stepEnd] at h
      cases hw : other.wire with
      | nil =>
          rw [hw] at h
          obtain ⟨rfl, rfl⟩ := Prod.mk.inj (Option.some.inj h)
          exact ⟨hMe, hOther⟩
      | cons m rest =>
          rw [hw] at h
          obtain ⟨e₁, hTaken, hPair⟩ := Option.map_eq_some_iff.mp h
          obtain ⟨rfl, rfl⟩ := Prod.mk.inj hPair
          have hTook := handlePacket_took hTaken
          exact ⟨hMe.took hw hTook, hOther.told hw hTook⟩

theorem view_step {l l' : Link} {o : Bool × Action} (h : Link.step fast pieces l o = some l')
    (hA : View fast l.a l.b) (hB : View fast l.b l.a) :
    View fast l'.a l'.b ∧ View fast l'.b l'.a := by
  obtain ⟨first, action⟩ := o
  cases first with
  | true =>
      obtain ⟨⟨a, b⟩, hEnd, rfl⟩ := Option.map_eq_some_iff.mp h
      exact view_stepEnd hEnd hA hB
  | false =>
      obtain ⟨⟨b, a⟩, hEnd, rfl⟩ := Option.map_eq_some_iff.mp h
      exact (view_stepEnd hEnd hB hA).symm

theorem view_reached {l : Link} (h : Reached fast pieces l) :
    View fast l.a l.b ∧ View fast l.b l.a := by
  refine h.invariant (I := fun l => View fast l.a l.b ∧ View fast l.b l.a) ?_ ?_
  · rintro l rfl
    exact ⟨.new fast, .new fast⟩
  · intro l o l' hView hStep
    exact view_step hStep hView.1 hView.2

theorem reached_run {l l' : Link} (h : Reached fast pieces l) (os : List (Bool × Action))
    (hRun : os.foldlM (Link.step fast pieces) l = some l') : Reached fast pieces l' := by
  induction os generalizing l with
  | nil => exact Option.some.inj hRun ▸ h
  | cons o os ih =>
      rw [List.foldlM_cons] at hRun
      obtain ⟨l₁, hStep, hRest⟩ := Option.bind_eq_some_iff.mp hRun
      exact ih (.next o h hStep) hRest

/-- The first end has sent the block that the second one has asked for. -/
def served : Link where
  a := ⟨false, false, true, true, [], [], [.piece ⟨0, 0, 16384⟩], []⟩
  b := ⟨true, true, false, false, [⟨0, 0, 16384⟩], [], [], []⟩

theorem reached_served : Reached true ⟨1, fun _ => 32768⟩ served := by
  apply reached_run (.start rfl) [(true, .choke false), (false, .interest true), (false, .take),
    (true, .take), (false, .request ⟨0, 0, 16384⟩), (true, .take), (true, .reply true)]
  rfl

/-- Once the messages on the wires are taken, each end knows whether the other one is choking and is
interested. -/
theorem link_agrees {l : Link} (h : Reached fast pieces l) :
    (l.a.wire.foldl hearChoke l.b.peerChoking = l.a.amChoking ∧
      l.a.wire.foldl hearInterest l.b.peerInterested = l.a.amInterested) ∧
    (l.b.wire.foldl hearChoke l.a.peerChoking = l.b.amChoking ∧
      l.b.wire.foldl hearInterest l.a.peerInterested = l.b.amInterested) := by
  obtain ⟨hA, hB⟩ := view_reached h
  exact ⟨⟨hA.choking, hA.interested⟩, hB.choking, hB.interested⟩

theorem link_agrees_served : served.b.peerChoking = false ∧ served.a.peerInterested = true :=
  ⟨(link_agrees reached_served).1.1, (link_agrees reached_served).2.2⟩

/-- The end that takes a block does not know the other end to be choking. -/
theorem no_block_while_choked {l : Link} (h : Reached fast pieces l) (r : Request)
    (rest : List Msg) :
    (l.a.wire = .piece r :: rest → l.b.peerChoking = false) ∧
    (l.b.wire = .piece r :: rest → l.a.peerChoking = false) := by
  have hFirst {me other : End} (hView : View fast me other) (hw : me.wire = .piece r :: rest) :
      other.peerChoking = false := by
    have hBlocks := hView.blocks
    rw [hw] at hBlocks
    exact hBlocks.1
  obtain ⟨hA, hB⟩ := view_reached h
  exact ⟨hFirst hA, hFirst hB⟩

theorem no_block_while_choked_served : served.b.peerChoking = false :=
  (no_block_while_choked reached_served ⟨0, 0, 16384⟩ []).1 rfl

/-- What `other` has asked `me` for is no more than it may be, and each request that waits is on the
way or in the queue, or its answer is on the way, or it is ignored. -/
def Accounted (fast : Bool) (me other : End) : Prop :=
  other.sentQueue.length ≤ maxQueueLen ∧ ∀ p start,
    (fast = false ∧ .choke ∈ me.wire) ∨ asked p start other.sentQueue ≤
      other.wire.foldl (queueAfter p start) (asked p start me.recvQueue) +
        me.wire.countP (isAnswer p start) + asked p start me.ignored

end

end Lftp.Ports.TorrentLink
