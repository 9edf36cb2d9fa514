import Lftp.Ports.FtpReplies
import Lftp.Verified.Runs

/-!
# The replies that ReceiveResp takes

A run of a session whose server sends the replies of a list, in pieces of any size.
`Framed` is its invariant: some replies are checked, some lines are read, and the
buffer holds what has come of the others.

A line of length zero looks to `ReceiveResp` like no line at all, so it stops there
with the lines after it unread. `Clear` says that this does not happen, and
`receiveResp_frames` is the result over runs.
-/

namespace Lftp.Ports.Ftp

open Lftp.Verified Lftp.Ports.ParseCmd

/-! ## A line in the buffer -/

theorem findLine_of_notMem (late : Bool) (resp : Bytes) (i : Nat) {s : Bytes}
    (h : ch '\n' ∉ s) : Session.findLine late resp i s = none := by
  induction s generalizing i with
  | nil => rfl
  | cons c s ih =>
      have hc : c ≠ ch '\n' := fun hEq => h (hEq ▸ List.mem_cons_self)
      rw [Session.findLine, if_pos hc]
      exact ih (i + 1) fun hMem => h (List.mem_cons_of_mem c hMem)

/-- The first newline is found when a carriage return is before it. -/
theorem findLine_append (late : Bool) {resp s rest : Bytes} {i : Nat} (h : ch '\n' ∉ s)
    (hPos : 0 < i + s.length) (hCr : resp[i + s.length - 1]? = some (ch '\r')) :
    Session.findLine late resp i (s ++ ch '\n' :: rest)
      = some (i + s.length - 1, i + s.length + 1) := by
  induction s generalizing i with
  | nil =>
      rw [List.nil_append, Session.findLine, if_neg (not_not.mpr rfl), if_pos ⟨hPos, hCr⟩]
      rfl
  | cons c s ih =>
      have hc : c ≠ ch '\n' := fun hEq => h (hEq ▸ List.mem_cons_self)
      have hLength : i + (c :: s).length = i + 1 + s.length := by
        rw [List.length_cons]
        omega
      rw [List.cons_append, Session.findLine, if_pos hc, hLength]
      apply ih (fun hMem => h (List.mem_cons_of_mem c hMem)) (by omega)
      rw [← hLength]
      exact hCr

theorem findLine_line (late : Bool) {line : Bytes} (h : ch '\n' ∉ line) (rest : Bytes) :
    Session.findLine late ((line ++ [ch '\r']) ++ ch '\n' :: rest) 0
        ((line ++ [ch '\r']) ++ ch '\n' :: rest)
      = some (line.length, line.length + 2) := by
  have hNone : ch '\n' ∉ line ++ [ch '\r'] := by
    rw [List.mem_append, List.mem_singleton, not_or]
    exact ⟨h, by decide⟩
  have hLength : 0 + (line ++ [ch '\r']).length = line.length + 1 := by
    rw [List.length_append, List.length_singleton]
    omega
  rw [findLine_append late hNone (by omega), hLength]
  · rfl
  · rw [hLength, Nat.add_sub_cancel, List.append_assoc,
      List.getElem?_append_right (Nat.le_refl _), Nat.sub_self]
    rfl

variable {env : Env} {c : Connection} {s t u : Session}

/-- A line that is whole in the buffer is taken. -/
theorem receiveOneLine_line {line rest : Bytes} (h : ch '\n' ∉ line)
    (hBuffer : c.controlRecv = (line ++ [ch '\r']) ++ ch '\n' :: rest) :
    s.receiveOneLine env c = (((Session.cleanLine none line).length : Int), { s with
      conn := some { c with controlRecv := rest }
      line := Session.cleanLine none line }) := by
  have hNe : c.controlRecv ≠ [] := by
    rw [hBuffer]
    simp
  have hFound := findLine_line env.late h rest
  have hTake : c.controlRecv.take line.length = line := by
    rw [hBuffer, List.append_assoc, List.take_left' rfl]
  have hDrop : c.controlRecv.drop (line.length + 2) = rest := by
    have hSplit : c.controlRecv = (line ++ [ch '\r', ch '\n']) ++ rest := by
      rw [hBuffer]
      simp
    rw [hSplit, List.drop_left' (by simp)]
  rw [← hBuffer] at hFound
  unfold Session.receiveOneLine
  rw [if_neg fun hEof => hNe hEof.1, if_neg hNe]
  dsimp only
  rw [hFound]
  dsimp only
  rw [hTake, hDrop]

/-- Without a newline there is no line, and only an empty buffer is at its end. -/
theorem receiveOneLine_none (h : ch '\n' ∉ c.controlRecv)
    (hEof : c.recvEof = true → c.controlRecv = []) :
    s.receiveOneLine env c
      = if c.recvEof then (-1, s.disconnectNow env) else (0, s) := by
  unfold Session.receiveOneLine
  cases hEnd : c.recvEof with
  | true => rw [if_pos ⟨hEof hEnd, rfl⟩, if_pos rfl]
  | false =>
      rw [if_neg (fun hBoth => Bool.false_ne_true hBoth.2), if_neg Bool.false_ne_true]
      split
      · rfl
      · rw [findLine_of_notMem _ _ _ h]
        rfl

/-! ## What moves leave alone -/

/-- What is kept when SSL starts on an empty buffer only. -/
structure Kept (a : Rights) (v w : View) : Prop where
  received : w.received = v.received
  checked : w.checked = v.checked
  disconnects : v.disconnects ≤ w.disconnects
  control : ∀ d ∈ w.control, ∃ c ∈ v.control, d.recv = c.recv
    ∧ d.multilineCode = c.multilineCode ∧ (d.recvEof = true → c.recvEof = true)
    ∧ c.syncWait ≤ d.syncWait
  auth : w.control.isSome → w.auth = true → v.auth = true ∨ a.auth

variable {a : Rights} {v w x : View}

theorem Kept.refl (v : View) : Kept a v v :=
  ⟨rfl, rfl, Nat.le_refl _, fun c hc => ⟨c, hc, rfl, rfl, id, Int.le_refl _⟩, fun _ h => .inl h⟩

/-- A change of the connection that no line is concerned with. -/
theorem Kept.change (h : Kept a v w) {c d : Control} (hc : w.control = some c)
    (hRecv : d.recv = c.recv) (hMulti : d.multilineCode = c.multilineCode)
    (hEof : d.recvEof = true → c.recvEof = true) (hWait : c.syncWait ≤ d.syncWait) :
    ∃ b ∈ v.control, d.recv = b.recv ∧ d.multilineCode = b.multilineCode
      ∧ (d.recvEof = true → b.recvEof = true) ∧ b.syncWait ≤ d.syncWait := by
  obtain ⟨b, hb, hRecv', hMulti', hEof', hWait'⟩ := h.control c hc
  exact ⟨b, hb, hRecv.trans hRecv', hMulti.trans hMulti', fun hEnd => hEof' (hEof hEnd),
    Int.le_trans hWait' hWait⟩

theorem Kept.move (hSsl : a.ssl → ∀ c ∈ v.control, c.recv = []) (h : Kept a v w)
    (hMove : Move a w x) : Kept a v x := by
  cases hMove with
  | @request c text auth hc _ hAuth =>
      refine ⟨h.received, h.checked, h.disconnects, ?_, fun _ hHas => ?_⟩
      · rintro _ ⟨⟩
        exact h.change hc rfl rfl id (Int.le_refl _)
      · rcases hAuth hHas with hOld | hNew
        · exact h.auth (hc ▸ rfl) hOld
        · exact .inr hNew
  | @flush c line rest hc hData hLine =>
      refine ⟨h.received, h.checked, h.disconnects, ?_, fun _ => h.auth (hc ▸ rfl)⟩
      rintro _ ⟨⟩
      exact h.change hc rfl rfl id (Int.le_of_lt (Int.lt_succ _))
  | @ssl c hc hAllowed =>
      refine ⟨h.received, h.checked, h.disconnects, ?_, fun _ => h.auth (hc ▸ rfl)⟩
      rintro _ ⟨⟩
      obtain ⟨b, hb, hRecv, -⟩ := h.control c hc
      have hEmpty : c.recv = [] := hRecv.trans (hSsl hAllowed b hb)
      exact h.change hc hEmpty.symm rfl nofun (Int.le_refl _)
  | drop _ hAuth =>
      exact ⟨h.received, h.checked, h.disconnects, h.control,
        fun hSome hHas => h.auth hSome (hAuth hHas)⟩
  | called =>
      exact ⟨h.received, h.checked, Nat.le_succ_of_le h.disconnects, h.control, h.auth⟩
  | lost n auth =>
      exact ⟨h.received, h.checked, Nat.le_succ_of_le h.disconnects, nofun, nofun⟩
  | gone hc n auth =>
      refine ⟨h.received, h.checked, h.disconnects, h.control, fun hSome => ?_⟩
      rw [hc] at hSome
      cases hSome

theorem Moves.kept (h : Moves a s t) (hSsl : a.ssl → ∀ c ∈ s.view.control, c.recv = []) :
    Kept a s.view t.view :=
  h.rule (I := Kept a s.view) (fun _ _ hv hMove => hv.move hSsl hMove) (.refl _)

/-! ## How far a session has come -/

/-- The replies that are not preliminary: one for each command. -/
def finals (codes : List Nat) : Nat := codes.countP fun code => !is1XX code

/-- Each final reply that has come is for one of the commands, of which there are
`commands`; the server may send 421 without one. -/
def Answers (replies : List Reply) (received : Bytes) (commands : Int) : Prop :=
  ∀ k r, replies[k]? = some r → wire (replies.take (k + 1)) <+: received →
    is1XX r.code = false → r.code ≠ 421 →
    (finals ((replies.take (k + 1)).map Reply.code) : Int) ≤ commands

/-- `k` replies are checked, the lines of `done` are read, and the buffer of `c` holds
what has come of `todo`. -/
structure Reading (replies : List Reply) (v : View) (c : Control) (k : Nat)
    (done todo : List Bytes) : Prop where
  position : Position replies k c.multilineCode done todo
  received : v.received = wireLines done ++ c.recv
  sent : v.received <+: wire replies
  eof : c.recvEof = true → v.received = wire replies
  answers : Answers replies v.received (c.syncWait + finals v.checked)

/-- The replies are checked in order, and the lines are read in order. -/
def Framed (replies : List Reply) (v : View) : Prop :=
  ∃ k ≤ replies.length, v.checked = (replies.take k).map Reply.code
    ∧ ∀ c ∈ v.control, ∃ done todo, Reading replies v c k done todo

variable {replies : List Reply} {k : Nat} {done todo : List Bytes}

theorem Answers.mono {received : Bytes} {m n : Int} (h : Answers replies received m)
    (hle : m ≤ n) : Answers replies received n :=
  fun k r hAt hCame hFinal hCode => Int.le_trans (h k r hAt hCame hFinal hCode) hle

theorem Framed.kept (h : Framed replies v) (hKept : Kept a v w) : Framed replies w := by
  obtain ⟨k, hk, hChecked, hControl⟩ := h
  refine ⟨k, hk, hKept.checked.trans hChecked, fun d hd => ?_⟩
  obtain ⟨c, hc, hRecv, hMulti, hEof, hWait⟩ := hKept.control d hd
  obtain ⟨done, todo, hReading⟩ := hControl c hc
  refine ⟨done, todo, ?_, ?_, ?_, fun hEnd => ?_, ?_⟩
  · rw [hMulti]
    exact hReading.position
  · rw [hKept.received, hRecv]
    exact hReading.received
  · rw [hKept.received]
    exact hReading.sent
  · rw [hKept.received]
    exact hReading.eof (hEof hEnd)
  · rw [hKept.received, hKept.checked]
    exact hReading.answers.mono (Int.add_le_add_right hWait _)

/-- No line that has been read or is to be read holds a newline. -/
theorem Position.notMem {multi : Nat} (h : Position replies k multi done todo) {line : Bytes}
    (hMem : line ∈ done ++ todo) : ch '\n' ∉ line := by
  rw [← h.lines] at hMem
  obtain ⟨r, -, hLine⟩ := List.mem_flatMap.mp hMem
  exact notMem_lines hLine

theorem wire_eq {multi : Nat} (h : Position replies k multi done todo) :
    wire replies = wireLines done ++ wireLines todo := by
  rw [wire, h.lines, wireLines_append]

/-- What has come and what is still to come are the lines to be read. -/
theorem Reading.future {c : Control} (h : Reading replies v c k done todo) :
    ∃ future, c.recv ++ future = wireLines todo ∧ (c.recvEof = true → future = []) := by
  obtain ⟨future, hFuture⟩ := h.sent
  have hAll := hFuture
  rw [wire_eq h.position, h.received, List.append_assoc] at hFuture
  refine ⟨future, List.append_cancel_left hFuture, fun hEnd => ?_⟩
  rw [h.eof hEnd] at hAll
  exact List.append_right_eq_self.mp hAll

/-- As many lines are read as fit into the replies that are checked and one more. -/
theorem Position.length_lt {multi : Nat} (h : Position replies k multi done todo) {m : Nat}
    (hkm : k < m) (hm : m ≤ replies.length) :
    done.length < ((replies.take m).flatMap Reply.lines).length := by
  have hMore : ((replies.take (k + 1)).flatMap Reply.lines).length
      ≤ ((replies.take m).flatMap Reply.lines).length := by
    obtain ⟨more, hEq⟩ : replies.take (k + 1) <+: replies.take m :=
      List.take_prefix_take_left (by omega)
    rw [← hEq, List.flatMap_append, List.length_append]
    omega
  refine Nat.lt_of_lt_of_le ?_ hMore
  cases h with
  | between hk hMulti hDone hTodo =>
      cases hDrop : replies.drop k with
      | nil =>
          rw [List.drop_eq_nil_iff] at hDrop
          omega
      | cons r rest =>
          obtain ⟨-, -, -, hTake⟩ := drop_succ hDrop
          rw [hTake, hDone, List.flatMap_append, List.length_append, List.flatMap_singleton]
          have hPos : 0 < r.lines.length := by
            unfold Reply.lines
            split <;> simp
          omega
  | @within r rest first last before after hDrop hText hMulti hDone hTodo =>
      obtain ⟨-, -, -, hTake⟩ := drop_succ hDrop
      rw [hTake, hDone, List.flatMap_append, List.flatMap_singleton, Reply.lines, hText]
      simp only [List.length_append, List.length_cons]
      omega

/-- Without a whole line in the buffer the replies that have come are checked. -/
theorem Reading.whole {c : Control} (h : Reading replies v c k done todo)
    (hNone : ch '\n' ∉ c.recv) {m : Nat} (hm : m ≤ replies.length)
    (hCame : wire (replies.take m) <+: v.received) : m ≤ k := by
  by_contra hMore
  have hLess := h.position.length_lt (by omega : k < m) hm
  have hLines : ∀ l ∈ done, ch '\n' ∉ l :=
    fun l hl => h.position.notMem (List.mem_append_left _ hl)
  have hCount : v.received.count (ch '\n') = done.length := by
    rw [h.received, List.count_append, count_wireLines hLines, List.count_eq_zero.mpr hNone]
    omega
  have hWire : (wire (replies.take m)).count (ch '\n')
      = ((replies.take m).flatMap Reply.lines).length := by
    refine count_wireLines fun l hl => ?_
    obtain ⟨r, -, hLine⟩ := List.mem_flatMap.mp hl
    exact notMem_lines hLine
  have hLe := hCame.sublist.count_le (ch '\n')
  omega

/-! ## Checking a reply -/

theorem has_of_pop_head {q : ExpectQueue} {e : Expect} {cc : Check} (h : q.pop.1 = some e)
    (hCheck : e.checkCase = cc) : q.has cc = true := by
  rcases q with ⟨_ | ⟨e', items⟩, n, hn⟩
  · cases h
  · cases h
    show (e :: items).any _ = true
    rw [List.any_cons, hCheck]
    simp

/-- SSL starts only when the reply to `AUTH` is checked. -/
theorem moves_checkResp_free {auth ssl : Prop} (h : Permits (.free auth ssl) env) (act : Nat)
    (hSsl : ∀ exp, s.expect.pop.1 = some exp → exp.checkCase = .authTls → ssl) :
    Moves (.free auth ssl) s (s.checkResp env act) := by
  cases hPreliminary : is1XX act with
  | true => exact .of_view (view_checkResp_of_is1XX hPreliminary s)
  | false =>
      have hDrop : (Rights.free auth ssl).drop := trivial
      refine (moves_pop hDrop s).trans
        (moves_checkResp h ?_ (fun exp hExp => ?_) fun _ _ _ => hDrop)
      · rw [hPreliminary]
        exact Bool.false_ne_true
      · exact ⟨fun _ => allows_free nofun, fun hCase _ => hSsl exp hExp hCase, fun _ _ => hDrop⟩

/-- A reply with a command is checked; the loop goes on, or the session disconnects. -/
theorem finalReply_kept {ssl : Prop} (h : NoAuth env) {code : Nat} {d : Control}
    (hd : t.view.control = some d) (hWait : d.syncWait = c.syncWait)
    (hRoom : is1XX code = true ∨ 0 < c.syncWait ∨ code = 421) (hEmpty : ssl → d.recv = [])
    (hSsl : t.view.auth = true → ssl) (moved : Bool) :
    ∃ u, Kept (.free False ssl) { t.view with
          control := some { d with syncWait := waitAfter code d.syncWait }
          checked := t.checked ++ [code] } u.view
      ∧ (t.finalReply env code c moved = .inl (true, u)
        ∨ t.finalReply env code c moved = .inr (true, u) ∧ t.disconnects < u.disconnects) := by
  have hPermits : Permits (.free False ssl) env := permits_free (.inr h)
  obtain ⟨t₁, u, hCounted, hMore, hResult⟩ := finalReply_cases hPermits hd hWait hRoom moved
  have hMoves : Moves (.free False ssl) t₁ (t₁.checkResp env code) := by
    refine moves_checkResp_free hPermits code fun exp hExp hCase => hSsl ?_
    have hHas := has_of_pop_head hExp hCase
    rw [hCounted.expect] at hHas
    exact hHas
  have hNone : ssl → ∀ b ∈ t₁.view.control, b.recv = [] := by
    rw [hCounted.view]
    rintro hYes _ ⟨⟩
    exact hEmpty hYes
  have hDisconnects : t₁.disconnects = t.disconnects := congrArg View.disconnects hCounted.view
  have hLe := hMoves.disconnects_le
  refine ⟨u, hCounted.view ▸ (hMoves.trans hMore).kept hNone, ?_⟩
  rcases hResult with hOn | ⟨hOff, hLess⟩
  · exact .inl hOn
  · exact .inr ⟨hOff, by omega⟩

/-! ## The loop -/

/-- While the reply to `AUTH` is expected, at most one reply more has come. -/
def AuthLast (replies : List Reply) (v : View) : Prop :=
  v.auth = true → v.received <+: wire (replies.take (v.checked.length + 1))

/-- No line of the buffer that has another one after it is empty. -/
def NoGap (buffer : Bytes) : Prop :=
  ∀ ls l rest, buffer = wireLines (ls ++ [l]) ++ rest → [] ∉ ls

theorem NoGap.tail {line rest : Bytes} (h : NoGap ((line ++ [ch '\r']) ++ ch '\n' :: rest)) :
    NoGap rest := by
  intro ls l rest' hRest hMem
  refine h (line :: ls) l rest' ?_ (List.mem_cons_of_mem line hMem)
  rw [List.cons_append, wireLines_cons, hRest]
  simp

/-- What holds between two turns of a call that began in `s`. -/
structure Going (replies : List Reply) (s t : Session) : Prop where
  framed : Framed replies t.view
  authLast : t.view.control.isSome → AuthLast replies t.view
  noGap : ∀ c ∈ t.view.control, NoGap c.recv
  disconnects : s.disconnects ≤ t.disconnects

/-- What holds after the call. -/
structure Stopped (replies : List Reply) (s t : Session) : Prop where
  framed : Framed replies t.view
  disconnects : s.disconnects ≤ t.disconnects
  noLine : t.disconnects = s.disconnects → ∀ c ∈ t.view.control, ch '\n' ∉ c.recv

def buffered (v : View) : Nat := (v.control.map fun c => c.recv.length).getD 0

theorem Framed.reading (h : Framed replies t.view) (hConn : t.conn = some c) :
    ∃ k ≤ replies.length, t.checked = (replies.take k).map Reply.code
      ∧ ∃ done todo, Reading replies t.view c.control k done todo := by
  obtain ⟨k, hk, hChecked, hControl⟩ := h
  exact ⟨k, hk, hChecked, hControl c.control (Option.mem_map_of_mem _ hConn)⟩

/-- Nothing is left to do when there is no whole line. -/
theorem Going.stop (h : Going replies s t) (hConn : t.conn = some c)
    (hReading : Reading replies t.view c.control k done todo) (hNone : ch '\n' ∉ c.controlRecv)
    (moved : Bool) :
    ∃ r, Session.respTurn env (moved, t) = .inr r ∧ Stopped replies s r.2 := by
  have hEmpty : c.recvEof = true → c.controlRecv = [] := by
    intro hEnd
    obtain ⟨future, hFuture, hNo⟩ := hReading.future
    rw [hNo hEnd, List.append_nil] at hFuture
    cases todo with
    | nil => exact hFuture
    | cons line todo =>
        rw [wireLines_cons] at hFuture
        refine absurd ?_ hNone
        show ch '\n' ∈ c.control.recv
        rw [hFuture]
        simp
  unfold Session.respTurn
  dsimp only
  rw [hConn]
  dsimp only
  rw [receiveOneLine_none hNone hEmpty]
  cases hEnd : c.recvEof with
  | true =>
      refine ⟨_, rfl, ?_, ?_, fun hSame => ?_⟩
      · exact h.framed.kept ((moves_disconnectNow (a := .free True False) env t).kept nofun)
      · exact Nat.le_of_lt (Nat.lt_of_le_of_lt h.disconnects (disconnects_disconnectNow env t))
      · have hMore := disconnects_disconnectNow env t
        have hLe := h.disconnects
        have hEq : (t.disconnectNow env).disconnects = s.disconnects := hSame
        omega
  | false =>
      refine ⟨_, rfl, h.framed, h.disconnects, fun _ d hd => ?_⟩
      have hEq : (some c).map Connection.control = some d := hConn ▸ hd
      rw [← Option.some.inj hEq]
      exact hNone

/-- A line goes from the buffer to the lines that are read. -/
theorem Reading.take {b d : Control} {line rest : Bytes} {m : Nat}
    (h : Reading replies v b k done (line :: todo))
    (hRecv : b.recv = (line ++ [ch '\r']) ++ ch '\n' :: rest)
    (hNext : Position replies m d.multilineCode (done ++ [line]) todo)
    (hReceived : w.received = v.received) (hRest : d.recv = rest)
    (hEof : d.recvEof = true → b.recvEof = true)
    (hAnswers : Answers replies v.received (d.syncWait + finals w.checked)) :
    Reading replies w d m (done ++ [line]) todo := by
  refine ⟨hNext, ?_, ?_, fun hEnd => ?_, ?_⟩
  · rw [hReceived, h.received, hRecv, hRest, wireLines_append, wireLines_cons]
    simp [wireLines]
  · rw [hReceived]
    exact h.sent
  · rw [hReceived]
    exact h.eof (hEof hEnd)
  · rw [hReceived]
    exact hAnswers

theorem framed_of_reading {d : Control} (hk : k ≤ replies.length)
    (hChecked : w.checked = (replies.take k).map Reply.code) (hControl : w.control = some d)
    (h : Reading replies w d k done todo) : Framed replies w :=
  ⟨k, hk, hChecked, fun d' hd' => ⟨done, todo, by
    rw [hControl] at hd'
    rw [← Option.some.inj hd']
    exact h⟩⟩

/-- Between two replies exactly the lines of those before are read. -/
theorem Position.done_eq (h : Position replies k 0 done todo) :
    done = (replies.take k).flatMap Reply.lines := by
  cases h with
  | between hk hMulti hDone hTodo => exact hDone
  | @within r rest first last before after hDrop hText hMulti hDone hTodo =>
      have hCode := r.code_ge
      omega

theorem finals_append (codes : List Nat) (code : Nat) :
    finals (codes ++ [code]) = finals codes + if is1XX code = false then 1 else 0 := by
  unfold finals
  rw [List.countP_append, List.countP_singleton]
  cases is1XX code <;> rfl

/-- A reply leaves as many commands for the others as there were. -/
theorem wait_le (code : Nat) (wait : Int) (codes : List Nat) :
    wait + finals codes ≤ waitAfter code wait + finals (codes ++ [code]) := by
  rw [finals_append, waitAfter]
  cases is1XX code with
  | true => simp
  | false =>
      simp only [true_and, if_true]
      split <;> omega

/-- The end of the line that comes next is known, so an empty one is not the last in the
buffer that has a newline. -/
theorem Reading.noLine_of_gap {b : Control} {rest : Bytes}
    (h : Reading replies v b k done ([] :: todo)) (hRecv : b.recv = ch '\r' :: ch '\n' :: rest)
    (hGap : NoGap b.recv) : ch '\n' ∉ rest := by
  intro hMem
  obtain ⟨future, hFuture, -⟩ := h.future
  rw [hRecv, wireLines_cons] at hFuture
  have hRest : rest ++ future = wireLines todo := by
    simpa using hFuture
  cases todo with
  | nil =>
      rw [wireLines, List.flatMap_nil, List.append_eq_nil_iff] at hRest
      rw [hRest.1] at hMem
      cases hMem
  | cons l todo =>
      have hLine : ch '\n' ∉ l ++ [ch '\r'] := by
        rw [List.mem_append, List.mem_singleton, not_or]
        refine ⟨h.position.notMem ?_, by decide⟩
        simp
      rw [wireLines_cons] at hRest
      rcases line_in_buffer hLine hRest with ⟨more, hMore, -⟩ | ⟨hNot, -⟩
      · refine hGap [[]] l more ?_ (List.mem_singleton_self _)
        rw [hRecv, hMore]
        simp [wireLines, crlf]
      · exact hNot hMem

theorem buffered_lt {b : Control} {line rest : Bytes} (hControl : v.control = some b)
    (hRecv : b.recv = (line ++ [ch '\r']) ++ ch '\n' :: rest)
    (h : ∀ d ∈ w.control, d.recv = rest) : buffered w < buffered v := by
  have hLess : rest.length < buffered v := by
    unfold buffered
    rw [hControl, Option.map_some, Option.getD_some, hRecv]
    simp
    omega
  cases hEnd : w.control with
  | none =>
      have hZero : buffered w = 0 := by
        unfold buffered
        rw [hEnd]
        rfl
      omega
  | some d =>
      have hSame : buffered w = rest.length := by
        unfold buffered
        rw [hEnd, Option.map_some, Option.getD_some, h d hEnd]
      omega

/-- The turn goes on after a line that ends no reply. -/
theorem Going.quiet {b : Control} {line rest : Bytes} {m : Nat} (h : Going replies s t)
    (hControl : t.view.control = some b) (hk : k ≤ replies.length)
    (hChecked : t.checked = (replies.take k).map Reply.code)
    (hReading : Reading replies t.view b k done (line :: todo))
    (hRecv : b.recv = (line ++ [ch '\r']) ++ ch '\n' :: rest)
    (hNext : Position replies k m (done ++ [line]) todo)
    (hView : u.view
      = { t.view with control := some { b with recv := rest, multilineCode := m } }) :
    Going replies s u ∧ buffered u.view < buffered t.view := by
  have hTail : NoGap rest := by
    have hGap := h.noGap b hControl
    rw [hRecv] at hGap
    exact hGap.tail
  have hOnly : ∀ d ∈ u.view.control, d.recv = rest := by
    rw [hView]
    rintro _ ⟨⟩
    rfl
  refine ⟨⟨?_, fun _ => ?_, fun d hd => ?_, ?_⟩, buffered_lt hControl hRecv hOnly⟩
  · rw [hView]
    exact framed_of_reading hk hChecked rfl
      (hReading.take hRecv hNext rfl rfl id hReading.answers)
  · rw [hView]
    exact h.authLast (hControl ▸ rfl)
  · rw [hOnly d hd]
    exact hTail
  · rw [show u.disconnects = t.disconnects from congrArg View.disconnects hView]
    exact h.disconnects

/-- The turn that ends a reply checks it. -/
theorem Going.reply {b : Control} {line rest : Bytes} {r : Reply} (hNo : NoAuth env)
    (h : Going replies s t) (hControl : t.view.control = some b) (hWait : b.syncWait = c.syncWait)
    (hk : k ≤ replies.length) (hChecked : t.checked = (replies.take k).map Reply.code)
    (hReading : Reading replies t.view b k done (line :: todo))
    (hRecv : b.recv = (line ++ [ch '\r']) ++ ch '\n' :: rest) (hAt : replies[k]? = some r)
    (hNext : Position replies (k + 1) 0 (done ++ [line]) todo)
    (hView : u.view
      = { t.view with control := some { b with recv := rest, multilineCode := 0 } })
    (moved : Bool) :
    (∃ x, u.finalReply env r.code c moved = .inr x ∧ Stopped replies s x.2)
      ∨ ∃ moved' x, u.finalReply env r.code c moved = .inl (moved', x) ∧ Going replies s x
        ∧ buffered x.view < buffered t.view := by
  have hLess : k < replies.length := (List.getElem?_eq_some_iff.mp hAt).1
  have hLength : t.checked.length = k := by
    rw [hChecked, List.length_map, List.length_take, Nat.min_eq_left hk]
  have hCodes : (replies.take (k + 1)).map Reply.code = t.checked ++ [r.code] := by
    rw [List.take_add_one, hAt, hChecked, List.map_append]
    rfl
  have hWire : wire (replies.take (k + 1)) = wireLines (done ++ [line]) := by
    rw [wire, hNext.done_eq]
  have hReceived : t.view.received = wire (replies.take (k + 1)) ++ rest := by
    rw [hWire, hReading.received, hRecv, wireLines_append, wireLines_cons]
    simp [wireLines]
  have hRoom : is1XX r.code = true ∨ 0 < c.syncWait ∨ r.code = 421 := by
    cases hFinal : is1XX r.code with
    | true => exact .inl rfl
    | false =>
        refine .inr (Decidable.or_iff_not_imp_right.mpr fun hCode => ?_)
        have hEnough := hReading.answers k r hAt ⟨rest, hReceived.symm⟩ hFinal hCode
        have hChecked' : t.view.checked = t.checked := rfl
        rw [hCodes, finals_append, if_pos hFinal, hChecked'] at hEnough
        omega
  have hSsl : u.view.auth = true → rest = [] := by
    intro hAuth
    rw [hView] at hAuth
    have hLast := h.authLast (hControl ▸ rfl) hAuth
    have hSame : t.view.checked.length = k := hLength
    rw [hSame, hReceived] at hLast
    have hBound := hLast.length_le
    rw [List.length_append] at hBound
    exact List.length_eq_zero_iff.mp (by omega)
  have hDisconnects : u.disconnects = t.disconnects := congrArg View.disconnects hView
  have hBefore : u.checked = t.checked := congrArg View.checked hView
  have hRest : u.view.control = some { b with recv := rest, multilineCode := 0 } := by
    rw [hView]
  obtain ⟨x, hKept, hResult⟩ :=
    finalReply_kept hNo hRest hWait hRoom (fun hEmpty => hEmpty) hSsl moved
  generalize hChecks : ({ u.view with
    control := some { { b with recv := rest, multilineCode := 0 } with
      syncWait := waitAfter r.code b.syncWait }
    checked := u.checked ++ [r.code] } : View) = y at hKept
  have hFramed : Framed replies y := by
    rw [← hChecks]
    refine framed_of_reading hLess ?_ rfl (hReading.take hRecv hNext ?_ rfl id ?_)
    · rw [hBefore, hCodes]
    · rw [hView]
    · refine hReading.answers.mono ?_
      have hSame : t.view.checked = t.checked := rfl
      rw [hBefore, hSame]
      exact wait_le r.code b.syncWait t.checked
  have hSteps : s.disconnects ≤ x.disconnects := by
    have hLe := hKept.disconnects
    rw [← hChecks] at hLe
    have hStart := h.disconnects
    have hEnd : u.view.disconnects = u.disconnects := rfl
    have hEnd' : x.view.disconnects = x.disconnects := rfl
    dsimp only at hLe
    omega
  rcases hResult with hOn | ⟨hOff, hMore⟩
  · refine .inr ⟨true, x, hOn, ⟨hFramed.kept hKept, fun hSome hAuth => ?_, fun d hd => ?_,
      hSteps⟩, buffered_lt hControl hRecv fun d hd => ?_⟩
    · have hOld := (hKept.auth hSome hAuth).resolve_right id
      rw [← hChecks, hView] at hOld
      have hLast := h.authLast (hControl ▸ rfl) hOld
      rw [hKept.received, hKept.checked, ← hChecks, hView]
      refine hLast.trans ?_
      have hSame : t.view.checked.length = k := hLength
      obtain ⟨more, hMore⟩ : replies.take (k + 1) <+: replies.take (k + 1 + 1) :=
        List.take_prefix_take_left (by omega)
      rw [hSame, hBefore, List.length_append, hLength]
      show wire (replies.take (k + 1)) <+: wire (replies.take (k + 1 + 1))
      rw [← hMore, wire, wire, List.flatMap_append, wireLines_append]
      exact List.prefix_append ..
    · obtain ⟨b', hb', hSame, -⟩ := hKept.control d hd
      rw [← hChecks] at hb'
      rw [hSame, ← Option.some.inj hb']
      have hGap := h.noGap b hControl
      rw [hRecv] at hGap
      exact hGap.tail
    · obtain ⟨b', hb', hSame, -⟩ := hKept.control d hd
      rw [← hChecks] at hb'
      rw [hSame, ← Option.some.inj hb']
  · refine .inl ⟨_, hOff, hFramed.kept hKept, hSteps, fun hSame => ?_⟩
    have hStart := h.disconnects
    have hEnd : x.disconnects = s.disconnects := hSame
    omega

theorem finishes_nil (strict : Bool) (multi : Nat) : finishes strict multi [] = 0 := by
  unfold finishes
  dsimp only
  split_ifs <;> rfl

/-- The turn stops at an empty line, and then nothing else is in the buffer. -/
theorem Going.empty {b : Control} {rest : Bytes} (h : Going replies s t)
    (hControl : t.view.control = some b) (hk : k ≤ replies.length)
    (hChecked : t.checked = (replies.take k).map Reply.code)
    (hReading : Reading replies t.view b k done ([] :: todo))
    (hRecv : b.recv = ([] ++ [ch '\r']) ++ ch '\n' :: rest)
    (hView : u.view = { t.view with control := some { b with recv := rest } }) :
    Stopped replies s u := by
  have hCleaned : Session.cleanLine none [] = [] := rfl
  have hStays : Position replies k b.multilineCode (done ++ [[]]) todo := by
    rcases hReading.position.next with ⟨-, hNext⟩ | ⟨r, -, hFinishes, -⟩
    · rw [hCleaned, multilineAfter, if_neg (by rintro ⟨-, ⟨⟩⟩)] at hNext
      exact hNext
    · rw [hCleaned, finishes_nil] at hFinishes
      have hCode := r.code_ge
      omega
  obtain ⟨hGoing, -⟩ := h.quiet hControl hk hChecked hReading hRecv hStays hView
  refine ⟨hGoing.framed, hGoing.disconnects, fun _ d hd => ?_⟩
  rw [hView] at hd
  rw [← Option.some.inj hd]
  exact hReading.noLine_of_gap hRecv (h.noGap b hControl)

/-- A turn that has a line. -/
theorem Going.line (hStrict : env.strictMultiline = true) (hNo : NoAuth env)
    (h : Going replies s t) (hConn : t.conn = some c) (hk : k ≤ replies.length)
    (hChecked : t.checked = (replies.take k).map Reply.code) {line rest : Bytes}
    (hReading : Reading replies t.view c.control k done (line :: todo))
    (hRecv : c.controlRecv = (line ++ [ch '\r']) ++ ch '\n' :: rest) (moved : Bool) :
    (∃ x, Session.respTurn env (moved, t) = .inr x ∧ Stopped replies s x.2)
      ∨ ∃ moved' x, Session.respTurn env (moved, t) = .inl (moved', x) ∧ Going replies s x
        ∧ buffered x.view < buffered t.view := by
  have hLine : ch '\n' ∉ line :=
    hReading.position.notMem (List.mem_append_right _ List.mem_cons_self)
  have hControl : t.view.control = some c.control := by
    rw [Session.view, hConn]
    rfl
  unfold Session.respTurn
  dsimp only
  rw [hConn]
  dsimp only
  rw [receiveOneLine_line hLine hRecv]
  dsimp only
  generalize hRead : ({ t with
    conn := some { c with controlRecv := rest }
    line := Session.cleanLine none line } : Session) = u
  have hView : u.view = { t.view with control := some { c.control with recv := rest } } := by
    rw [← hRead]
    rfl
  have hText : u.line = Session.cleanLine none line := by rw [← hRead]
  have hMulti : ∀ d ∈ u.conn, d.multilineCode = c.multilineCode := by
    rw [← hRead]
    rintro _ ⟨⟩
    rfl
  cases hCleaned : Session.cleanLine none line with
  | nil =>
      rw [cleanLine_eq_nil hCleaned] at hReading hRecv
      exact .inl ⟨_, rfl, h.empty hControl hk hChecked hReading hRecv hView⟩
  | cons x xs =>
      have hLength : ((x :: xs).length : Int) ≠ -1 ∧ ((x :: xs).length : Int) ≠ 0 := by
        rw [List.length_cons]
        omega
      rw [if_neg hLength.1, if_neg hLength.2]
      obtain ⟨v, ⟨hQuiet, hResult, hNoted⟩ | ⟨hEnds, hResult, hNoted⟩⟩ :=
        handleLine_eq env moved hMulti
      · rw [hStrict, hText] at hQuiet
        rcases hReading.position.next with ⟨-, hNext⟩ | ⟨r, -, hFinishes, -⟩
        · refine .inr ⟨moved, v, hResult, h.quiet hControl hk hChecked hReading hRecv hNext ?_⟩
          rw [hNoted.view, hView, hText]
          rfl
        · have hCode := r.code_ge
          have hSame : finishes true c.multilineCode (Session.cleanLine none line) = r.code :=
            hFinishes
          omega
      · rw [hStrict, hText] at hEnds hResult
        rcases hReading.position.next with ⟨hQuiet, -⟩ | ⟨r, hAt, hFinishes, hNext⟩
        · exact absurd hQuiet hEnds
        · have hSame : finishes true c.multilineCode (Session.cleanLine none line) = r.code :=
            hFinishes
          rw [hResult, hSame]
          refine h.reply hNo hControl rfl hk hChecked hReading hRecv hAt hNext ?_ moved
          rw [hNoted.view, hView]
          rfl

/-- A turn of the loop. -/
theorem Going.turn (hStrict : env.strictMultiline = true) (hNo : NoAuth env)
    (h : Going replies s t) (moved : Bool) :
    (∃ x, Session.respTurn env (moved, t) = .inr x ∧ Stopped replies s x.2)
      ∨ ∃ moved' x, Session.respTurn env (moved, t) = .inl (moved', x) ∧ Going replies s x
        ∧ buffered x.view < buffered t.view := by
  cases hConn : t.conn with
  | none =>
      refine .inl ⟨(moved, t), ?_, h.framed, h.disconnects, fun _ c hc => ?_⟩
      · unfold Session.respTurn
        dsimp only
        rw [hConn]
      · rw [Session.view, hConn] at hc
        cases hc
  | some c =>
      obtain ⟨k, hk, hChecked, done, todo, hReading⟩ := h.framed.reading hConn
      obtain ⟨future, hFuture, -⟩ := hReading.future
      cases todo with
      | nil =>
          have hEmpty := (List.append_eq_nil_iff.mp hFuture).1
          refine .inl (h.stop hConn hReading (fun hMem => ?_) moved)
          have hRecv : c.controlRecv = [] := hEmpty
          rw [hRecv] at hMem
          cases hMem
      | cons line todo =>
          have hLine : ch '\n' ∉ line ++ [ch '\r'] := by
            rw [List.mem_append, List.mem_singleton, not_or]
            exact ⟨hReading.position.notMem (List.mem_append_right _ List.mem_cons_self),
              by decide⟩
          rw [wireLines_cons] at hFuture
          rcases line_in_buffer hLine hFuture with ⟨rest, hRecv, -⟩ | ⟨hNone, -⟩
          · exact h.line hStrict hNo hConn hk hChecked hReading hRecv moved
          · exact .inl (h.stop hConn hReading hNone moved)

/-- A call of `ReceiveResp`. -/
theorem receiveResp_stopped (hStrict : env.strictMultiline = true) (hNo : NoAuth env)
    (h : Going replies s s) : Stopped replies s (s.receiveResp env).2 := by
  unfold Session.receiveResp
  cases hConn : s.conn with
  | none =>
      refine ⟨h.framed, Nat.le_refl _, fun _ c hc => ?_⟩
      rw [Session.view, hConn] at hc
      cases hc
  | some c =>
      dsimp only
      cases hError : c.recvError with
      | some fatal =>
          dsimp only
          generalize hFatal : (if fatal = true then s.setError .fatal else s) = t
          have hView : t.view = s.view := by
            rw [← hFatal]
            split <;> rfl
          have hMore := disconnects_disconnectNow env t
          have hStart : t.disconnects = s.disconnects := congrArg View.disconnects hView
          have hFramed : Framed replies t.view := hView ▸ h.framed
          refine ⟨?_, ?_, fun hSame => ?_⟩
          · exact hFramed.kept ((moves_disconnectNow (a := .free True False) env t).kept (by rintro ⟨⟩))
          · omega
          · omega
      | none =>
          have hMeasure : buffered s.view < c.controlRecv.length + 2 := by
            unfold buffered Session.view
            rw [hConn]
            show c.controlRecv.length < c.controlRecv.length + 2
            omega
          have hTurns : ∀ x : Bool × Session, Going replies s x.2 →
              (∃ r, Session.respTurn env x = .inr r ∧ Stopped replies s r.2)
              ∨ ∃ y, Session.respTurn env x = .inl y ∧ Going replies s y.2
                ∧ buffered y.2.view < buffered x.2.view := by
            rintro ⟨moved, t⟩ hGoing
            rcases hGoing.turn hStrict hNo moved with hLeave | ⟨moved', y, hTurn, hNext, hLess⟩
            · exact .inl hLeave
            · exact .inr ⟨(moved', y), hTurn, hNext, hLess⟩
          obtain ⟨r, hRun, hStopped⟩ := loop_total
            (I := fun x : Bool × Session => Going replies s x.2)
            (Q := fun x : Bool × Session => Stopped replies s x.2)
            (fun x => buffered x.2.view) hTurns (s := (false, s)) h hMeasure
          rw [hRun]
          exact hStopped

/-! ## Runs -/

/-- What the server and the session do. The bytes of the replies come in any pieces, a
final reply when there is a command for it; the server closes when all have come, and
sends nothing after the reply to `AUTH`. -/
def Orderly (replies : List Reply) (s : Session) : Action → Prop
  | .arrive chunk => s.received ++ chunk <+: wire replies
      ∧ ∀ c ∈ s.conn, Answers replies (s.received ++ chunk) (c.syncWait + finals s.checked)
  | .arriveEof => s.received = wire replies
  | .respond env => env.strictMultiline = true ∧ NoAuth env ∧ AuthLast replies s.view
  | .other t => s.Same t
  | _ => True

/-- When the replies are taken, no line in the buffer is empty that has another one
after it. -/
def Clear (s : Session) : Action → Prop
  | .respond _ => ∀ c ∈ s.conn, NoGap c.controlRecv
  | _ => True

/-- After a call of `ReceiveResp` in `s` the replies are checked in order, and when it has
not disconnected no line is left, so that all replies that have come are checked. -/
structure Exact (replies : List Reply) (s t : Session) : Prop where
  inOrder : t.checked <+: replies.map Reply.code
  whole : t.disconnects = s.disconnects → ∀ c ∈ t.conn, ch '\n' ∉ c.controlRecv
    ∧ ∀ m ≤ replies.length, wire (replies.take m) <+: t.received → m ≤ t.checked.length

theorem Stopped.exact (h : Stopped replies s t) : Exact replies s t := by
  obtain ⟨k, hk, hChecked, hControl⟩ := h.framed
  refine ⟨?_, fun hSame c hc => ?_⟩
  · show t.view.checked <+: _
    rw [hChecked, List.map_take]
    exact List.take_prefix ..
  · have hMem : c.control ∈ t.view.control := Option.mem_map_of_mem Connection.control hc
    have hNone := h.noLine hSame c.control hMem
    obtain ⟨done, todo, hReading⟩ := hControl c.control hMem
    refine ⟨hNone, fun m hm hCame => ?_⟩
    have hLength : t.view.checked.length = k := by
      rw [hChecked, List.length_map, List.length_take, Nat.min_eq_left hk]
    exact (hReading.whole hNone hm hCame).trans (Nat.le_of_eq hLength.symm)

theorem wire_take_ne_nil {r : Reply} (h : replies[k]? = some r) :
    wire (replies.take (k + 1)) ≠ [] := by
  rw [wire, List.take_add_one, h, List.flatMap_append, wireLines_append]
  intro hNil
  have hLast := (List.append_eq_nil_iff.mp hNil).2
  rw [Option.toList_some, List.flatMap_singleton] at hLast
  unfold Reply.lines at hLast
  split at hLast
  · simp [wireLines, crlf] at hLast
  · simp [wireLines, crlf] at hLast

theorem framed_of_start (h : Start s) : Framed replies s.view := by
  obtain ⟨c, hConn, hRecv, hEof, hMulti, -⟩ := h.conn
  refine ⟨0, Nat.zero_le _, h.checked, fun d hd => ?_⟩
  have hControl : c.control = d := by
    have hMap : (some c).map Connection.control = some d := hConn ▸ hd
    exact Option.some.inj hMap
  have hNothing : s.view.received = [] := h.received
  rw [← hControl]
  refine ⟨[], replies.flatMap Reply.lines, .between (Nat.zero_le _) hMulti rfl rfl, ?_, ?_,
    fun hEnd => ?_, fun k r hAt hCame => ?_⟩
  · rw [hNothing]
    exact hRecv.symm
  · rw [hNothing]
    exact List.nil_prefix
  · have hOpen : c.control.recvEof = false := hEof
    rw [hOpen] at hEnd
    cases hEnd
  · rw [hNothing] at hCame
    exact absurd (List.prefix_nil.mp hCame) (wire_take_ne_nil hAt)

theorem Session.Same.kept (h : s.Same t) : Kept (.free True False) s.view t.view := by
  refine ⟨h.received, h.checked, Nat.le_of_eq h.disconnects.symm, fun d hd => ?_,
    fun _ _ => .inr trivial⟩
  obtain ⟨c, hc, hRecv, hEof, hMulti, -, -, -, hWait⟩ := h.control hd
  exact ⟨c, hc, hRecv, hMulti, fun hEnd => hEof.symm.trans hEnd, Int.le_of_eq hWait.symm⟩

/-- Moves without SSL keep what framing is about. -/
theorem Framed.moves (h : Framed replies s.view) (hMoves : Moves (.free True False) s t) :
    Framed replies t.view :=
  h.kept (hMoves.kept nofun)

theorem Framed.arrive {chunk : Bytes} (h : Framed replies s.view)
    (hOk : Orderly replies s (.arrive chunk)) : Framed replies (act s (.arrive chunk)).view := by
  obtain ⟨k, hk, hChecked, hControl⟩ := h
  refine ⟨k, hk, hChecked, fun d hd => ?_⟩
  obtain ⟨d', hd', rfl⟩ := Option.map_eq_some_iff.mp hd
  obtain ⟨c, hc, rfl⟩ := Option.map_eq_some_iff.mp hd'
  obtain ⟨done, todo, hReading⟩ := hControl c.control (Option.mem_map_of_mem _ hc)
  refine ⟨done, todo, hReading.position, ?_, hOk.1, fun hEnd => ?_, hOk.2 c hc⟩
  · show s.view.received ++ chunk = wireLines done ++ (c.control.recv ++ chunk)
    rw [hReading.received, List.append_assoc]
  · have hAll : s.received = wire replies := hReading.eof hEnd
    have hPrefix := hOk.1
    rw [hAll] at hPrefix
    have hNone := List.append_right_eq_self.mp
      (List.IsPrefix.eq_of_length_le hPrefix (by simp))
    show s.received ++ chunk = wire replies
    rw [hNone, List.append_nil, hAll]

theorem going_of_framed (h : Framed replies s.view) (hOk : Orderly replies s (.respond env))
    (hClear : Clear s (.respond env)) : Going replies s s := by
  refine ⟨h, fun _ => hOk.2.2, fun d hd => ?_, Nat.le_refl _⟩
  obtain ⟨c, hc, rfl⟩ := Option.map_eq_some_iff.mp hd
  exact hClear c hc

theorem Framed.step {o : Action} (h : Framed replies s.view) (hOk : Orderly replies s o)
    (hClear : Clear s o) : Framed replies (act s o).view := by
  cases o with
  | request r => exact h.moves (moves_request (allows_free fun _ => trivial) s)
  | urgent env r => exact h.moves (moves_urgentRequest env (allows_free fun _ => trivial) s)
  | flush env all => exact h.moves (moves_flushSendQueue env all s)
  | arrive chunk => exact h.arrive hOk
  | arriveEof =>
      obtain ⟨k, hk, hChecked, hControl⟩ := h
      refine ⟨k, hk, hChecked, fun d hd => ?_⟩
      obtain ⟨d', hd', rfl⟩ := Option.map_eq_some_iff.mp hd
      obtain ⟨c, hc, rfl⟩ := Option.map_eq_some_iff.mp hd'
      obtain ⟨done, todo, hReading⟩ := hControl c.control (Option.mem_map_of_mem _ hc)
      exact ⟨done, todo, hReading.position, hReading.received, hReading.sent, fun _ => hOk,
        hReading.answers⟩
  | recvFails fatal =>
      exact h.moves (moves_onConn (f := fun c => { c with recvError := some fatal })
        (fun _ => rfl) s)
  | sendFails fatal =>
      exact h.moves (moves_onConn (f := fun c => { c with sendError := some fatal })
        (fun _ => rfl) s)
  | respond env =>
      exact (receiveResp_stopped hOk.1 hOk.2.1 (going_of_framed h hOk hClear)).framed
  | abort env => exact h.moves (moves_dataAbort (permits_free (.inl trivial)) s)
  | closeData env => exact h.moves (moves_dataClose env s)
  | closeExpect => exact h.moves (.of_view (view_closeExpect s))
  | disconnect env => exact h.moves (moves_disconnect (permits_free (.inl trivial)) s)
  | disconnectNow env => exact h.moves (moves_disconnectNow env s)
  | other t => exact h.kept (Session.Same.kept hOk)

/-- In every run without an empty line before another one, `ReceiveResp` checks each reply
once, in order and with its code, and leaves no line when it does not disconnect. -/
theorem receiveResp_frames
    (h : Reach Start (Guarded act fun s o => Orderly replies s o ∧ Clear s o) s)
    (hOrderly : Orderly replies s (.respond env)) (hClear : Clear s (.respond env)) :
    Exact replies s (s.receiveResp env).2 := by
  have hFramed : Framed replies s.view :=
    h.invariant (fun _ hStart => framed_of_start hStart) fun t o t' hReached hStep => by
      obtain ⟨⟨hOk, hOkClear⟩, rfl⟩ := hStep
      exact Framed.step hReached hOk hOkClear
  exact (receiveResp_stopped hOrderly.1 hOrderly.2.1
    (going_of_framed hFramed hOrderly hClear)).exact

/-- A buffer with one newline has no line before another one. -/
theorem noGap_of_count {buffer : Bytes} (h : buffer.count (ch '\n') ≤ 1) : NoGap buffer := by
  have hLines : ∀ ls : List Bytes, ls.length ≤ (wireLines ls).count (ch '\n') := by
    intro ls
    induction ls with
    | nil => exact Nat.zero_le _
    | cons l ls ih =>
        rw [wireLines_cons, List.count_append, List.count_cons_self, List.length_cons]
        omega
  intro ls l rest hBuffer hMem
  have hCount := hLines (ls ++ [l])
  rw [hBuffer, List.count_append] at h
  rw [List.length_append, List.length_singleton] at hCount
  have hPos := List.length_pos_of_mem hMem
  omega

/-! ### A greeting -/

/-- All settings are off but for `strict-multiline`. -/
def strictEnv : Env where
  late := false
  strictMultiline := true
  useAbor := false
  useQuit := false
  webMode := false
  autoPassiveMode := false
  preferEpsv := false
  sslForce := false
  retryWithoutSsl := false
  autoSyncMode := fun _ => false
  retry530 := fun _ => false
  saidTransient := fun _ => false
  nonError5XX := fun _ _ => false
  restNotPermitted := fun _ => false
  posZero := fun _ => true
  realPosPositive := fun _ => false
  nextTry := fun _ => true
  infoWanted := fun _ => false
  allStored := fun _ => false
  skeyMissing := fun _ => false
  proxyLookup := fun _ => false
  hasAcct := fun _ => false
  needsProt := fun _ _ => false
  utf8Supported := fun _ => false
  toUtf8 := none
  handlePasv := fun _ => .noAddress
  uTimeRequest := fun _ => none
  afterFeat := fun _ => []

/-- A reply on one line. -/
def ready : Reply where
  code := 220
  text := .single (bytes "ready")
  code_ge := by decide
  code_lt := by decide
  newline := by decide
  not_last := by decide

/-- A reply with an empty line. -/
def welcome : Reply where
  code := 220
  text := .multi (bytes "Welcome") [[]] (bytes "ready")
  code_ge := by decide
  code_lt := by decide
  newline := by decide
  not_last := by decide

/-- A greeting may come at once. -/
theorem orderly_greeting {r : Reply} : Orderly [r] connected (.arrive (wire [r])) := by
  refine ⟨List.prefix_rfl, ?_⟩
  rintro _ ⟨⟩ k r' hAt - - -
  cases k with
  | zero =>
      have hCount : finals (([r].take (0 + 1)).map Reply.code) ≤ 1 := List.countP_le_length
      show (finals _ : Int) ≤ 1 + 0
      omega
  | succ k => cases hAt

theorem orderly_respond {r : Reply} :
    Orderly [r] (act connected (.arrive (wire [r]))) (.respond strictEnv) := by
  refine ⟨rfl, ⟨fun _ _ hr => ?_, fun _ _ hr => ?_⟩, fun hAuth => ?_⟩
  · cases hr
  · cases hr
  · have hNone : (act connected (.arrive (wire [r]))).view.auth = false := rfl
    rw [hNone] at hAuth
    cases hAuth

theorem receiveResp_frames_ready :
    Exact [ready] (act connected (.arrive (wire [ready])))
      ((act connected (.arrive (wire [ready]))).receiveResp strictEnv).2 := by
  refine receiveResp_frames (.next _ (.start start_connected) ⟨⟨orderly_greeting, trivial⟩, rfl⟩)
    orderly_respond ?_
  rintro _ ⟨⟩
  exact noGap_of_count (by decide)

/-- The empty line of a greeting keeps its last line in the buffer. -/
theorem not_receiveResp_frames : ¬ ∀ (replies : List Reply) (s : Session) (env : Env),
    Reach Start (Guarded act (Orderly replies)) s → Orderly replies s (.respond env) →
      Exact replies s (s.receiveResp env).2 := by
  intro h
  have hExact := h [welcome] _ strictEnv
    (.next _ (.start start_connected) ⟨orderly_greeting, rfl⟩) orderly_respond
  have hLeft : (((act connected (.arrive (wire [welcome]))).receiveResp strictEnv).2.conn.any
      fun c => c.controlRecv.contains (ch '\n')) = true := by
    decide +kernel
  obtain ⟨c, hc, hMem⟩ := (Option.any_eq_true _ _).mp hLeft
  exact (hExact.whole (by decide +kernel) c hc).1 (by simpa using hMem)

end Lftp.Ports.Ftp
