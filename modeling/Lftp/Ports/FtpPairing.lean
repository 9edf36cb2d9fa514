import Lftp.Ports.FtpMoves
import Lftp.Verified.Runs

/-!
# Commands and replies of an FTP session

The commands in flight and those still in `send_cmd_buffer` are as many as the
expectations, and `FlushSendQueueOneCmd` moves one command at a time. `Balanced` is the
invariant, kept by every move that puts whole lines and drops no expectation.

It is lost by a newline in a command, which is then flushed in two parts, and where
`CheckResp` drops a second expectation while one command less is in flight; `Plain` says
that neither happens.
-/

namespace Lftp.Ports.Ftp

open Lftp.Verified Lftp.Ports.ParseCmd

/-! ## The invariant -/

/-- A command with its line end. -/
def Line (cmd : Bytes) : Prop := ∃ text, cmd = text ++ crlf ∧ ch '\n' ∉ text

/-- The commands `kept` are in the buffer, and the expectations are those of the commands
in the buffer and of those in flight. -/
structure Keeps (c : Control) (count : Nat) (sent kept : List Bytes) : Prop where
  commands : c.commands = sent ++ kept
  data : c.data = kept.flatten
  lines : ∀ cmd ∈ kept, Line cmd
  pending : c.pending = []
  count : c.syncWait + kept.length = count

def Balanced (v : View) : Prop := ∀ c ∈ v.control, ∃ sent kept, Keeps c v.count sent kept

/-- Whole lines may be put, and no expectation is dropped. -/
def Rights.lines : Rights := ⟨fun text => ch '\n' ∉ text, True, True, False⟩

variable {v w : View} {c : Control} {count : Nat} {sent kept : List Bytes}

/-- The next line of the buffer is the next command. -/
theorem Keeps.next (h : Keeps c count sent kept) {line rest : Bytes}
    (hData : c.data = line ++ ch '\n' :: rest) (hLine : ch '\n' ∉ line) :
    ∃ cmd more, kept = cmd :: more ∧ cmd = line ++ [ch '\n'] ∧ Line cmd
      ∧ rest = more.flatten := by
  cases kept with
  | nil =>
      rw [h.data] at hData
      simp at hData
  | cons cmd more =>
      obtain ⟨text, hText, hFree⟩ := h.lines cmd List.mem_cons_self
      have hSplit : (text ++ [ch '\r']) ++ ch '\n' :: more.flatten = line ++ ch '\n' :: rest := by
        rw [← hData, h.data, List.flatten_cons, hText]
        simp [crlf]
      have hCr : ch '\n' ∉ text ++ [ch '\r'] := by
        rw [List.mem_append, List.mem_singleton, not_or]
        exact ⟨hFree, by decide⟩
      obtain ⟨rfl, hRest⟩ := line_inj hCr hLine hSplit
      refine ⟨cmd, more, rfl, ?_, ⟨text, hText, hFree⟩, hRest.symm⟩
      rw [hText]
      simp [crlf]

theorem Balanced.move (h : Balanced v) (hMove : Move .lines v w) : Balanced w := by
  cases hMove with
  | @request c text auth hc hText _ =>
      rintro _ ⟨⟩
      obtain ⟨sent, kept, hKeeps⟩ := h c hc
      refine ⟨sent, kept ++ [text ++ crlf], ?_, ?_, ?_, rfl, ?_⟩
      · show c.commands ++ [text ++ crlf] = _
        rw [hKeeps.commands, List.append_assoc]
      · show c.data ++ (text ++ crlf) = _
        rw [hKeeps.data, List.flatten_append]
        simp
      · intro cmd hMem
        rcases List.mem_append.mp hMem with hOld | hNew
        · exact hKeeps.lines cmd hOld
        · exact ⟨text, List.mem_singleton.mp hNew, hText hKeeps.pending⟩
      · have hCount := hKeeps.count
        simp only [List.length_append, List.length_singleton]
        push_cast
        omega
  | @flush c line rest hc hData hLine =>
      rintro _ ⟨⟩
      obtain ⟨sent, kept, hKeeps⟩ := h c hc
      obtain ⟨cmd, more, rfl, hCmd, hWhole, hRest⟩ := hKeeps.next hData hLine
      refine ⟨sent ++ [cmd], more, ?_, hRest,
        fun cmd' hMem => hKeeps.lines cmd' (List.mem_cons_of_mem cmd hMem), hKeeps.pending, ?_⟩
      · show c.commands = _
        rw [hKeeps.commands, List.append_assoc]
        rfl
      · have hCount := hKeeps.count
        rw [List.length_cons] at hCount
        show c.syncWait + 1 + more.length = v.count
        push_cast at hCount
        omega
  | @ssl c hc _ =>
      rintro _ ⟨⟩
      obtain ⟨sent, kept, hKeeps⟩ := h c hc
      exact ⟨sent, kept, hKeeps.commands, hKeeps.data, hKeeps.lines, hKeeps.pending, hKeeps.count⟩
  | drop hNot _ => exact hNot.elim
  | called => exact h
  | lost n auth => exact nofun
  | gone hc n auth =>
      intro c hSome
      rw [hc] at hSome
      cases hSome

theorem Balanced.moves {s t : Session} (h : Balanced s.view) (hMoves : Moves .lines s t) :
    Balanced t.view :=
  hMoves.rule (fun _ _ hv hMove => hv.move hMove) h

/-- Only the commands, the counters and the buffer of commands matter. -/
theorem Balanced.congr (h : Balanced v) (hCount : w.count = v.count)
    (hControl : ∀ d ∈ w.control, ∃ c ∈ v.control, d.commands = c.commands ∧ d.data = c.data
      ∧ d.pending = c.pending ∧ d.syncWait = c.syncWait) : Balanced w := by
  intro d hd
  obtain ⟨c, hc, hCommands, hData, hPending, hWait⟩ := hControl d hd
  obtain ⟨sent, kept, hKeeps⟩ := h c hc
  refine ⟨sent, kept, ?_, ?_, hKeeps.lines, ?_, ?_⟩
  · rw [hCommands]
    exact hKeeps.commands
  · rw [hData]
    exact hKeeps.data
  · rw [hPending]
    exact hKeeps.pending
  · rw [hWait, hCount]
    exact hKeeps.count

/-- The connection changes in other respects. -/
theorem Balanced.onConn {s t : Session} {f : Connection → Connection} (h : Balanced s.view)
    (hf : ∀ c, (f c).control.commands = c.commands ∧ (f c).control.data = c.sendCmdBuffer.data
      ∧ (f c).control.pending = c.sendCmdBuffer.pending ∧ (f c).control.syncWait = c.syncWait)
    (hConn : t.conn = s.conn.map f) (hCount : t.expect.count = s.expect.count) :
    Balanced t.view := by
  refine h.congr hCount fun d hd => ?_
  obtain ⟨d', hd', rfl⟩ := Option.map_eq_some_iff.mp hd
  rw [hConn] at hd'
  obtain ⟨c, hc, rfl⟩ := Option.map_eq_some_iff.mp hd'
  exact ⟨c.control, Option.mem_map_of_mem _ hc, hf c⟩

/-! ## What the session puts -/

theorem allows_lines {r : Request} (h : r.cmd.LfFree) : Rights.lines.Allows r := by
  refine ⟨fun _ => trivial, fun b hPending text hData => ?_⟩
  obtain ⟨text', hData', -, hFree⟩ := sendCmd_spec b r.cmd
  rw [hData'] at hData
  rw [← List.append_cancel_right (List.append_cancel_left hData)]
  exact hFree h (by rw [hPending]; exact List.not_mem_nil)

/-- What the session sends while it takes replies is without newlines. -/
structure PlainEnv (env : Env) : Prop where
  uTime : ∀ s, ∀ r ∈ env.uTimeRequest s, r.cmd.LfFree
  feat : ∀ s, ∀ r ∈ env.afterFeat s, r.cmd.LfFree

theorem permits_lines {env : Env} (h : PlainEnv env) : Permits .lines env :=
  ⟨allows_lines (show ch '\n' ∉ cstr (bytes "ABOR") by decide),
    allows_lines (show ch '\n' ∉ cstr (bytes "QUIT") by decide),
    fun s r hr => allows_lines (h.uTime s r hr), fun s r hr => allows_lines (h.feat s r hr)⟩

/-- What closing a transfer or the connection does is up to the other settings. -/
def Env.quiet (env : Env) : Env :=
  { env with uTimeRequest := fun _ => none, afterFeat := fun _ => [] }

theorem permits_quiet (env : Env) : Permits .lines env.quiet := by
  refine permits_lines ⟨fun s r hr => ?_, fun s r hr => ?_⟩
  · cases hr
  · cases hr

theorem balanced_dataAbort (env : Env) {s : Session} (h : Balanced s.view) :
    Balanced (s.dataAbort env).view :=
  h.moves (moves_dataAbort (permits_quiet env) s)

theorem balanced_disconnect (env : Env) {s : Session} (h : Balanced s.view) :
    Balanced (s.disconnect env).view :=
  h.moves (moves_disconnect (permits_quiet env) s)

/-! ## A turn of ReceiveResp -/

variable {env : Env} {s t u : Session}

/-- The line that a turn takes, empty when there is none. -/
def Session.nextLine (env : Env) (s : Session) : Bytes :=
  match s.conn with
  | none => []
  | some c =>
    if (s.receiveOneLine env c).1 ≤ 0 then [] else (s.receiveOneLine env c).2.line

/-- The code of the reply that a turn checks, 0 when it checks none. -/
def Session.nextCode (env : Env) (s : Session) : Nat :=
  match s.conn with
  | none => 0
  | some c => finishes env.strictMultiline c.multilineCode (s.nextLine env)

/-- The branches of `CheckResp` that drop a second expectation: user and greeting are
answered at once, or only `ABOR` is. -/
def DropsTwo (code : Nat) (line : Bytes) (syncMode : Bool) (q : ExpectQueue) : Prop :=
  (q.firstIs .ready ∧ code = 331 ∧ ¬ syncMode ∧ q.pop.2.count > 1)
    ∨ (q.firstIs .transferClosed ∧ bytes "ABOR" <:+: line ∧ q.pop.2.count ≥ 2
      ∧ q.pop.2.firstIs .abor)

theorem firstIs_of_pop {q : ExpectQueue} {exp : Expect} (h : q.pop.1 = some exp) :
    q.firstIs exp.checkCase = true := by
  rcases q with ⟨_ | ⟨e, items⟩, n, hn⟩
  · cases h
  · cases h
    show decide _ = true
    simp

/-- The check of a quoted command is ignored when the queue is closed. -/
theorem pop_close_of_quoted {q : ExpectQueue} (h : q.firstIs .quoted) {exp : Expect}
    (hExp : q.close.pop.1 = some exp) : exp.checkCase = .ignore := by
  rcases q with ⟨_ | ⟨e, items⟩, n, hn⟩
  · cases hExp
  · have hHead : (some e).map (·.checkCase) = some .quoted := of_decide_eq_true h
    have hEq : ({ e with checkCase := e.checkCase.closed } : Expect) = exp := Option.some.inj hExp
    have hQuoted : e.checkCase = .quoted := Option.some.inj hHead
    rw [← hEq]
    show e.checkCase.closed = .ignore
    rw [hQuoted]
    rfl

/-- What `CheckResp` may do with a session. -/
structure PlainReply (code : Nat) (s : Session) : Prop where
  rnto : s.expect.firstIs .rnfr → ch '\n' ∉ cstr s.file1
  single : ¬ DropsTwo code s.line s.syncMode s.expect

theorem PlainReply.covers (h : PlainReply code s) {exp : Expect}
    (hExp : s.expect.pop.1 = some exp) (hSame : t.expect = s.expect.pop.2) (hLine : t.line = s.line)
    (hFile : t.file1 = s.file1) : Covers .lines exp code t := by
  have hFirst := firstIs_of_pop hExp
  refine ⟨fun hCase => allows_lines ⟨by decide, ?_⟩, fun _ _ => trivial, fun hCase hDrop => ?_⟩
  · rw [hCase] at hFirst
    rw [hFile]
    exact h.rnto hFirst
  · rw [hCase] at hFirst
    rw [hLine, hSame] at hDrop
    exact h.single (.inr ⟨hFirst, hDrop⟩)

/-- One expectation goes with one command in flight. -/
theorem balanced_checkResp {code : Nat} {d : Control} (hEnv : PlainEnv env)
    (hPlain : PlainReply code t) (h : Balanced s.view) (hd : s.view.control = some d)
    (hRoom : is1XX code = true ∨ 0 < d.syncWait) (hCounted : Counted code d s t) :
    Balanced (t.checkResp env code).view := by
  cases hPreliminary : is1XX code with
  | true =>
      rw [view_checkResp_of_is1XX hPreliminary, hCounted.view]
      refine h.congr rfl ?_
      rintro _ ⟨⟩
      refine ⟨d, hd, rfl, rfl, rfl, ?_⟩
      show waitAfter code d.syncWait = d.syncWait
      rw [waitAfter, if_neg]
      rw [hPreliminary]
      exact fun hBoth => Bool.noConfusion hBoth.1
  | false =>
      have hPos : 0 < d.syncWait := hRoom.resolve_left (by rw [hPreliminary]; exact nofun)
      have hStart : Balanced ({ t with expect := t.expect.pop.2 } : Session).view := by
        intro b hb
        have hEq : t.view.control = some b := hb
        rw [hCounted.view] at hEq
        obtain ⟨sent, kept, hKeeps⟩ := h d hd
        rw [← Option.some.inj hEq]
        refine ⟨sent, kept, hKeeps.commands, hKeeps.data, hKeeps.lines, hKeeps.pending, ?_⟩
        have hCount := hKeeps.count
        have hSame : s.view.count = s.expect.count := rfl
        show waitAfter code d.syncWait + kept.length = (t.expect.pop.2.count : Nat)
        rw [count_pop, hCounted.expect, waitAfter, if_pos ⟨hPreliminary, hPos⟩]
        omega
      refine hStart.moves (moves_checkResp (permits_lines hEnv) ?_ (fun exp hExp => ?_)
        fun exp hExp hBoth => ?_)
      · rw [hPreliminary]
        exact Bool.false_ne_true
      · exact hPlain.covers hExp rfl rfl rfl
      · refine hPlain.single (.inl ⟨?_, hBoth.1, hBoth.2.2.1, hBoth.2.2.2⟩)
        rw [← hBoth.2.1]
        exact firstIs_of_pop hExp

/-- What reading a line does. -/
theorem receiveOneLine_cases (env : Env) {c : Connection} (hConn : s.conn = some c) :
    s.receiveOneLine env c = (-1, s.disconnectNow env)
      ∨ ∃ (n : Nat) (recv : Bytes) (t : Session), s.receiveOneLine env c = ((n : Int), t)
        ∧ t.view = { s.view with control := some { c.control with recv := recv } }
        ∧ (∀ d ∈ t.conn, d.multilineCode = c.multilineCode)
        ∧ t.expect = s.expect ∧ t.syncMode = s.syncMode ∧ t.file1 = s.file1 := by
  have hSelf : s.view
      = { s.view with control := some { c.control with recv := c.controlRecv } } := by
    unfold Session.view
    rw [hConn]
    rfl
  have hMulti : ∀ d ∈ s.conn, d.multilineCode = c.multilineCode := by
    rw [hConn]
    rintro _ ⟨⟩
    rfl
  unfold Session.receiveOneLine
  dsimp only
  split
  · exact .inl rfl
  split
  · exact .inr ⟨0, _, s, rfl, hSelf, hMulti, rfl, rfl, rfl⟩
  split
  · exact .inr ⟨0, _, s, rfl, hSelf, hMulti, rfl, rfl, rfl⟩
  · rename_i lineLen skipLen _
    refine .inr ⟨_, c.controlRecv.drop skipLen, _, rfl, rfl, ?_, rfl, rfl, rfl⟩
    rintro _ ⟨⟩
    rfl

/-- The queue that a line leaves has the same first check, but for one that is ignored. -/
theorem PlainReply.noted {v : View} {code : Nat} (h : PlainReply code s) (hNoted : Noted v s t) :
    PlainReply code t := by
  rcases hNoted.expect with hSame | ⟨hQuoted, hClosed⟩
  · refine ⟨?_, ?_⟩
    · rw [hSame, hNoted.file1]
      exact h.rnto
    · rw [hSame, hNoted.line, hNoted.syncMode]
      exact h.single
  · have hNot : ∀ cc : Check, cc ≠ .ignore → t.expect.firstIs cc = false := by
      intro cc hcc
      rw [hClosed]
      rcases hItems : s.expect with ⟨_ | ⟨e, items⟩, n, hn⟩
      · rfl
      · have hIgnore : e.checkCase.closed = .ignore := by
          rw [hItems] at hQuoted
          exact pop_close_of_quoted hQuoted rfl
        show decide (some e.checkCase.closed = some cc) = false
        rw [hIgnore]
        exact decide_eq_false fun hEq => hcc (Option.some.inj hEq).symm
    refine ⟨fun hFirst => ?_, ?_⟩
    · rw [hNot .rnfr nofun] at hFirst
      cases hFirst
    · rintro (⟨hFirst, -⟩ | ⟨hFirst, -⟩)
      · rw [hNot .ready nofun] at hFirst
        cases hFirst
      · rw [hNot .transferClosed nofun] at hFirst
        cases hFirst

/-- The condition on a turn that checks a reply: what the session sends by itself is
without newlines, and one expectation is dropped. -/
def PlainTurn (env : Env) (s : Session) : Prop :=
  s.nextCode env ≠ 0 → PlainEnv env ∧ (s.expect.firstIs .rnfr → ch '\n' ∉ cstr s.file1)
    ∧ ¬ DropsTwo (s.nextCode env) (s.nextLine env) s.syncMode s.expect

/-- A final reply comes to a command in flight. -/
def AnsweredTurn (env : Env) (s : Session) : Prop :=
  s.nextCode env ≠ 0 → is1XX (s.nextCode env) = true ∨ ∀ c ∈ s.conn, 0 < c.syncWait

/-- The session after a turn of `ReceiveResp`. -/
def Session.turn (env : Env) (moved : Bool) (s : Session) : Session :=
  match Session.respTurn env (moved, s) with
  | .inl x => x.2
  | .inr x => x.2

theorem Balanced.recv (h : Balanced s.view) {c : Connection} (hConn : s.conn = some c)
    {recv : Bytes} {n : Nat} (hView : t.view = { s.view with
      control := some { c.control with recv := recv, multilineCode := n } }) :
    Balanced t.view := by
  rw [hView]
  refine h.congr rfl ?_
  rintro _ ⟨⟩
  exact ⟨c.control, by rw [Session.view, hConn]; rfl, rfl, rfl, rfl, rfl⟩

theorem balanced_finalReply {c : Connection} {code : Nat} {d : Control} (hEnv : PlainEnv env)
    (hPlain : PlainReply code s) (h : Balanced s.view) (hd : s.view.control = some d)
    (hWait : d.syncWait = c.syncWait) (hRoom : is1XX code = true ∨ 0 < d.syncWait) (moved : Bool) :
    ∃ t, Balanced t.view ∧ (s.finalReply env code c moved = .inl (true, t)
      ∨ s.finalReply env code c moved = .inr (true, t)) := by
  have hAnswer : is1XX code = true ∨ 0 < c.syncWait ∨ code = 421 :=
    hRoom.imp_right fun hPos => .inl (hWait ▸ hPos)
  obtain ⟨t, u, hCounted, hMore, hResult⟩ :=
    finalReply_cases (permits_lines hEnv) hd hWait hAnswer moved
  have hReply : PlainReply code t := by
    refine ⟨?_, ?_⟩
    · rw [hCounted.expect, hCounted.file1]
      exact hPlain.rnto
    · rw [hCounted.expect, hCounted.line, hCounted.syncMode]
      exact hPlain.single
  refine ⟨u, (balanced_checkResp hEnv hReply h hd hRoom hCounted).moves hMore, ?_⟩
  rcases hResult with hOn | ⟨hOff, -⟩
  · exact .inl hOn
  · exact .inr hOff

theorem Balanced.turn (h : Balanced s.view) (hAnswered : AnsweredTurn env s)
    (hPlain : PlainTurn env s) (moved : Bool) : Balanced (s.turn env moved).view := by
  unfold Session.turn Session.respTurn
  dsimp only
  cases hConn : s.conn with
  | none => exact h
  | some c =>
      dsimp only
      rcases receiveOneLine_cases env hConn with hEnd | ⟨n, recv, t, hRead, hView, hMulti, hExpect,
        hSync, hFile⟩
      · rw [hEnd]
        exact h.moves (moves_disconnectNow env s)
      rw [hRead]
      dsimp only
      rcases Nat.eq_zero_or_pos n with rfl | hPos
      · rw [if_neg (by decide), if_pos (by decide)]
        exact h.recv hConn hView
      rw [if_neg (by omega), if_neg (by omega)]
      have hLine : s.nextLine env = t.line := by
        unfold Session.nextLine
        rw [hConn]
        dsimp only
        rw [hRead, if_neg (by simp; omega)]
      have hCode : s.nextCode env = finishes env.strictMultiline c.multilineCode t.line := by
        unfold Session.nextCode
        rw [hConn, hLine]
      obtain ⟨u, ⟨hQuiet, hResult, hNoted⟩ | ⟨hEnds, hResult, hNoted⟩⟩ :=
        handleLine_eq env moved hMulti
      · rw [hResult]
        have hStays : u.view = { s.view with control := some { c.control with
            recv := recv, multilineCode := multilineAfter c.multilineCode t.line } } := by
          rw [hNoted.view, hView]
          rfl
        exact h.recv hConn hStays
      · rw [hResult]
        have hMade := hCode ▸ hEnds
        obtain ⟨hEnv, hRnto, hSingle⟩ := hPlain hMade
        have hReply : PlainReply (s.nextCode env) u := by
          refine PlainReply.noted ⟨?_, ?_⟩ hNoted
          · rw [hExpect, hFile]
            exact hRnto
          · rw [hExpect, hSync, ← hLine]
            exact hSingle
        have hEnd : u.view = { s.view with
            control := some { c.control with recv := recv, multilineCode := 0 } } := by
          rw [hNoted.view, hView]
          rfl
        have hControl : u.view.control
            = some { c.control with recv := recv, multilineCode := 0 } := by
          rw [hEnd]
        have hBalanced : Balanced u.view := h.recv hConn hEnd
        have hRoom := (hAnswered hMade).imp_right fun hAll => hAll c hConn
        obtain ⟨x, hx, hOn | hOff⟩ :=
          balanced_finalReply hEnv hReply hBalanced hControl rfl hRoom moved
        · rw [← hCode, hOn]
          exact hx
        · rw [← hCode, hOff]
          exact hx

/-! ## Runs -/

/-- Anything but a call of `ReceiveResp`, or a turn of its loop. -/
inductive Event
  | act (o : Action)
  | turn (env : Env) (moved : Bool)

/-- The session after an event. -/
def event (s : Session) : Event → Session
  | .act o => act s o
  | .turn env moved => s.turn env moved

/-- What happens to a session: final replies come to commands in flight. -/
def Served (s : Session) : Event → Prop
  | .act (.respond _) => False
  | .act (.other t) => s.Same t
  | .act _ => True
  | .turn env _ => AnsweredTurn env s

/-- No command holds a newline, and no reply drops two expectations. -/
def Plain (s : Session) : Event → Prop
  | .act (.request r) => r.cmd.LfFree
  | .act (.urgent _ r) => r.cmd.LfFree
  | .act _ => True
  | .turn env _ => PlainTurn env s

/-- The commands in flight and those in the buffer are as many as the expectations, and
the next one is flushed whole. -/
def Paired (s : Session) : Prop :=
  ∀ c ∈ s.conn, ∃ sent kept, c.commands = sent ++ kept ∧ c.sendCmdBuffer.data = kept.flatten
    ∧ c.syncWait + kept.length = s.expect.count
    ∧ ∀ d, c.flushSendQueueOneCmd = some d → ∃ cmd more, kept = cmd :: more ∧ crlf <:+ cmd
      ∧ d.controlSend = c.controlSend ++ cmd ∧ d.sendCmdBuffer.data = more.flatten

theorem Balanced.paired (h : Balanced s.view) : Paired s := by
  intro c hc
  obtain ⟨sent, kept, hKeeps⟩ := h c.control (Option.mem_map_of_mem _ hc)
  refine ⟨sent, kept, hKeeps.commands, hKeeps.data, hKeeps.count, fun d hFlush => ?_⟩
  obtain ⟨line, rest, hData, hLine, hSent, hControl⟩ := flushSendQueueOneCmd_spec hFlush
  obtain ⟨cmd, more, hKept, hCmd, ⟨text, hText, -⟩, hRest⟩ := hKeeps.next hData hLine
  refine ⟨cmd, more, hKept, ⟨text, hText.symm⟩, ?_, ?_⟩
  · rw [hSent, hCmd]
  · rw [← hRest]
    exact congrArg Control.data hControl

theorem balanced_of_start (h : Start s) : Balanced s.view := by
  obtain ⟨c, hConn, -, -, -, hData, hPending, hCommands, hWait⟩ := h.conn
  intro d hd
  have hControl : c.control = d := by
    have hMap : (some c).map Connection.control = some d := hConn ▸ hd
    exact Option.some.inj hMap
  have hCount : s.expect.count = 1 := by
    rw [s.expect.count_eq, h.expect]
    rfl
  rw [← hControl]
  refine ⟨[], [], hCommands, hData, nofun, hPending, ?_⟩
  show c.syncWait + 0 = (s.expect.count : Nat)
  rw [hWait, hCount]
  rfl

theorem Balanced.event {e : Event} (h : Balanced s.view) (hServed : Served s e)
    (hPlain : Plain s e) : Balanced (event s e).view := by
  cases e with
  | turn env moved => exact h.turn hServed hPlain moved
  | act o =>
      cases o with
      | request r => exact h.moves (moves_request (allows_lines hPlain) s)
      | urgent env r => exact h.moves (moves_urgentRequest env (allows_lines hPlain) s)
      | flush env all => exact h.moves (moves_flushSendQueue env all s)
      | arrive chunk =>
          exact h.onConn (f := fun c => { c with controlRecv := c.controlRecv ++ chunk })
            (fun _ => ⟨rfl, rfl, rfl, rfl⟩) rfl rfl
      | arriveEof =>
          exact h.onConn (f := fun c => { c with recvEof := true })
            (fun _ => ⟨rfl, rfl, rfl, rfl⟩) rfl rfl
      | recvFails fatal =>
          exact h.moves (moves_onConn (f := fun c => { c with recvError := some fatal })
            (fun _ => rfl) s)
      | sendFails fatal =>
          exact h.moves (moves_onConn (f := fun c => { c with sendError := some fatal })
            (fun _ => rfl) s)
      | respond env => exact hServed.elim
      | abort env => exact balanced_dataAbort env h
      | closeData env => exact h.moves (moves_dataClose env s)
      | closeExpect => exact h.moves (.of_view (view_closeExpect s))
      | disconnect env => exact balanced_disconnect env h
      | disconnectNow env => exact h.moves (moves_disconnectNow env s)
      | other t =>
          have hSame : s.Same t := hServed
          refine h.congr hSame.expect fun d hd => ?_
          obtain ⟨c, hc, -, -, -, hData, hPending, hCommands, hWait⟩ := hSame.control hd
          exact ⟨c, hc, hCommands, hData, hPending, hWait⟩

/-- In every run without newlines in commands and without a reply that drops two
expectations, commands and expectations stay paired. -/
theorem paired_of_reach
    (h : Reach Start (Guarded event fun s e => Served s e ∧ Plain s e) s) : Paired s := by
  have hBalanced : Balanced s.view :=
    h.invariant (fun _ hStart => balanced_of_start hStart) fun t e t' hReached hStep => by
      obtain ⟨⟨hServed, hPlain⟩, rfl⟩ := hStep
      exact Balanced.event hReached hServed hPlain
  exact hBalanced.paired

theorem paired_feat :
    Paired (event connected (.act (.request ⟨.cmd (bytes "FEAT"), ⟨.feat, []⟩⟩))) := by
  have hServed : Served connected (.act (.request ⟨.cmd (bytes "FEAT"), ⟨.feat, []⟩⟩)) := trivial
  have hPlain : Plain connected (.act (.request ⟨.cmd (bytes "FEAT"), ⟨.feat, []⟩⟩)) :=
    show ch '\n' ∉ cstr (bytes "FEAT") by decide
  exact paired_of_reach (.next _ (.start start_connected) ⟨⟨hServed, hPlain⟩, rfl⟩)

/-- The name of a file may hold a newline. -/
theorem not_paired_of_reach :
    ¬ ∀ s : Session, Reach Start (Guarded event Served) s → Paired s := by
  intro h
  have hServed : Served connected (.act (.request
      ⟨.cmd2 (bytes "DELE") (bytes "a\nb") none none, ⟨.fileAccess, []⟩⟩)) := trivial
  have hPaired := h _ (.next _ (.start start_connected) ⟨hServed, rfl⟩)
  obtain ⟨sent, kept, -, -, -, hFlush⟩ := hPaired _ rfl
  obtain ⟨cmd, more, -, hEnd, hSent, -⟩ := hFlush _ rfl
  have hCmd : cmd = bytes "DELE a\n" := hSent.symm
  rw [hCmd] at hEnd
  exact absurd hEnd (by decide)

end Lftp.Ports.Ftp
