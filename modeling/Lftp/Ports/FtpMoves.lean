import Lftp.Ports.FtpControl
import Lftp.Verified.Lines
import Mathlib.Logic.Relation

/-!
# What a session does to its control connection

`View` is what framing and pairing are about: the bytes to be read, the unsent
commands and the counters. `Move` is what one operation can do to it, and every
function of `Lftp.Ports.FtpControl` below `ReceiveResp` makes `Moves`.

A `Rights` says which texts may be put into the command buffer, and whether SSL may
start and an expectation may be dropped, so that an invariant needs to be shown for
the moves it knows only.
-/

namespace Lftp.Ports.Ftp

open Lftp.Verified Lftp.Ports.ParseCmd

/-! ## The buffer -/

def crlf : Bytes := [ch '\r', ch '\n']

/-- What was put into the buffer comes after what was there. `clean` is a condition on
what is put, under which no newline gets in. -/
def Fed (clean : Prop) (b b' : SendBuffer) : Prop :=
  ∃ out, b'.data = b.data ++ out
    ∧ (clean → ch '\n' ∉ b.pending → ch '\n' ∉ out ∧ ch '\n' ∉ b'.pending)

theorem Fed.refl (clean : Prop) (b : SendBuffer) : Fed clean b b :=
  ⟨[], (List.append_nil _).symm, fun _ h => ⟨List.not_mem_nil, h⟩⟩

theorem Fed.mono {p q : Prop} {b b' : SendBuffer} (h : Fed p b b') (hq : q → p) : Fed q b b' := by
  obtain ⟨out, hData, hClean⟩ := h
  exact ⟨out, hData, fun h => hClean (hq h)⟩

theorem Fed.trans {p : Prop} {b b' b'' : SendBuffer} (h : Fed p b b') (h' : Fed p b' b'') :
    Fed p b b'' := by
  obtain ⟨out, hData, hClean⟩ := h
  obtain ⟨out', hData', hClean'⟩ := h'
  refine ⟨out ++ out', by rw [hData', hData, List.append_assoc], fun hp hPending => ?_⟩
  have hMid := hClean hp hPending
  have hEnd := hClean' hp hMid.2
  exact ⟨fun hMem => (List.mem_append.mp hMem).elim hMid.1 hEnd.1, hEnd.2⟩

theorem fed_put (b : SendBuffer) (s : Bytes) : Fed (ch '\n' ∉ s) b (b.put s) := by
  unfold SendBuffer.put
  cases b.translator with
  | none => exact ⟨s, rfl, fun hs h => ⟨hs, h⟩⟩
  | some t =>
      refine ⟨(t.run (b.pending ++ s)).1, rfl, fun hs h => t.newline _ fun hMem => ?_⟩
      exact (List.mem_append.mp hMem).elim h hs

theorem fed_putRaw (b : SendBuffer) (s : Bytes) : Fed (ch '\n' ∉ s) b (b.putRaw s) :=
  ⟨s, rfl, fun hs h => ⟨hs, h⟩⟩

theorem fed_reset (clean : Prop) (b : SendBuffer) : Fed clean b b.resetTranslation :=
  ⟨[], (List.append_nil _).symm, fun _ _ => ⟨List.not_mem_nil, List.not_mem_nil⟩⟩

theorem fed_putNul (clean : Prop) (b : SendBuffer) (c : UInt8) : Fed clean b (b.putNul c) := by
  unfold SendBuffer.putNul
  split
  · exact (fed_putRaw b [0]).mono fun _ => by decide
  · exact .refl clean b

/-- One byte with the NUL after it. -/
theorem fed_putByte (b : SendBuffer) (c : UInt8) :
    Fed (c ≠ ch '\n') b ((b.put [c]).putNul c) :=
  ((fed_put b [c]).mono fun h hMem => h (List.mem_singleton.mp hMem).symm).trans
    (fed_putNul _ _ c)

theorem fed_send (b : SendBuffer) (s : Bytes) : Fed (ch '\n' ∉ cstr s) b (b.send s) := by
  induction s generalizing b with
  | nil => exact .refl _ b
  | cons c s ih =>
      unfold SendBuffer.send
      split
      · exact .refl _ b
      · rename_i hc
        rw [cstr_cons hc]
        refine ((fed_putByte b c).mono fun h => ?_).trans ((ih _).mono fun h => ?_)
        · exact fun hEq => h (hEq ▸ List.mem_cons_self)
        · exact fun hMem => h (List.mem_cons_of_mem c hMem)

theorem ne_zero_of_isXDigit {c : UInt8} (h : isXDigit c = true) : c ≠ 0 := by
  rintro rfl
  cases h

/-- A C string begins as the text does. -/
theorem exists_append_of_cstr {s t : Bytes} (h : cstr s = t) : ∃ r, s = t ++ r := by
  obtain ⟨r, hr⟩ := List.takeWhile_prefix (p := fun c : UInt8 => decide (c ≠ 0)) (l := s)
  exact ⟨r, by rw [← h]; exact hr.symm⟩

theorem fed_sendEncoded (b : SendBuffer) (u : Bytes) :
    Fed (ch '\n' ∉ percentDecode (cstr u)) b (b.sendEncoded u) := by
  induction b, u using SendBuffer.sendEncoded.induct with
  | case1 b => exact .refl _ b
  | case2 b c x y s hEsc code ih =>
      have hDecoded : percentDecode (cstr (c :: x :: y :: s)) = code :: percentDecode (cstr s) := by
        have hPercent : c ≠ 0 := by
          rw [hEsc.1]
          decide
        rw [cstr_cons hPercent, cstr_cons (ne_zero_of_isXDigit hEsc.2.1),
          cstr_cons (ne_zero_of_isXDigit hEsc.2.2), percentDecode, if_pos (by simp [hEsc])]
      rw [SendBuffer.sendEncoded, if_pos hEsc, hDecoded]
      refine .trans ?_ (ih.mono fun h hMem => h (List.mem_cons_of_mem _ hMem))
      refine (((fed_putRaw b [code]).mono fun h => ?_).trans (fed_reset _ _)).trans
        (fed_putNul _ _ code)
      exact fun hMem => h (List.mem_singleton.mp hMem ▸ List.mem_cons_self)
  | case3 b x y s hEsc =>
      rw [SendBuffer.sendEncoded, if_neg hEsc, if_pos rfl]
      exact .refl _ b
  | case4 b c x y s hEsc hc ih =>
      have hDecoded : percentDecode (cstr (c :: x :: y :: s))
          = c :: percentDecode (cstr (x :: y :: s)) := by
        rw [cstr_cons hc]
        refine percentDecode_cons_of fun x' y' t ht => ?_
        obtain ⟨r, hr⟩ := exists_append_of_cstr ht
        cases hr
        exact hEsc
      rw [SendBuffer.sendEncoded, if_neg hEsc, if_neg hc, hDecoded]
      refine ((fed_putByte b c).mono fun h => ?_).trans
        (ih.mono fun h hMem => h (List.mem_cons_of_mem _ hMem))
      exact fun hEq => h (hEq ▸ List.mem_cons_self)
  | case5 b s hShort =>
      rw [SendBuffer.sendEncoded, if_pos rfl]
      · exact .refl _ b
      · exact fun x y t => hShort x y t
  | case6 b c s hShort hc ih =>
      have hDecoded : percentDecode (cstr (c :: s)) = c :: percentDecode (cstr s) := by
        rw [cstr_cons hc]
        refine percentDecode_cons_of fun x y t ht => ?_
        obtain ⟨r, hr⟩ := exists_append_of_cstr ht
        exact absurd hr (hShort x y (t ++ r))
      rw [SendBuffer.sendEncoded, if_neg hc, hDecoded]
      · refine ((fed_putByte b c).mono fun h => ?_).trans
          (ih.mono fun h hMem => h (List.mem_cons_of_mem _ hMem))
        exact fun hEq => h (hEq ▸ List.mem_cons_self)
      · exact fun x y t => hShort x y t

/-- No text of the command holds a newline, once its URL is decoded. -/
def Cmd.LfFree : Cmd → Prop
  | .cmd text => ch '\n' ∉ cstr text
  | .cmd2 name f u home => ch '\n' ∉ cstr name ∧
    match u with
    | some u =>
      ch '\n' ∉ cstr (uriStart u home).1 ∧ ch '\n' ∉ percentDecode (cstr (uriStart u home).2)
    | none => ch '\n' ∉ cstr f

theorem fed_sendCRNL {p : Prop} {b b' : SendBuffer} (h : Fed p b b') :
    ∃ text, b'.sendCRNL.data = b.data ++ (text ++ crlf) ∧ b'.sendCRNL.pending = []
      ∧ (p → ch '\n' ∉ b.pending → ch '\n' ∉ text) := by
  obtain ⟨text, hData, hClean⟩ := h
  refine ⟨text, ?_, rfl, fun hp hPending => (hClean hp hPending).1⟩
  show b'.data ++ crlf = _
  rw [hData, List.append_assoc]

/-- A command adds its text and a line end. -/
theorem sendCmd_spec (b : SendBuffer) (cmd : Cmd) :
    ∃ text, (b.sendCmd cmd).data = b.data ++ (text ++ crlf) ∧ (b.sendCmd cmd).pending = []
      ∧ (cmd.LfFree → ch '\n' ∉ b.pending → ch '\n' ∉ text) := by
  cases cmd with
  | cmd text => exact fed_sendCRNL (fed_send b text)
  | cmd2 cmd f u home =>
      have hCmd : Fed (ch '\n' ∉ cstr cmd) b
          (if cmd ≠ [] then (b.send cmd).put [ch ' '] else b) := by
        split
        · exact (fed_send b cmd).trans ((fed_put _ _).mono fun _ => by decide)
        · exact .refl _ b
      cases u with
      | none =>
          exact fed_sendCRNL ((hCmd.mono And.left).trans ((fed_send _ f).mono And.right))
      | some u =>
          have hUri := (hCmd.mono And.left).trans ((fed_send _ (uriStart u home).1).mono
            fun h : ch '\n' ∉ cstr cmd ∧ ch '\n' ∉ cstr (uriStart u home).1
              ∧ ch '\n' ∉ percentDecode (cstr (uriStart u home).2) => h.2.1)
          exact fed_sendCRNL (hUri.trans ((fed_sendEncoded _ _).mono fun h => h.2.2))

/-! ## Views and moves -/

/-- The control connection as its server and its commands are concerned. -/
structure Control where
  recv : Bytes
  recvEof : Bool
  multilineCode : Nat
  data : Bytes
  pending : Bytes
  commands : List Bytes
  syncWait : Int

/-- The session as its control connection is concerned; `auth` when the reply to `AUTH` is
expected. -/
structure View where
  control : Option Control
  count : Nat
  auth : Bool
  received : Bytes
  checked : List Nat
  disconnects : Nat

def Connection.control (c : Connection) : Control where
  recv := c.controlRecv
  recvEof := c.recvEof
  multilineCode := c.multilineCode
  data := c.sendCmdBuffer.data
  pending := c.sendCmdBuffer.pending
  commands := c.commands
  syncWait := c.syncWait

def Session.view (s : Session) : View where
  control := s.conn.map Connection.control
  count := s.expect.count
  auth := s.expect.has .authTls
  received := s.received
  checked := s.checked
  disconnects := s.disconnects

/-- What may be done: the texts of commands, that a reply to `AUTH` is expected, the start
of SSL, and that an expectation is dropped. -/
structure Rights where
  text : Bytes → Prop
  auth : Prop
  ssl : Prop
  drop : Prop

/-- What a request expects is allowed, and the texts that its command puts. -/
structure Rights.Allows (a : Rights) (r : Request) : Prop where
  auth : r.expect.checkCase = .authTls → a.auth
  text : ∀ b : SendBuffer, b.pending = [] → ∀ text,
    (b.sendCmd r.cmd).data = b.data ++ (text ++ crlf) → a.text text

/-- One operation on the control connection. -/
inductive Move (a : Rights) (v : View) : View → Prop
  | request {c : Control} {text : Bytes} {auth : Bool} (hc : v.control = some c)
      (h : c.pending = [] → a.text text) (hAuth : auth = true → v.auth = true ∨ a.auth) :
      Move a v { v with
        control := some { c with
          data := c.data ++ (text ++ crlf)
          pending := []
          commands := c.commands ++ [text ++ crlf] }
        count := v.count + 1
        auth := auth }
  | flush {c : Control} {line rest : Bytes} (hc : v.control = some c)
      (hData : c.data = line ++ ch '\n' :: rest) (hLine : ch '\n' ∉ line) :
      Move a v { v with control := some { c with data := rest, syncWait := c.syncWait + 1 } }
  | ssl {c : Control} (hc : v.control = some c) (h : a.ssl) :
      Move a v { v with control := some { c with recv := [], recvEof := false } }
  | drop {auth : Bool} (h : a.drop) (hAuth : auth = true → v.auth = true) :
      Move a v { v with count := v.count - 1, auth := auth }
  | called : Move a v { v with disconnects := v.disconnects + 1 }
  | lost (n : Nat) (auth : Bool) : Move a v { v with
      control := none, count := n, auth := auth, disconnects := v.disconnects + 1 }
  | gone (hc : v.control = none) (n : Nat) (auth : Bool) :
      Move a v { v with count := n, auth := auth }

/-- Another state of the same command connection looks the same but for the checks. -/
theorem Session.Same.control {s t : Session} (h : s.Same t) {d : Control}
    (hd : d ∈ t.view.control) : ∃ c ∈ s.view.control, d.recv = c.recv ∧ d.recvEof = c.recvEof
      ∧ d.multilineCode = c.multilineCode ∧ d.data = c.data ∧ d.pending = c.pending
      ∧ d.commands = c.commands ∧ d.syncWait = c.syncWait := by
  obtain ⟨d', hd', rfl⟩ := Option.map_eq_some_iff.mp hd
  have hSome : s.conn.isSome = true := by
    rw [← h.conn, hd']
    rfl
  obtain ⟨c, hc⟩ := Option.isSome_iff_exists.mp hSome
  obtain ⟨hRecv, hEof, hMulti, hBuffer, hCommands, hWait⟩ := h.fields c hc d' hd'
  exact ⟨c.control, Option.mem_map_of_mem _ hc, hRecv, hEof, hMulti,
    congrArg SendBuffer.data hBuffer, congrArg SendBuffer.pending hBuffer, hCommands, hWait⟩

/-- The session gets from one state to another by moves. -/
def Moves (a : Rights) (s t : Session) : Prop :=
  Relation.ReflTransGen (Move a) s.view t.view

variable {a : Rights} {s t u : Session}

theorem Moves.of_view (h : t.view = s.view) : Moves a s t := by
  unfold Moves
  rw [h]

theorem Moves.refl (s : Session) : Moves a s s := .of_view rfl

theorem Moves.trans (h : Moves a s t) (h' : Moves a t u) : Moves a s u :=
  Relation.ReflTransGen.trans h h'

/-- A session may be looked at as another one with the same view. -/
theorem Moves.of_same (h : Moves a t u) (hView : t.view = s.view) : Moves a s u :=
  .trans (.of_view hView) h

theorem Moves.of_move (h : Move a s.view t.view) : Moves a s t := .single h

theorem Moves.ite {p : Prop} [Decidable p] {t u : Session} (ht : p → Moves a s t)
    (hu : ¬ p → Moves a s u) : Moves a s (if p then t else u) := by
  split
  · exact ht ‹_›
  · exact hu ‹_›

/-! ## Sending and disconnecting -/

theorem view_onConn {f : Connection → Connection} (hf : ∀ c, (f c).control = c.control)
    (s : Session) : (s.onConn f).view = s.view := by
  have hMap : (s.conn.map f).map Connection.control = s.conn.map Connection.control := by
    rw [Option.map_map]
    exact congrArg (s.conn.map ·) (funext hf)
  unfold Session.onConn Session.view
  rw [← hMap]

theorem moves_onConn {f : Connection → Connection} (hf : ∀ c, (f c).control = c.control)
    (s : Session) : Moves a s (s.onConn f) :=
  .of_view (view_onConn hf s)

@[simp] theorem view_dataClose (env : Env) (s : Session) : (s.dataClose env).view = s.view := by
  unfold Session.dataClose
  cases hConn : s.conn with
  | none => rfl
  | some c =>
      unfold Session.view
      rw [hConn]
      rfl

theorem moves_dataClose (env : Env) (s : Session) : Moves a s (s.dataClose env) :=
  .of_view (view_dataClose env s)

theorem moves_disconnectNow (env : Env) (s : Session) : Moves a s (s.disconnectNow env) := by
  have hView : (s.disconnectNow env).view
      = { (s.dataClose env).view with
          control := none
          count := 0
          auth := false
          disconnects := (s.dataClose env).disconnects + 1 } := by
    unfold Session.disconnectNow
    dsimp only
    split_ifs <;> rfl
  refine .of_move ?_
  have hDisconnects : (s.dataClose env).disconnects = s.view.disconnects :=
    congrArg View.disconnects (view_dataClose env s)
  rw [hView, view_dataClose, hDisconnects]
  exact .lost 0 false

/-- A check that is looked for is the one that is pushed, or it was there. -/
theorem has_push (q : ExpectQueue) (e : Expect) (c : Check) :
    (q.push e).has c = (q.has c || decide (e.checkCase = c)) := by
  simp [ExpectQueue.has, ExpectQueue.push, List.any_append]

theorem has_of_pop {q : ExpectQueue} {c : Check} (h : q.pop.2.has c = true) : q.has c = true := by
  rcases q with ⟨_ | ⟨e, items⟩, n, hn⟩
  · exact h
  · change items.any _ = true at h
    show (e :: items).any _ = true
    rw [List.any_cons, h, Bool.or_true]

/-- `Close` leaves `AUTH` alone, and makes nothing else of it. -/
theorem has_authTls_close (q : ExpectQueue) : q.close.has .authTls = q.has .authTls := by
  have hClosed : ∀ c : Check, c.closed = .authTls ↔ c = .authTls := by
    intro c
    cases c <;> decide
  simp [ExpectQueue.has, ExpectQueue.close, List.any_map, Function.comp_def, hClosed]

@[simp] theorem view_closeExpect (s : Session) : s.closeExpect.view = s.view := by
  unfold Session.view Session.closeExpect
  rw [has_authTls_close]
  rfl

theorem moves_request {r : Request} (h : a.Allows r) (s : Session) : Moves a s (s.request r) := by
  refine .of_move ?_
  have hAuth : (s.expect.push r.expect).has .authTls = true → s.view.auth = true ∨ a.auth := by
    intro hHas
    rw [has_push, Bool.or_eq_true, decide_eq_true_eq] at hHas
    exact hHas.imp_right h.auth
  cases hConn : s.conn with
  | none =>
      have hView : (s.request r).view = { s.view with
          count := s.view.count + 1, auth := (s.expect.push r.expect).has .authTls } := by
        simp only [Session.request, Session.onConn, Session.view, hConn]
        rfl
      rw [hView]
      exact .gone (by rw [Session.view, hConn]; rfl) _ _
  | some c =>
      obtain ⟨text, hData, hPending, -⟩ := sendCmd_spec c.sendCmdBuffer r.cmd
      have hText : c.control.pending = [] → a.text text := fun hEmpty => h.text _ hEmpty _ hData
      have hControl : (c.sendCmd r.cmd).control = { c.control with
          data := c.control.data ++ (text ++ crlf)
          pending := []
          commands := c.control.commands ++ [text ++ crlf] } := by
        simp only [Connection.sendCmd, Connection.control, hData, hPending, List.drop_left]
      have hView : (s.request r).view = { s.view with
          control := some (c.sendCmd r.cmd).control
          count := s.view.count + 1
          auth := (s.expect.push r.expect).has .authTls } := by
        simp only [Session.request, Session.onConn, Session.view, hConn]
        rfl
      rw [hView, hControl]
      exact .request (by rw [Session.view, hConn]; rfl) hText hAuth

/-- What a call of `FlushSendQueueOneCmd` moves. -/
theorem flushSendQueueOneCmd_spec {c c' : Connection} (h : c.flushSendQueueOneCmd = some c') :
    ∃ line rest, c.sendCmdBuffer.data = line ++ ch '\n' :: rest ∧ ch '\n' ∉ line
      ∧ c'.controlSend = c.controlSend ++ (line ++ [ch '\n'])
      ∧ c'.control = { c.control with data := rest, syncWait := c.syncWait + 1 } := by
  unfold Connection.flushSendQueueOneCmd at h
  split at h
  · cases h
  rename_i i hFound
  cases h
  obtain ⟨line, rest, hData, hLine, hLength⟩ := exists_line hFound
  have hSplit : c.sendCmdBuffer.data = (line ++ [ch '\n']) ++ rest := by
    rw [hData, List.append_assoc]
    rfl
  have hPrefix : (line ++ [ch '\n']).length = i + 1 := by
    rw [List.length_append, hLength]
    rfl
  refine ⟨line, rest, hData, hLine, ?_, ?_⟩
  · show c.controlSend ++ c.sendCmdBuffer.data.take (i + 1) = _
    rw [hSplit, List.take_left' hPrefix]
  · show Control.mk _ _ _ (c.sendCmdBuffer.data.drop (i + 1)) _ _ _ = _
    rw [hSplit, List.drop_left' hPrefix]
    rfl

theorem moves_flush {c d : Connection} (hc : s.conn = some c)
    (h : c.flushSendQueueOneCmd = some d) : Moves a s { s with conn := some d } := by
  obtain ⟨line, rest, hData, hLine, -, hControl⟩ := flushSendQueueOneCmd_spec h
  have hView : ({ s with conn := some d } : Session).view
      = { s.view with control := some { c.control with
          data := rest, syncWait := c.control.syncWait + 1 } } := by
    unfold Session.view
    dsimp only [Option.map_some]
    rw [hControl]
    rfl
  refine .of_move ?_
  rw [hView]
  exact .flush (by rw [Session.view, hc]; rfl) hData hLine

theorem moves_flushSendQueue (env : Env) (all : Bool) (s : Session) :
    Moves a s (s.flushSendQueue env all) := by
  unfold Session.flushSendQueue
  cases hConn : s.conn with
  | none => exact .refl s
  | some c =>
      dsimp only
      split
      · refine .trans ?_ (moves_disconnectNow env _)
        exact .ite (fun _ => .of_view rfl) fun _ => .refl s
      · have hSame : ({ s with conn := some c } : Session) = s := by rw [← hConn]
        generalize hRun : loop (Session.flushTurn s.syncMode all)
          (c.sendCmdBuffer.data.length + 1) c = run
        cases run with
        | none =>
            rw [Option.getD_none, hSame]
            exact .refl s
        | some d =>
            refine Leaves.rule (I := fun d => Moves a s { s with conn := some d })
              (Q := fun d => Moves a s { s with conn := some d }) ?_ ?_ ⟨_, hRun⟩
              (by rw [hSame]; exact .refl s)
            · intro c d hc hTurn
              unfold Session.flushTurn at hTurn
              split at hTurn
              · split at hTurn
                · cases hTurn
                  exact hc.trans (moves_flush rfl ‹_›)
                · cases hTurn
              · cases hTurn
            · intro c d hc hTurn
              unfold Session.flushTurn at hTurn
              split at hTurn
              · split at hTurn
                · cases hTurn
                · cases hTurn
                  exact hc
              · cases hTurn
                exact hc

/-- `ABOR` and `QUIT`, which the session sends by itself, and what is left to `Env`. -/
structure Permits (a : Rights) (env : Env) : Prop where
  abor : a.Allows ⟨.cmd (bytes "ABOR"), ⟨.abor, []⟩⟩
  quit : a.Allows ⟨.cmd (bytes "QUIT"), ⟨.ignore, []⟩⟩
  uTime : ∀ s, ∀ r ∈ env.uTimeRequest s, a.Allows r
  feat : ∀ s, ∀ r ∈ env.afterFeat s, a.Allows r

theorem moves_urgentRequest (env : Env) {r : Request} (h : a.Allows r) (s : Session) :
    Moves a s (s.urgentRequest env r) := by
  unfold Session.urgentRequest
  cases hConn : s.conn with
  | none => exact .refl s
  | some c =>
      dsimp only
      generalize hPre : (if ¬ s.useTelnetIac = true ∨ ¬ c.telnetLayer = true then s
        else if c.sslIsActivated = true then
          s.onConn fun c => { c with controlSend := c.controlSend ++ [255, 244, 255, 242] }
        else s.flushSendQueue env true) = t
      have hMoves : Moves a s t := by
        rw [← hPre]
        exact .ite (fun _ => .refl s) fun _ =>
          .ite (fun _ => .of_view (view_onConn (by exact fun _ => rfl) s))
            fun _ => moves_flushSendQueue env true s
      split
      · exact hMoves
      · exact hMoves.trans (moves_request h t)

variable {env : Env}

theorem moves_abortTransfer (h : Permits a env) (s : Session) :
    Moves a s (s.abortTransfer env).2 := by
  have hOpened : Moves a s { s with copyConnectionOpen := false } := .of_view rfl
  have hMoves : Moves a s ({ s with copyConnectionOpen := false } : Session).closeExpect :=
    .of_view (view_closeExpect _)
  unfold Session.abortTransfer
  split
  · exact .refl s
  dsimp only
  split_ifs
  · exact .refl s
  · exact .refl s
  · exact .refl s
  · exact moves_disconnectNow env s
  · exact hOpened
  · exact hMoves.trans (moves_dataClose env _)
  · exact hMoves.trans (moves_disconnectNow env _)
  · exact hMoves.trans (moves_disconnectNow env _)
  · refine hMoves.trans ((moves_urgentRequest env h.abor _).trans
      ((moves_flushSendQueue env true _).trans ?_))
    refine (moves_onConn (f := Connection.abortDataConnection) (fun _ => rfl) _).trans
      (moves_onConn (fun c => ?_) _)
    split <;> rfl

theorem moves_disconnectLL (h : Permits a env) (s : Session) :
    Moves a s (s.disconnectLL env) := by
  unfold Session.disconnectLL
  cases hConn : s.conn with
  | none => exact .refl s
  | some c =>
      dsimp only
      refine .ite (fun _ => .refl s) fun _ => ?_
      have hMoves : Moves a s (((s.closeExpect.abortTransfer env).2).dataClose env) :=
        ((moves_abortTransfer h s.closeExpect).of_same (view_closeExpect s)).trans
          (moves_dataClose env _)
      refine hMoves.trans (.ite (fun _ => ?_) fun _ => ?_)
      · exact (moves_request h.quit _).trans
          (.of_view (view_onConn (f := fun c => { c with quitSent := true }) (fun _ => rfl) _))
      · generalize ((s.closeExpect.abortTransfer env).2).dataClose env = t
        have hView : (t.controlClose.disconnectNow env).view
            = { t.view with
                control := none
                count := 0
                auth := false
                disconnects := t.disconnects + 1 } := by
          unfold Session.disconnectNow
          dsimp only
          split_ifs <;> rfl
        refine .of_move ?_
        show Move a t.view (t.controlClose.disconnectNow env).view
        rw [hView]
        exact .lost 0 false

/-- A call of `Disconnect` is recorded. -/
theorem moves_called (s : Session) :
    Moves a s { s with disconnects := s.disconnects + 1 } :=
  .of_move .called

theorem moves_disconnect (h : Permits a env) (s : Session) : Moves a s (s.disconnect env) :=
  (moves_called s).trans (moves_disconnectLL h _)

theorem moves_dataAbort (h : Permits a env) (s : Session) : Moves a s (s.dataAbort env) := by
  unfold Session.dataAbort
  refine (moves_abortTransfer h s).trans (.ite (fun _ => moves_disconnect h _) fun _ => .refl _)

theorem view_turnOffStatForList (env : Env) (s : Session) :
    (s.turnOffStatForList env).view = s.view := by
  have hClosed : (s.turnOffStatForList env).view = (s.dataClose env).closeExpect.view := rfl
  rw [hClosed, view_closeExpect, view_dataClose]

/-! ## Checking -/

theorem moves_restCheck (h : Permits a env) (act : Nat) (s : Session) :
    Moves a s (s.restCheck env act) :=
  .ite (fun _ => .refl s) fun _ => .ite (fun _ => .refl s) fun _ =>
    .ite (fun _ => .of_view rfl) fun _ => moves_disconnect h s

theorem view_noFileCheck (env : Env) (act : Nat) (s : Session) :
    (s.noFileCheck env act).view = s.view := by
  unfold Session.noFileCheck
  dsimp only
  split_ifs
  · rfl
  · rfl
  · exact view_dataClose env s
  · rfl
  · rfl
  · exact view_dataClose env s
  · exact view_dataClose env s
  · exact view_dataClose env s

theorem view_transferCheck (env : Env) (act : Nat) (s : Session) :
    (s.transferCheck env act).view = s.view := by
  unfold Session.transferCheck
  dsimp only
  generalize hStart : (if act = 225 ∨ act = 226 then
    s.onConn Connection.closeAbortedDataConnection else s) = t
  have hView : t.view = s.view := by
    rw [← hStart]
    split
    · exact view_onConn (f := Connection.closeAbortedDataConnection) (fun _ => rfl) s
    · rfl
  rw [← hView]
  generalize hFailed : (if act = 426 ∧ t.mode = .store then
    ({ t.dataClose env with state := .eof } : Session).setError .fatal else t) = u
  have hFail : u.view = t.view := by
    rw [← hFailed]
    split
    · exact view_dataClose env t
    · rfl
  split_ifs
  · exact view_dataClose env t
  · rfl
  · rfl
  · exact view_dataClose env t
  · rfl
  · exact (view_dataClose env u).trans hFail
  · exact (view_noFileCheck env act u).trans hFail

theorem moves_loginCheck (h : Permits a env) (act : Nat) (s : Session) :
    Moves a s (s.loginCheck env act) :=
  .ite (fun _ => .refl s) fun _ => .ite (fun _ => moves_disconnect h s) fun _ =>
    .ite (fun _ => .of_view rfl) fun _ => .ite (fun _ => moves_disconnect h s) fun _ =>
    .ite (fun _ => (moves_disconnect h s).trans (.of_view rfl)) fun _ => .refl s

theorem moves_noPassReqCheck (h : Permits a env) (act : Nat) (s : Session) :
    Moves a s (s.noPassReqCheck env act) :=
  .ite (fun _ => moves_onConn (by exact fun _ => rfl) s) fun _ =>
    .ite (fun _ => .of_view rfl) fun _ => .ite (fun _ => .refl s) fun _ =>
    .ite (fun _ => moves_disconnect h s) fun _ => .ite (fun _ => .of_view rfl) fun _ =>
    moves_disconnect h s

theorem moves_proxyCheck (h : Permits a env) (takes3XX : Bool) (act : Nat) (s : Session) :
    Moves a s (s.proxyCheck env takes3XX act) :=
  .ite (fun _ => .refl s) fun _ => .ite (fun _ => .of_view rfl) fun _ => moves_disconnect h s

theorem moves_catchInfo (h : Permits a env) (act : Nat) (s : Session) :
    Moves a s (s.catchInfo env act) :=
  .ite (fun _ => moves_disconnect h s) fun _ => .refl s

theorem moves_sendUTimeRequest (h : Permits a env) (s : Session) :
    Moves a s (s.sendUTimeRequest env) := by
  unfold Session.sendUTimeRequest
  split
  · exact moves_request (h.uTime s _ ‹_›) s
  · exact .refl s

theorem moves_fileAccess (env : Env) (act : Nat) (s : Session) :
    Moves a s (s.fileAccess env act) :=
  .ite (fun _ => .of_view rfl) fun _ => .of_view (view_noFileCheck env act s)

theorem moves_passiveOff (h : Permits a env) (s : Session) : Moves a s (s.passiveOff env) := by
  refine (moves_disconnect h _).of_same ?_
  split <;> rfl

theorem moves_passiveReply (h : Permits a env) (cc : Check) (act : Nat) (s : Session) :
    Moves a s (s.passiveReply env cc act) := by
  unfold Session.passiveReply
  split_ifs
  · exact moves_passiveOff h s
  · split
    · exact .of_view rfl
    · exact (moves_passiveOff h _).of_same rfl
    · exact (moves_disconnect h s).trans ((moves_passiveOff h _).of_same rfl)
  · exact moves_disconnect h s
  · exact .of_view rfl
  · exact moves_passiveOff h s
  · exact moves_disconnect h s

theorem moves_portReply (h : Permits a env) (act : Nat) (s : Session) :
    Moves a s (s.portReply env act) := by
  refine .ite (fun _ => .refl s) fun _ => .ite (fun _ => .of_view rfl) fun _ => ?_
  refine (moves_disconnect h _).of_same ?_
  split <;> rfl

theorem moves_greeting (h : Permits a env) (cc : Check) (act : Nat) (s : Session) :
    Moves a s (s.greeting env cc act) := by
  unfold Session.greeting
  dsimp only
  generalize hSync : (if ¬ s.syncMode = true ∧ env.autoSyncMode s = true then
    ({ s with syncMode := true } : Session).disconnect env else s) = t
  have hMoves : Moves a s t := by
    rw [← hSync]
    exact .ite (fun _ => (moves_disconnect h _).of_same rfl) fun _ => .refl s
  refine hMoves.trans (.ite (fun _ => .refl t) fun _ => .ite (fun _ => ?_) fun _ => ?_)
  · exact (moves_disconnect h t).trans (.of_view rfl)
  · exact moves_disconnect h t

theorem moves_cwdReply (h : Permits a env) (arg : Bytes) (act : Nat) (s : Session) :
    Moves a s (s.cwdReply env arg act) :=
  .ite (fun _ => .refl s) fun _ => .ite (fun _ => .of_view rfl) fun _ => moves_disconnect h s

/-- What a reply of this kind may need besides. -/
structure Covers (a : Rights) (exp : Expect) (act : Nat) (s : Session) : Prop where
  rnto : exp.checkCase = .rnfr →
    a.Allows ⟨.cmd2 (bytes "RNTO") s.file1 none none, ⟨.fileAccess, []⟩⟩
  ssl : exp.checkCase = .authTls → is2XX act ∨ is3XX act → a.ssl
  drop : exp.checkCase = .transferClosed →
    bytes "ABOR" <:+: s.line ∧ s.expect.count ≥ 2 ∧ s.expect.firstIs .abor → a.drop

theorem moves_makeSSLBuffers (h : a.ssl) (s : Session) :
    Moves a s (s.onConn Connection.makeSSLBuffers) := by
  cases hConn : s.conn with
  | none => exact .of_view (by simp [Session.onConn, Session.view, hConn])
  | some c =>
      have hView : (s.onConn Connection.makeSSLBuffers).view
          = { s.view with control := some { c.control with recv := [], recvEof := false } } := by
        simp only [Session.onConn, Session.view, hConn]
        rfl
      refine .of_move ?_
      rw [hView]
      exact .ssl (by rw [Session.view, hConn]; rfl) h

theorem count_pop (q : ExpectQueue) : q.pop.2.count = q.count - 1 := by
  rcases q with ⟨_ | ⟨e, items⟩, n, h⟩
  · show n = n - 1
    rw [h]
    rfl
  · rfl

theorem moves_pop (h : a.drop) (s : Session) : Moves a s { s with expect := s.expect.pop.2 } := by
  refine .of_move ?_
  have hView : ({ s with expect := s.expect.pop.2 } : Session).view
      = { s.view with count := s.view.count - 1, auth := s.expect.pop.2.has .authTls } := by
    unfold Session.view
    rw [count_pop]
  rw [hView]
  exact .drop h has_of_pop

theorem moves_foldl_request {rs : List Request} (h : ∀ r ∈ rs, a.Allows r) (s : Session) :
    Moves a s (rs.foldl Session.request s) := by
  induction rs generalizing s with
  | nil => exact .refl s
  | cons r rs ih =>
      exact (moves_request (h r List.mem_cons_self) s).trans
        (ih (fun r' hr' => h r' (List.mem_cons_of_mem r hr')) _)

theorem moves_checkCase (h : Permits a env) {exp : Expect} {act : Nat} {s : Session}
    (hCovers : Covers a exp act s) : Moves a s (s.checkCase env exp act) := by
  unfold Session.checkCase
  cases hCase : exp.checkCase with
  | none => exact .ite (fun _ => .refl s) fun _ => moves_disconnect h s
  | quoted =>
      exact .ite (fun _ => .of_view (view_turnOffStatForList env s)) fun _ => .refl s
  | ready => exact moves_greeting h _ act s
  | openProxy => exact moves_greeting h _ act s
  | rest => exact moves_restCheck h act s
  | cwd => exact moves_cwdReply h _ act s
  | cwdCurr => exact moves_cwdReply h _ act s
  | abor => exact moves_onConn (f := Connection.closeAbortedDataConnection) (fun _ => rfl) s
  | size => exact moves_catchInfo h act s
  | mdtm => exact moves_catchInfo h act s
  | fileAccess => exact moves_fileAccess env act s
  | pret => exact .ite (fun _ => .of_view rfl) fun _ => .refl s
  | allo => exact .ite (fun _ => .of_view rfl) fun _ => .refl s
  | pasv => exact moves_passiveReply h _ act s
  | epsv => exact moves_passiveReply h _ act s
  | port => exact moves_portReply h act s
  | rnfr =>
      exact .ite (fun _ => moves_request (hCovers.rnto hCase) s)
        fun _ => moves_fileAccess env act s
  | userProxy => exact moves_proxyCheck h _ act s
  | user => exact moves_noPassReqCheck h act s
  | passProxy => exact moves_proxyCheck h _ act s
  | acctProxy => exact moves_proxyCheck h _ act s
  | pass => exact moves_loginCheck h act s
  | transfer =>
      refine (Moves.of_view (view_transferCheck env act s)).trans ?_
      exact .ite (fun _ => moves_sendUTimeRequest h _) fun _ => .refl _
  | transferClosed =>
      refine .ite (fun hDrop => ?_) fun _ => .refl s
      exact (moves_pop (hCovers.drop hCase hDrop) s).trans
        (moves_onConn (f := Connection.closeAbortedDataConnection) (fun _ => rfl) _)
  | feat => exact .ite (fun _ => moves_foldl_request (h.feat s) s) fun _ => .refl s
  | siteUtime => exact .ite (fun _ => moves_sendUTimeRequest h s) fun _ => .refl s
  | siteUtime2 => exact .ite (fun _ => moves_sendUTimeRequest h s) fun _ => .refl s
  | optsUtf8 =>
      refine .ite (fun _ => moves_onConn (fun c => ?_) s) fun _ => .refl s
      split <;> rfl
  | lang =>
      refine .ite (fun _ => moves_onConn (fun c => ?_) s) fun _ => .refl s
      split <;> rfl
  | authTls =>
      exact .ite (fun hYes => moves_makeSSLBuffers (hCovers.ssl hCase hYes) s)
        fun _ => .ite (fun _ => .of_view rfl) fun _ => .refl s
  | ccc => exact .ite (fun _ => .of_view rfl) fun _ => .refl s
  | _ => exact .refl s

theorem expect_beforeCheck (act : Nat) (s : Session) : (s.beforeCheck act).expect = s.expect := by
  unfold Session.beforeCheck
  dsimp only
  split_ifs <;> rfl

theorem file1_beforeCheck (act : Nat) (s : Session) : (s.beforeCheck act).file1 = s.file1 := by
  unfold Session.beforeCheck
  dsimp only
  split_ifs <;> rfl

theorem line_beforeCheck (act : Nat) (s : Session) : (s.beforeCheck act).line = s.line := by
  unfold Session.beforeCheck
  dsimp only
  split_ifs <;> rfl

theorem view_beforeCheck (act : Nat) (s : Session) : (s.beforeCheck act).view = s.view := by
  unfold Session.beforeCheck
  dsimp only
  generalize hClosed : (if is1XX act = true ∧ s.passiveMode = true then
    s.onConn Connection.closeAbortedDataConnection else s) = t
  have hView : t.view = s.view := by
    rw [← hClosed]
    split
    · exact view_onConn (f := Connection.closeAbortedDataConnection) (fun _ => rfl) s
    · rfl
  rw [← hView]
  generalize hOpened : (if is1XX act = true ∧ t.expect.firstIs .transfer = true then
    ({ t.onConn fun c => { c with received150 := true } with
      copyConnectionOpen := t.copyConnectionOpen || t.state = .waiting } : Session) else t) = u
  have hOpen : u.view = t.view := by
    rw [← hOpened]
    split
    · exact view_onConn (f := fun c => { c with received150 := true }) (fun _ => rfl) t
    · rfl
  rw [← hOpen]
  split
  · exact view_onConn (f := fun c => { c with quitSent := true }) (fun _ => rfl) u
  · rfl

/-- A preliminary reply leaves everything as it is. -/
theorem view_checkResp_of_is1XX {act : Nat} (h : is1XX act = true) (s : Session) :
    (s.checkResp env act).view = s.view := by
  unfold Session.checkResp
  dsimp only
  rw [if_pos h]
  exact view_beforeCheck act s

/-- Any other reply is checked when its expectation is off the queue. -/
theorem moves_checkResp (h : Permits a env) {act : Nat} {s : Session} (hFinal : ¬ is1XX act)
    (hCovers : ∀ exp, s.expect.pop.1 = some exp →
      Covers a exp act { s with expect := s.expect.pop.2 })
    (hReady : ∀ exp, s.expect.pop.1 = some exp →
      act = 331 ∧ exp.checkCase = .ready ∧ ¬ s.syncMode ∧ s.expect.pop.2.count > 1 → a.drop) :
    Moves a { s with expect := s.expect.pop.2 } (s.checkResp env act) := by
  have hQueue := expect_beforeCheck act s
  have hSync : (s.beforeCheck act).syncMode = s.syncMode := by
    unfold Session.beforeCheck
    dsimp only
    split_ifs <;> rfl
  have hView : ({ s.beforeCheck act with expect := s.expect.pop.2 } : Session).view
      = ({ s with expect := s.expect.pop.2 } : Session).view := by
    have hBefore := view_beforeCheck act s
    simp only [Session.view, View.mk.injEq] at hBefore ⊢
    exact ⟨hBefore.1, trivial, trivial, hBefore.2.2.2⟩
  have hFile := file1_beforeCheck act s
  have hLine := line_beforeCheck act s
  unfold Session.checkResp
  dsimp only
  rw [if_neg hFinal]
  generalize s.beforeCheck act = t at hQueue hSync hView hFile hLine ⊢
  cases hPop : t.expect.pop with
  | mk head expect =>
      rw [hQueue] at hPop
      rw [hPop] at hView hCovers hReady ⊢
      cases head with
      | none =>
          have hSame : ({ t with expect := expect } : Session).view = t.view := by
            have hEmpty : expect = t.expect := by
              rw [hQueue]
              rcases hItems : s.expect with ⟨_ | ⟨e, items⟩, n, hn⟩
              · rw [hItems] at hPop
                exact (Prod.mk.inj hPop).2.symm
              · rw [hItems] at hPop
                cases hPop
            rw [hEmpty]
          rw [hSame] at hView
          refine .ite (fun _ => .of_view hView) fun _ => (moves_disconnect h t).of_same hView
      | some exp =>
          refine .ite (fun hExtra => ?_) fun _ => ?_
          · have hDrop := hReady exp rfl ⟨hExtra.1, hExtra.2.1, hSync ▸ hExtra.2.2.1, hExtra.2.2.2⟩
            refine Moves.of_same ?_ hView
            exact (moves_pop hDrop { t with expect := expect }).trans
              ((moves_disconnect h _).of_same rfl)
          · refine Moves.of_same (moves_checkCase h ?_) hView
            have hCover := hCovers exp rfl
            exact ⟨hFile ▸ hCover.rnto, hCover.ssl, hLine ▸ hCover.drop⟩

/-! ## Lines -/

theorem Move.disconnects_le {v w : View} (h : Move a v w) : v.disconnects ≤ w.disconnects := by
  cases h with
  | called => exact Nat.le_succ _
  | lost n => exact Nat.le_succ _
  | request => exact Nat.le_refl _
  | flush => exact Nat.le_refl _
  | ssl => exact Nat.le_refl _
  | drop => exact Nat.le_refl _
  | gone => exact Nat.le_refl _

/-- What holds at first and is kept by a move holds in the end. -/
theorem Moves.rule {I : View → Prop} (hMove : ∀ v w, I v → Move a v w → I w) (h : Moves a s t)
    (hs : I s.view) : I t.view := by
  have hViews : ∀ w, Relation.ReflTransGen (Move a) s.view w → I w := by
    intro w hw
    induction hw with
    | refl => exact hs
    | tail _ hNext ih => exact hMove _ _ ih hNext
  exact hViews _ h

theorem Moves.disconnects_le (h : Moves a s t) : s.disconnects ≤ t.disconnects :=
  h.rule (I := fun v => s.disconnects ≤ v.disconnects)
    (fun _ _ hv hMove => hv.trans hMove.disconnects_le) (Nat.le_refl _)

/-- Everything is allowed but for `AUTH`, maybe, and SSL. -/
def Rights.free (auth ssl : Prop) : Rights := ⟨fun _ => True, auth, ssl, True⟩

/-- The session does not send `AUTH` by itself while it takes replies. -/
structure NoAuth (env : Env) : Prop where
  uTime : ∀ s, ∀ r ∈ env.uTimeRequest s, r.expect.checkCase ≠ .authTls
  feat : ∀ s, ∀ r ∈ env.afterFeat s, r.expect.checkCase ≠ .authTls

theorem allows_free {auth ssl : Prop} {r : Request} (h : r.expect.checkCase = .authTls → auth) :
    (Rights.free auth ssl).Allows r :=
  ⟨h, fun _ _ _ _ => trivial⟩

theorem permits_free {auth ssl : Prop} (h : auth ∨ NoAuth env) :
    Permits (.free auth ssl) env :=
  ⟨allows_free nofun, allows_free nofun,
    fun s r hr => allows_free fun hAuth => h.resolve_right fun hNot => hNot.uTime s r hr hAuth,
    fun s r hr => allows_free fun hAuth => h.resolve_right fun hNot => hNot.feat s r hr hAuth⟩

/-- A call of `Disconnect` shows. -/
theorem disconnects_disconnect (env : Env) (s : Session) :
    s.disconnects < (s.disconnect env).disconnects := by
  have hPermits : Permits (.free True True) env := permits_free (.inl trivial)
  exact Nat.lt_of_lt_of_le (Nat.lt_succ_self _)
    (moves_disconnectLL hPermits { s with disconnects := s.disconnects + 1 }).disconnects_le

theorem disconnects_disconnectNow (env : Env) (s : Session) :
    s.disconnects < (s.disconnectNow env).disconnects := by
  have hView : (s.dataClose env).disconnects = s.disconnects :=
    congrArg View.disconnects (view_dataClose env s)
  have hNow : (s.disconnectNow env).disconnects = (s.dataClose env).disconnects + 1 := by
    unfold Session.disconnectNow
    dsimp only
    split_ifs <;> rfl
  omega

/-- The code of the reply that a line ends, 0 when it does not end one. -/
def finishes (strict : Bool) (multi : Nat) (l : Bytes) : Nat :=
  let code := Session.replyCode l
  if multi ≠ 0 ∧ multi ≠ code ∧ strict then 0
  else if l[3]? = some (ch '-') then 0
  else if multi ≠ 0 ∧ l[3]? ≠ some (ch ' ') then 0
  else code

/-- `multiline_code` after a line that does not end a reply. -/
def multilineAfter (multi : Nat) (l : Bytes) : Nat :=
  if multi = 0 ∧ l[3]? = some (ch '-') then Session.replyCode l else multi

/-- What the text of a line does at most: it may close the queue. -/
structure Noted (v : View) (s t : Session) : Prop where
  view : t.view = v
  line : t.line = s.line
  file1 : t.file1 = s.file1
  syncMode : t.syncMode = s.syncMode
  expect : t.expect = s.expect ∨ s.expect.firstIs .quoted ∧ t.expect = s.expect.close

theorem Noted.onConn {v : View} {s t : Session} (h : Noted v s t) {f : Connection → Connection}
    (hf : ∀ c, (f c).control = c.control) : Noted v s (t.onConn f) :=
  ⟨(view_onConn hf t).trans h.view, h.line, h.file1, h.syncMode, h.expect⟩

theorem noted_turnOffStatForList (env : Env) {s : Session} (h : s.expect.firstIs .quoted) :
    Noted s.view s (s.turnOffStatForList env) := by
  have hKept : (s.dataClose env).line = s.line ∧ (s.dataClose env).file1 = s.file1
      ∧ (s.dataClose env).syncMode = s.syncMode ∧ (s.dataClose env).expect = s.expect := by
    unfold Session.dataClose
    split
    · exact ⟨rfl, rfl, rfl, rfl⟩
    · exact ⟨rfl, rfl, rfl, rfl⟩
  exact ⟨view_turnOffStatForList env s, hKept.1, hKept.2.1, hKept.2.2.1,
    .inr ⟨h, congrArg ExpectQueue.close hKept.2.2.2⟩⟩

theorem Noted.ite {v : View} {s t u : Session} {p : Prop} [Decidable p] (ht : p → Noted v s t)
    (hu : ¬ p → Noted v s u) : Noted v s (if p then t else u) := by
  split
  · exact ht ‹_›
  · exact hu ‹_›

theorem noted_putData (env : Env) (code : Nat) (c : Connection) (s : Session) :
    Noted s.view s (s.putData env code c) := by
  have hSelf : Noted s.view s s := ⟨rfl, rfl, rfl, rfl, .inl rfl⟩
  unfold Session.putData
  dsimp only
  refine .ite (fun _ => hSelf) fun hData => ?_
  have hQuoted : s.expect.firstIs .quoted = true :=
    Decidable.by_contra fun h => hData (.inl h)
  refine .ite (fun _ => hSelf.onConn fun _ => rfl) fun _ => ?_
  generalize hStat : (if (code ≠ 0 ∧ s.line.length > 4) ∧ (s.line[3]? = some (ch '-')
      ∧ c.multilineCode = 0) ∧ bytes "FTP server status" <:+: s.line.drop 4 then
    s.turnOffStatForList env else s) = t
  have hNoted : Noted s.view s t := by
    rw [← hStat]
    exact .ite (fun _ => noted_turnOffStatForList env hQuoted) fun _ => hSelf
  exact .ite (fun _ => hNoted) fun _ => .ite (fun _ => hNoted) fun _ =>
    hNoted.onConn fun _ => rfl

/-- The view with another `multiline_code`. -/
def View.atMulti (v : View) (n : Nat) : View :=
  { v with control := v.control.map fun c => { c with multilineCode := n } }

theorem View.atMulti_self {v : View} {n : Nat} (h : ∀ c ∈ v.control, c.multilineCode = n) :
    v.atMulti n = v := by
  rcases v with ⟨control, count, auth, received, checked, disconnects⟩
  cases control with
  | none => rfl
  | some c =>
      have hc := h c rfl
      subst hc
      rfl

theorem onConn_congr {f g : Connection → Connection} {s : Session}
    (h : ∀ c ∈ s.conn, f c = g c) : s.onConn f = s.onConn g := by
  unfold Session.onConn
  rw [Option.map_congr h]

theorem view_setMulti (n : Nat) (s : Session) :
    (s.onConn fun c => { c with multilineCode := n }).view = s.view.atMulti n := by
  simp only [Session.onConn, Session.view, View.atMulti, Option.map_map]
  rfl

/-- What becomes of a line: it ends a reply, or it is one of the others. -/
theorem handleLine_eq (env : Env) {c : Connection} (moved : Bool) {s : Session}
    (hMulti : ∀ d ∈ s.conn, d.multilineCode = c.multilineCode) :
    ∃ t, (finishes env.strictMultiline c.multilineCode s.line = 0
        ∧ s.handleLine env c moved = .inl (moved, t)
        ∧ Noted (s.view.atMulti (multilineAfter c.multilineCode s.line)) s t)
      ∨ (finishes env.strictMultiline c.multilineCode s.line ≠ 0
        ∧ s.handleLine env c moved
          = t.finalReply env (finishes env.strictMultiline c.multilineCode s.line) c moved
        ∧ Noted (s.view.atMulti 0) s t) := by
  have hSelf : s.view.atMulti c.multilineCode = s.view := by
    refine View.atMulti_self fun d hd => ?_
    obtain ⟨e, he, rfl⟩ := Option.map_eq_some_iff.mp hd
    exact hMulti e he
  have hFinishes : finishes env.strictMultiline c.multilineCode s.line
      = (let code := if c.multilineCode ≠ 0 ∧ c.multilineCode ≠ Session.replyCode s.line
            ∧ env.strictMultiline then 0 else Session.replyCode s.line
        if code = 0 then 0 else if s.line[3]? = some (ch '-') then 0
        else if c.multilineCode ≠ 0 ∧ s.line[3]? ≠ some (ch ' ') then 0 else code) := by
    unfold finishes
    dsimp only
    split_ifs <;> simp_all
  rw [hFinishes]
  unfold Session.handleLine
  dsimp only
  generalize hCode : (if c.multilineCode ≠ 0 ∧ c.multilineCode ≠ Session.replyCode s.line
    ∧ env.strictMultiline = true then 0 else Session.replyCode s.line) = code
  have hFree : c.multilineCode = 0 → code = Session.replyCode s.line := by
    intro hZero
    rw [← hCode, if_neg fun h => h.1 hZero]
  have hData := noted_putData env code c s
  generalize s.putData env code c = p at hData ⊢
  have hSame : ∀ d ∈ p.conn, d.multilineCode = c.multilineCode := by
    intro d hd
    have hMem : d.control ∈ s.view.control := by
      rw [← hData.view]
      exact Option.mem_map_of_mem Connection.control hd
    obtain ⟨e, he, hControl⟩ := Option.map_eq_some_iff.mp hMem
    exact (congrArg Control.multilineCode hControl).symm.trans (hMulti e he)
  have hNoted : ∀ ls, Noted s.view s { p with allLines := ls } := fun ls =>
    ⟨hData.view, hData.line, hData.file1, hData.syncMode, hData.expect⟩
  generalize (if c.multilineCode = 0 ∨ p.allLines = [] then p.line
    else if p.allLines.length < 0x4000 then p.allLines ++ ch '\n' :: p.line
    else p.allLines) = ls
  have hLine := hNoted ls
  rw [← hData.line] at hFree ⊢
  split_ifs with hZero hDash hSpace
  · refine ⟨_, .inl ⟨rfl, rfl, ?_⟩⟩
    unfold multilineAfter
    split
    · rename_i hOpen
      rw [← hFree hOpen.1, hZero, ← hOpen.1, hSelf]
      exact hLine
    · rw [hSelf]
      exact hLine
  · refine ⟨_, .inl ⟨rfl, rfl, ?_, hLine.line, hLine.file1, hLine.syncMode, hLine.expect⟩⟩
    rw [← hLine.view, multilineAfter]
    rcases Nat.eq_zero_or_pos c.multilineCode with hOpen | hWithin
    · rw [if_pos ⟨hOpen, hDash⟩, ← hFree hOpen, ← view_setMulti]
      exact congrArg Session.view (onConn_congr fun d hd => if_pos ((hSame d hd).trans hOpen))
    · rw [if_neg fun h => by omega, hLine.view, hSelf, ← hLine.view]
      refine (congrArg Session.view (onConn_congr fun d hd => ?_)).trans
        (view_onConn (f := fun d => d) (fun _ => rfl) _)
      exact if_neg fun hZero => by have := hSame d hd; omega
  · refine ⟨_, .inl ⟨rfl, rfl, ?_⟩⟩
    rw [multilineAfter, if_neg fun h => hDash h.2, hSelf]
    exact hLine
  · refine ⟨_, .inr ⟨hZero, rfl, ?_, hLine.line, hLine.file1, hLine.syncMode, hLine.expect⟩⟩
    rw [← hLine.view]
    exact view_setMulti 0 _

/-! ## Final replies -/

/-- `sync_wait` after a reply. -/
def waitAfter (code : Nat) (wait : Int) : Int :=
  if is1XX code = false ∧ wait > 0 then wait - 1 else wait

/-- The session as `CheckResp` gets it. -/
structure Counted (code : Nat) (d : Control) (s t : Session) : Prop where
  view : t.view = { s.view with
    control := some { d with syncWait := waitAfter code d.syncWait }
    checked := s.checked ++ [code] }
  expect : t.expect = s.expect
  syncMode : t.syncMode = s.syncMode
  line : t.line = s.line
  file1 : t.file1 = s.file1

/-- A reply with a command is counted and checked; the loop goes on, or the session
disconnects. -/
theorem finalReply_cases (h : Permits a env) {code : Nat} {c : Connection} {d : Control}
    (hd : s.view.control = some d) (hWait : d.syncWait = c.syncWait)
    (hRoom : is1XX code = true ∨ 0 < c.syncWait ∨ code = 421) (moved : Bool) :
    ∃ t u, Counted code d s t ∧ Moves a (t.checkResp env code) u
      ∧ (s.finalReply env code c moved = .inl (true, u)
        ∨ s.finalReply env code c moved = .inr (true, u)
          ∧ (t.checkResp env code).disconnects < u.disconnects) := by
  have hAnswer : ¬ (¬ is1XX code = true ∧ c.syncWait ≤ 0 ∧ code ≠ 421) := by
    rintro ⟨hFinal, hNone, hCode⟩
    rcases hRoom with hYes | hYes | hYes
    · exact hFinal hYes
    · omega
    · exact hCode hYes
  unfold Session.finalReply
  rw [if_neg hAnswer]
  dsimp only
  generalize hCounted : (if ¬ is1XX code = true ∧ c.syncWait > 0 then
    s.onConn fun c => { c with syncWait := c.syncWait - 1 } else s) = t₁
  have hView : t₁.view = { s.view with
      control := some { d with syncWait := waitAfter code d.syncWait } } := by
    obtain ⟨e, he, rfl⟩ := Option.map_eq_some_iff.mp hd
    rw [← hCounted]
    unfold waitAfter
    rw [hWait]
    split_ifs with hYes hSame hSame
    · unfold Session.onConn Session.view
      rw [he, ← hWait]
      rfl
    · exact absurd ⟨by simpa using hYes.1, hYes.2⟩ hSame
    · exact absurd ⟨by simpa using hSame.1, hSame.2⟩ hYes
    · unfold Session.view
      rw [he, ← hWait]
      rfl
  have hSame : t₁.expect = s.expect ∧ t₁.syncMode = s.syncMode ∧ t₁.line = s.line
      ∧ t₁.file1 = s.file1 ∧ t₁.checked = s.checked := by
    rw [← hCounted]
    split_ifs <;> exact ⟨rfl, rfl, rfl, rfl, rfl⟩
  have hCheck : Counted code d s { t₁ with checked := t₁.checked ++ [code] } := by
    refine ⟨?_, hSame.1, hSame.2.1, hSame.2.2.1, hSame.2.2.2.1⟩
    have hEq : ({ t₁ with checked := t₁.checked ++ [code] } : Session).view
        = { t₁.view with checked := t₁.checked ++ [code] } := rfl
    rw [hEq, hView, hSame.2.2.2.2]
  generalize ({ t₁ with checked := t₁.checked ++ [code] } : Session) = t at hCheck ⊢
  generalize hChecked : t.checkResp env code = u
  split_ifs
  · refine ⟨t, _, hCheck, ?_, .inr ⟨rfl, ?_⟩⟩
    · rw [hChecked]
      exact (moves_disconnect h _).of_same rfl
    · rw [hChecked]
      exact disconnects_disconnect env
        { u with persistRetries := u.persistRetries + 1, errorCode := .ok }
  · refine ⟨t, { u with persistRetries := u.persistRetries + 1 }, hCheck, ?_, .inl rfl⟩
    rw [hChecked]
    exact .of_view rfl
  · refine ⟨t, u, hCheck, ?_, .inl rfl⟩
    rw [hChecked]
    exact .refl u

end Lftp.Ports.Ftp
