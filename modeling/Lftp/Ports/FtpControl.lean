import Mathlib.Data.List.Infix
import Lftp.Ports.ParseCmd
import Lftp.Verified.Percent
import Lftp.Verified.Segments

/-!
# The FTP control connection

`Ftp::Connection` and `Ftp` as far as they send commands and take replies: the
buffer of unsent commands, the queue of expectations, `ReceiveOneLine`,
`ReceiveResp`, and `CheckResp` with the checks it calls. `Env` holds what these ask
of the settings, of the clock and of the transfer that is going on.

`controlRecv` holds the bytes from the server above the Telnet and charset layers,
and `controlSend` all that was put into `control_send`.

Sizes, dates, addresses and what the server is known to support are left out, and
so are log lines and timers. Four fields are no members of the source: `commands`
records what each command put into the buffer, `received` all bytes from the
server, `checked` the calls of `CheckResp`, and `disconnects` counts those of
`Disconnect` and `DisconnectNow`.

`Action` is what can happen to a session with a control connection.
-/

namespace Lftp.Ports.Ftp

open Lftp.Verified Lftp.Ports.ParseCmd

/-! ## Expectations -/

/-- `Ftp::Expect::expect_t`. -/
inductive Check
  | none | ignore | ready | rest | type | mode | cwd | cwdCurr | cwdStale | abor
  | size | sizeOpt | mdtm | mdtmOpt | pret | pasv | epsv | port | fileAccess | pwd | rnfr
  | user | userProxy | pass | passProxy | openProxy | acctProxy | transfer | transferClosed
  | feat | optsUtf8 | lang | siteUtime | siteUtime2 | allo | quoted
  | authTls | prot | sscn | ccc
  deriving DecidableEq

/-- `Ftp::Expect`. -/
structure Expect where
  checkCase : Check
  arg : Bytes
  deriving DecidableEq

/-- `Ftp::ExpectQueue`: the list that `first` leads to, with its `count`. -/
structure ExpectQueue where
  items : List Expect
  count : Nat
  count_eq : count = items.length
  deriving DecidableEq

namespace ExpectQueue

def new : ExpectQueue := ⟨[], 0, rfl⟩

/-- `Push`. -/
def push (q : ExpectQueue) (e : Expect) : ExpectQueue :=
  ⟨q.items ++ [e], q.count + 1, by rw [q.count_eq, List.length_append]; rfl⟩

/-- `Pop`. -/
def pop (q : ExpectQueue) : Option Expect × ExpectQueue :=
  match q with
  | ⟨[], n, h⟩ => (none, ⟨[], n, h⟩)
  | ⟨e :: items, n, h⟩ => (some e, ⟨items, n - 1, by rw [h]; rfl⟩)

/-- `IsEmpty`. -/
def isEmpty (q : ExpectQueue) : Bool := q.count = 0

/-- `Has`. -/
def has (q : ExpectQueue) (c : Check) : Bool := q.items.any fun e => e.checkCase = c

/-- `FirstIs`. -/
def firstIs (q : ExpectQueue) (c : Check) : Bool := q.items.head?.map (·.checkCase) = some c

end ExpectQueue

/-- What `ExpectQueue::Close` makes of a check. -/
def Check.closed : Check → Check
  | .cwdCurr | .cwd => .cwdStale
  | .none | .rest | .size | .sizeOpt | .mdtm | .mdtmOpt | .port | .fileAccess | .rnfr
  | .quoted => .ignore
  | .transfer => .transferClosed
  | c => c

/-- `ExpectQueue::Close`. -/
def ExpectQueue.close (q : ExpectQueue) : ExpectQueue :=
  ⟨q.items.map fun e => { e with checkCase := e.checkCase.closed }, q.count,
    by rw [q.count_eq, List.length_map]⟩

/-! ## The buffer of unsent commands -/

/-- A converter of `iconv`: what it makes of the bytes, and what it leaves for later.
A newline comes out only where one goes in. -/
structure Recoder where
  run : Bytes → Bytes × Bytes
  newline : ∀ s, ch '\n' ∉ s → ch '\n' ∉ (run s).1 ∧ ch '\n' ∉ (run s).2

/-- `DirectedBuffer`, with what its translator has not converted yet. -/
structure SendBuffer where
  data : Bytes
  translator : Option Recoder
  pending : Bytes

namespace SendBuffer

/-- `Put`. -/
def put (b : SendBuffer) (s : Bytes) : SendBuffer :=
  match b.translator with
  | none => { b with data := b.data ++ s }
  | some t =>
    let (done, left) := t.run (b.pending ++ s)
    { b with data := b.data ++ done, pending := left }

/-- `PutRaw`. -/
def putRaw (b : SendBuffer) (s : Bytes) : SendBuffer := { b with data := b.data ++ s }

/-- `ResetTranslation`. -/
def resetTranslation (b : SendBuffer) : SendBuffer := { b with pending := [] }

/-- The NUL that follows a carriage return. -/
def putNul (b : SendBuffer) (c : UInt8) : SendBuffer := if c = ch '\r' then b.putRaw [0] else b

/-- `Connection::Send`. -/
def send (b : SendBuffer) : Bytes → SendBuffer
  | [] => b
  | c :: s => if c = 0 then b else ((b.put [c]).putNul c).send s

/-- `Connection::SendEncoded`. -/
def sendEncoded (b : SendBuffer) : Bytes → SendBuffer
  | [] => b
  | c :: x :: y :: s =>
    if c = ch '%' ∧ isXDigit x ∧ isXDigit y then
      let c := UInt8.ofNat (16 * hexVal x + hexVal y)
      (((b.putRaw [c]).resetTranslation).putNul c).sendEncoded s
    else if c = 0 then b
    else ((b.put [c]).putNul c).sendEncoded (x :: y :: s)
  | c :: s => if c = 0 then b else ((b.put [c]).putNul c).sendEncoded s

/-- `Connection::SendCRNL`. -/
def sendCRNL (b : SendBuffer) : SendBuffer := (b.putRaw [ch '\r', ch '\n']).resetTranslation

end SendBuffer

/-- `strncasecmp` with the length of the first text. -/
def startsNoCase (p s : Bytes) : Bool := (s.take p.length).map toLower = p.map toLower

/-- How `SendURI` begins a URL path: what it sends first, and what is left of the path. -/
def uriStart (u : Bytes) (home : Option Bytes) : Bytes × Bytes :=
  if u.head? = some (ch '/') ∧ u[1]? = some (ch '~') then ([], u.drop 1)
  else if startsNoCase (bytes "/%2F") u then ([ch '/'], u.drop 4)
  else
    match home with
    | some home => if home ≠ [ch '/'] then (home, u) else ([], u)
    | none => ([], u)

/-- The arguments of `SendCmd`, or of `SendCmd2`; `SendCmdF` formats a text for the
former. -/
inductive Cmd
  | cmd (text : Bytes)
  | cmd2 (cmd f : Bytes) (u home : Option Bytes)

/-- `SendCmd` and `SendCmd2`. -/
def SendBuffer.sendCmd (b : SendBuffer) : Cmd → SendBuffer
  | .cmd text => (b.send text).sendCRNL
  | .cmd2 cmd f u home =>
    let b := if cmd ≠ [] then (b.send cmd).put [ch ' '] else b
    let b := match u with
      | some u => (b.send (uriStart u home).1).sendEncoded (uriStart u home).2
      | none => b.send f
    b.sendCRNL

/-! ## The connection -/

/-- `Ftp::Connection`. An error of a stream says whether it is fatal. -/
structure Connection where
  controlRecv : Bytes
  recvEof : Bool
  recvError : Option Bool
  controlSend : Bytes
  sendError : Option Bool
  sendCmdBuffer : SendBuffer
  telnetLayer : Bool
  dataSock : Bool
  abortedDataSock : Bool
  dataIobuf : Option Bytes
  quitSent : Bool
  proxyIsHttp : Bool
  canDoPasv : Bool
  ignorePass : Bool
  received150 : Bool
  translationActivated : Bool
  sslIsActivated : Bool
  multilineCode : Nat
  syncWait : Int
  commands : List Bytes

namespace Connection

/-- A command is put into `send_cmd_buffer`. -/
def sendCmd (c : Connection) (cmd : Cmd) : Connection :=
  let b := c.sendCmdBuffer.sendCmd cmd
  { c with
    sendCmdBuffer := b
    commands := c.commands ++ [b.data.drop c.sendCmdBuffer.data.length] }

/-- `FlushSendQueueOneCmd`; `none` when it returns 0. -/
def flushSendQueueOneCmd (c : Connection) : Option Connection :=
  match c.sendCmdBuffer.data.idxOf? (ch '\n') with
  | none => none
  | some lineEnd =>
    some { c with
      controlSend := c.controlSend ++ c.sendCmdBuffer.data.take (lineEnd + 1)
      sendCmdBuffer :=
        { c.sendCmdBuffer with data := c.sendCmdBuffer.data.drop (lineEnd + 1) }
      syncWait := c.syncWait + 1 }

/-- `CloseDataConnection`. -/
def closeDataConnection (c : Connection) : Connection :=
  { c with dataSock := false, dataIobuf := none }

/-- `CloseAbortedDataConnection`. -/
def closeAbortedDataConnection (c : Connection) : Connection := { c with abortedDataSock := false }

/-- `AbortDataConnection`. -/
def abortDataConnection (c : Connection) : Connection :=
  { c with abortedDataSock := c.dataSock, dataSock := false, dataIobuf := none }

/-- `MakeSSLBuffers`. -/
def makeSSLBuffers (c : Connection) : Connection :=
  { c with
    controlRecv := [], recvEof := false, recvError := none
    controlSend := [], sendError := none
    telnetLayer := false, sslIsActivated := true }

end Connection

/-! ## The session -/

/-- `FileAccess::open_mode`. -/
inductive OpenMode
  | closed | retrieve | store | longList | list | mpList | changeDir | makeDir | removeDir
  | remove | quoteCmd | rename | arrayInfo | connectVerify | changeMode | link | symlink
  deriving DecidableEq

/-- `Ftp::copy_mode_t`. -/
inductive CopyMode
  | none | source | dest
  deriving DecidableEq

/-- `Ftp::automate_state`. -/
inductive State
  | eof | initial | connecting | httpProxyConnected | connected | waiting | accepting
  | dataOpen | cwdCwdWaiting | userRespWaiting | datasocketConnecting | waiting150
  | waitingCccShutdown
  deriving DecidableEq

/-- `Ftp::pasv_state_t`. -/
inductive PasvState
  | noAddressYet | haveAddress | datasocketConnecting | httpProxyConnected
  deriving DecidableEq

/-- `FileAccess::status`, as far as it occurs here. -/
inductive ErrorCode
  | ok | noFile | fatal | storeFailed | loginFailed | lookupError | fragileFailed
  deriving DecidableEq

/-- `Ftp`. Without a connection there is no queue of expectations either. -/
structure Session where
  conn : Option Connection
  expect : ExpectQueue
  line : Bytes
  allLines : Bytes
  mode : OpenMode
  copyMode : CopyMode
  state : State
  pasvState : PasvState
  syncMode : Bool
  passiveMode : Bool
  ioFlag : Bool
  fragile : Bool
  useTelnetIac : Bool
  useStatForList : Bool
  copyPassive : Bool
  copyAddrValid : Bool
  copyConnectionOpen : Bool
  copyFailed : Bool
  disconnectOnClose : Bool
  file1 : Bytes
  errorCode : ErrorCode
  persistRetries : Nat
  maxPersistRetries : Nat
  received : Bytes
  checked : List Nat
  disconnects : Nat

/-- A command with the expectation that is pushed for its reply. -/
structure Request where
  cmd : Cmd
  expect : Expect

/-- What `Handle_PASV`, `Handle_EPSV` and `Handle_EPSV_CEPR` find in a reply; they
disconnect when the address family is not supported. -/
inductive PasvReply
  | address | noAddress | badFamily
  deriving DecidableEq

/-- Settings, the clock, and the transfer. A function takes the session at the time of
the call. -/
structure Env where
  /-- `now-control_recv->EventTime()>5` -/
  late : Bool
  strictMultiline : Bool
  useAbor : Bool
  useQuit : Bool
  webMode : Bool
  autoPassiveMode : Bool
  preferEpsv : Bool
  sslForce : Bool
  /-- an error over SSL turns SSL off instead of being reported -/
  retryWithoutSsl : Bool
  /-- `auto-sync-mode` matches the reply -/
  autoSyncMode : Session → Bool
  /-- `Retry530` -/
  retry530 : Session → Bool
  /-- `ServerSaid` one of the texts of `Transient5XX` -/
  saidTransient : Session → Bool
  /-- `NonError5XX` -/
  nonError5XX : Nat → Session → Bool
  /-- the reply says `Append/Restart not permitted` -/
  restNotPermitted : Session → Bool
  /-- `pos==0` -/
  posZero : Session → Bool
  /-- `real_pos>0` -/
  realPosPositive : Session → Bool
  /-- `NextTry` -/
  nextTry : Session → Bool
  /-- `fileset_for_info` has a current file -/
  infoWanted : Session → Bool
  /-- `entity_size==real_pos` -/
  allStored : Session → Bool
  /-- S/Key is forced and there is no reply to its challenge -/
  skeyMissing : Session → Bool
  /-- a proxy did not find the host -/
  proxyLookup : Session → Bool
  /-- `QueryStringWithUserAtHost("acct")` -/
  hasAcct : Session → Bool
  /-- `PROT P` is to be tried -/
  needsProt : Nat → Session → Bool
  /-- `utf8_supported` -/
  utf8Supported : Session → Bool
  /-- the converter to UTF-8 -/
  toUtf8 : Option Recoder
  handlePasv : Session → PasvReply
  /-- what `SendUTimeRequest` sends -/
  uTimeRequest : Session → Option Request
  /-- what is sent once the reply to `FEAT` is known -/
  afterFeat : Session → List Request

def is5XX (code : Nat) : Bool := 500 ≤ code && code < 600
def is4XX (code : Nat) : Bool := 400 ≤ code && code < 500
def is3XX (code : Nat) : Bool := 300 ≤ code && code < 400
def is2XX (code : Nat) : Bool := 200 ≤ code && code < 300
def is1XX (code : Nat) : Bool := 100 ≤ code && code < 200
def cmdUnsupported (code : Nat) : Bool := code = 500 || code = 502
def siteCmdUnsupported (code : Nat) : Bool := cmdUnsupported code || code = 501

namespace Session

/-- The connection is changed, if there is one. -/
def onConn (s : Session) (f : Connection → Connection) : Session := { s with conn := s.conn.map f }

/-- A command is sent and its reply expected. -/
def request (s : Session) (r : Request) : Session :=
  { s.onConn fun c => c.sendCmd r.cmd with expect := s.expect.push r.expect }

/-- `SetError`. -/
def setError (s : Session) (e : ErrorCode) : Session := { s with errorCode := e }

/-- `expect->Close()`. -/
def closeExpect (s : Session) : Session := { s with expect := s.expect.close }

/-- `DataClose`. -/
def dataClose (env : Env) (s : Session) : Session :=
  match s.conn with
  | none => s
  | some c =>
    { s with
      conn := some c.closeDataConnection
      disconnectOnClose := s.disconnectOnClose || (c.dataSock && env.webMode)
      state := if s.state = .dataOpen ∨ s.state = .datasocketConnecting then .waiting
        else s.state }

/-- `ControlClose`. -/
def controlClose (s : Session) : Session := { s with conn := none, expect := .new }

/-- `DisconnectNow`. -/
def disconnectNow (env : Env) (s : Session) : Session :=
  let s := (s.dataClose env).controlClose
  let s := { s with state := .initial, disconnects := s.disconnects + 1 }
  let s :=
    if s.copyMode ≠ .none then { s with copyFailed := s.copyFailed || s.copyAddrValid }
    else if s.mode = .store ∧ s.ioFlag then s.setError .storeFailed
    else if s.fragile ∧ s.ioFlag then s.setError .fragileFailed
    else s
  { s with copyAddrValid := false }

/-- A turn of the loop of `FlushSendQueue`. -/
def flushTurn (syncMode all : Bool) (c : Connection) : Connection ⊕ Connection :=
  if c.syncWait ≤ 0 ∨ all ∨ ¬ syncMode then
    match c.flushSendQueueOneCmd with
    | some c' => .inl c'
    | none => .inr c
  else .inr c

/-- `FlushSendQueue`. -/
def flushSendQueue (env : Env) (all : Bool) (s : Session) : Session :=
  match s.conn with
  | none => s
  | some c =>
    match c.sendError with
    | some fatal =>
      (if fatal ∧ ¬ env.retryWithoutSsl then s.setError .fatal else s).disconnectNow env
    | none =>
      let flushed := loop (flushTurn s.syncMode all) (c.sendCmdBuffer.data.length + 1) c
      { s with conn := some (flushed.getD c) }

/-- `SendUrgentCmd` with the `Push` after it. The process does not survive a call that
loses the connection while it flushes. -/
def urgentRequest (env : Env) (s : Session) (r : Request) : Session :=
  match s.conn with
  | none => s
  | some c =>
    let s :=
      if ¬ s.useTelnetIac ∨ ¬ c.telnetLayer then s
      else if c.sslIsActivated then
        -- the sequence that precedes the command goes around the Telnet layer
        s.onConn fun c => { c with controlSend := c.controlSend ++ [255, 244, 255, 242] }
      else s.flushSendQueue env true
    match s.conn with
    | none => s
    | some _ => s.request r

/-- `DataAbort` up to its last line; says whether it gets there. -/
def abortTransfer (env : Env) (s : Session) : Bool × Session :=
  match s.conn with
  | none => (false, s)
  | some c =>
    if s.state = .connecting ∨ c.quitSent then (false, s)
    else if ¬ c.dataSock ∧ s.copyMode = .none then (false, s)
    else if s.copyMode ≠ .none ∧ (s.expect.isEmpty ∨ ¬ s.copyAddrValid) then (false, s)
    else if s.copyMode ≠ .none ∧ ¬ s.copyConnectionOpen ∧ s.expect.firstIs .transfer then
      (false, s.disconnectNow env)
    else
      let s := { s with copyConnectionOpen := false }
      if c.dataSock ∧ s.expect.isEmpty then (false, s)
      else
        let s := s.closeExpect
        if ¬ env.useAbor ∨ s.expect.count > 1 ∨ c.proxyIsHttp then
          if s.copyMode = .none
              ∧ ¬ (s.passiveMode ∧ s.state = .datasocketConnecting
                ∧ (s.pasvState = .noAddressYet ∨ s.pasvState = .haveAddress)) then
            (false, s.dataClose env)
          else (false, s.disconnectNow env)
        else if c.abortedDataSock then (false, s.disconnectNow env)
        else
          let s := (s.urgentRequest env ⟨.cmd (bytes "ABOR"), ⟨.abor, []⟩⟩).flushSendQueue env true
          let s := s.onConn Connection.abortDataConnection
          (true, s.onConn fun c =>
            if c.sslIsActivated then c.closeAbortedDataConnection else c)

/-- `DisconnectLL`. A call that `DataAbort` makes while it runs does nothing. -/
def disconnectLL (env : Env) (s : Session) : Session :=
  match s.conn with
  | none => s
  | some c =>
    if c.quitSent then s
    else
      let s := ((s.closeExpect.abortTransfer env).2).dataClose env
      if s.conn.isSome ∧ s.state ≠ .connecting ∧ s.state ≠ .httpProxyConnected
          ∧ s.expect.count < 2 ∧ env.useQuit then
        { (s.request ⟨.cmd (bytes "QUIT"), ⟨.ignore, []⟩⟩).onConn
            fun c => { c with quitSent := true } with
          disconnectOnClose := false }
      else { s.controlClose.disconnectNow env with disconnectOnClose := false }

/-- `Disconnect`. -/
def disconnect (env : Env) (s : Session) : Session :=
  ({ s with disconnects := s.disconnects + 1 }).disconnectLL env

/-- `DataAbort`. -/
def dataAbort (env : Env) (s : Session) : Session :=
  let (done, s) := s.abortTransfer env
  if done ∧ env.webMode then s.disconnect env else s

/-- `TurnOffStatForList`. -/
def turnOffStatForList (env : Env) (s : Session) : Session :=
  { (s.dataClose env).closeExpect with state := .eof, useStatForList := false }

/-! ## Checking a reply -/

/-- `RestCheck`. -/
def restCheck (env : Env) (act : Nat) (s : Session) : Session :=
  if is2XX act ∨ is3XX act then s
  else if env.posZero s then s
  else if is5XX act then { s with copyFailed := s.copyFailed || s.copyMode ≠ .none }
  else s.disconnect env

/-- `Transient5XX`. -/
def transient5XX (env : Env) (act : Nat) (s : Session) : Bool :=
  is5XX act && (act = 530 && s.expect.firstIs .pass && env.retry530 s
    || env.saidTransient s || s.mode ≠ .store && s.ioFlag)

/-- `NoFileCheck`. -/
def noFileCheck (env : Env) (act : Nat) (s : Session) : Session :=
  if is2XX act then s
  else if cmdUnsupported act then s.setError .fatal
  else if env.realPosPositive s ∧ ¬ s.ioFlag ∧ s.copyMode = .none
      ∧ (is4XX act ∧ env.restNotPermitted s ∨ is5XX act ∧ ¬ s.transient5XX env act) then
    { s.dataClose env with state := .eof }
  else if is5XX act ∧ ¬ s.transient5XX env act then s.setError .noFile
  else if s.copyMode ≠ .none then { s with copyFailed := true }
  else
    let s := { s.dataClose env with state := .eof }
    if s.mode = .store ∧ s.ioFlag then s.setError .storeFailed
    else if env.nextTry s then s
    else s.setError .fatal

/-- The label `simulate_eof` of `TransferCheck`. -/
def simulateEof (env : Env) (s : Session) : Session := { s.dataClose env with state := .eof }

/-- `TransferCheck`. -/
def transferCheck (env : Env) (act : Nat) (s : Session) : Session :=
  let done := act = 225 ∨ act = 226
  let s := if done then s.onConn Connection.closeAbortedDataConnection else s
  let received150 := (s.conn.map (·.received150)).getD false
  let noDataSock := (s.conn.map (·.dataSock)).getD false = false
  if done ∧ ¬ received150 ∧ s.state ≠ .dataOpen then s.simulateEof env
  else if act = 211 ∨ act = 213 then s
  else if s.copyMode ≠ .none ∧ is4XX act then
    { s with copyPassive := !s.copyPassive, copyFailed := true }
  else if env.nonError5XX act s then s.simulateEof env
  else if act = 426 ∧ s.copyMode = .none ∧ noDataSock ∧ bytes "Broken pipe" <:+: s.line then s
  else
    let s :=
      if act = 426 ∧ s.mode = .store then
        ({ s.dataClose env with state := .eof }).setError .fatal
      else s
    if env.needsProt act s then { s.dataClose env with state := .eof }
    else s.noFileCheck env act

/-- `LoginCheck`. -/
def loginCheck (env : Env) (act : Nat) (s : Session) : Session :=
  if (s.conn.map (·.ignorePass)).getD false then s
  else if act = 530 ∧ env.retry530 s then s.disconnect env
  else if is5XX act then s.setError .loginFailed
  else if ¬ is2XX act ∧ ¬ is3XX act then s.disconnect env
  else if is3XX act ∧ ¬ s.expect.has .acctProxy ∧ ¬ env.hasAcct s then
    (s.disconnect env).setError .loginFailed
  else s

/-- `NoPassReqCheck`. -/
def noPassReqCheck (env : Env) (act : Nat) (s : Session) : Session :=
  if is2XX act then s.onConn fun c => { c with ignorePass := true }
  else if act = 331 ∧ env.skeyMissing s then s.setError .loginFailed
  else if is3XX act then s
  else if act = 530 ∧ env.retry530 s then s.disconnect env
  else if is5XX act then
    s.setError (if env.proxyLookup s then .lookupError else .loginFailed)
  else s.disconnect env

/-- `proxy_LoginCheck`, and `proxy_NoPassReqCheck`, which takes a 3XX reply too. -/
def proxyCheck (env : Env) (takes3XX : Bool) (act : Nat) (s : Session) : Session :=
  if is2XX act ∨ takes3XX ∧ is3XX act then s
  else if is5XX act then s.setError .loginFailed
  else s.disconnect env

/-- `proxy_LoginCheck`. -/
def proxyLoginCheck (env : Env) := proxyCheck env false

/-- `proxy_NoPassReqCheck`. -/
def proxyNoPassReqCheck (env : Env) := proxyCheck env true

/-- `CatchSIZE` and `CatchDATE`. -/
def catchInfo (env : Env) (act : Nat) (s : Session) : Session :=
  if env.infoWanted s ∧ ¬ is2XX act ∧ ¬ is5XX act then s.disconnect env else s

/-- `SendUTimeRequest`. -/
def sendUTimeRequest (env : Env) (s : Session) : Session :=
  match env.uTimeRequest s with
  | some r => s.request r
  | none => s

/-- `SetControlConnectionTranslation`. -/
def setControlConnectionTranslation (env : Env) (s : Session) : Session :=
  s.onConn fun c =>
    if c.translationActivated then c
    else
      { c with
        sendCmdBuffer := { c.sendCmdBuffer with translator := env.toUtf8 }
        translationActivated := true }

/-- The label `file_access` of `CheckResp`. -/
def fileAccess (env : Env) (act : Nat) (s : Session) : Session :=
  if (s.mode = .changeMode ∨ s.mode = .symlink) ∧ siteCmdUnsupported act then s.setError .noFile
  else s.noFileCheck env act

/-- The label `passive_off` of `CheckResp`. -/
def passiveOff (env : Env) (s : Session) : Session :=
  (if env.autoPassiveMode then { s with passiveMode := false } else s).disconnect env

/-- The cases `PASV` and `EPSV` of `CheckResp`. -/
def passiveReply (env : Env) (cc : Check) (act : Nat) (s : Session) : Session :=
  if is2XX act then
    if s.line.length ≤ 4 then s.passiveOff env
    else
      match env.handlePasv s with
      | .address => { s with pasvState := .haveAddress }
      | .noAddress => ({ s with pasvState := .noAddressYet }).passiveOff env
      | .badFamily => ({ s.disconnect env with pasvState := .noAddressYet }).passiveOff env
  else if cmdUnsupported act ∧ cc = .epsv ∧ (s.conn.map (·.canDoPasv)).getD false
      ∧ env.preferEpsv then s.disconnect env
  else if s.copyMode ≠ .none then { s with copyPassive := !s.copyPassive, copyFailed := true }
  else if is5XX act then s.passiveOff env
  else s.disconnect env

/-- The case `PORT` of `CheckResp`. -/
def portReply (env : Env) (act : Nat) (s : Session) : Session :=
  if is2XX act then s
  else if s.copyMode ≠ .none then { s with copyPassive := !s.copyPassive, copyFailed := true }
  else
    (if is5XX act ∧ env.autoPassiveMode then { s with passiveMode := true } else s).disconnect env

/-- The cases `READY` and `OPEN_PROXY` of `CheckResp`. -/
def greeting (env : Env) (cc : Check) (act : Nat) (s : Session) : Session :=
  let s :=
    if ¬ s.syncMode ∧ env.autoSyncMode s then ({ s with syncMode := true }).disconnect env else s
  if is2XX act then s
  else
    let s := s.disconnect env
    if cc = .openProxy ∧ act = 403 then s.setError .loginFailed else s

/-- The cases `CWD` and `CWD_CURR` of `CheckResp`. -/
def cwdReply (env : Env) (arg : Bytes) (act : Nat) (s : Session) : Session :=
  if is2XX act then s
  else if is5XX act ∧ arg ≠ [ch '~'] then s.setError .noFile
  else s.disconnect env

/-- The case `TRANSFER_CLOSED` of `CheckResp`. -/
def transferClosed (s : Session) : Session :=
  if bytes "ABOR" <:+: s.line ∧ s.expect.count ≥ 2 ∧ s.expect.firstIs .abor then
    { s with expect := s.expect.pop.2 }.onConn Connection.closeAbortedDataConnection
  else s

/-- The switch of `CheckResp`. -/
def checkCase (env : Env) (exp : Expect) (act : Nat) (s : Session) : Session :=
  match exp.checkCase with
  | .none => if is2XX act then s else s.disconnect env
  | .quoted =>
    if s.mode = .longList ∧ ¬ is2XX act ∧ s.useStatForList then s.turnOffStatForList env else s
  | .ready | .openProxy => s.greeting env exp.checkCase act
  | .rest => s.restCheck env act
  | .cwd | .cwdCurr => s.cwdReply env exp.arg act
  | .abor => s.onConn Connection.closeAbortedDataConnection
  | .size | .mdtm => s.catchInfo env act
  | .fileAccess => s.fileAccess env act
  | .pret => if ¬ cmdUnsupported act ∧ is5XX act then s.setError .noFile else s
  | .allo => if ¬ cmdUnsupported act ∧ is5XX act then s.setError .noFile else s
  | .pasv | .epsv => s.passiveReply env exp.checkCase act
  | .port => s.portReply env act
  | .rnfr =>
    if is3XX act then s.request ⟨.cmd2 (bytes "RNTO") s.file1 none none, ⟨.fileAccess, []⟩⟩
    else s.fileAccess env act
  | .userProxy => s.proxyNoPassReqCheck env act
  | .user => s.noPassReqCheck env act
  | .passProxy | .acctProxy => s.proxyLoginCheck env act
  | .pass => s.loginCheck env act
  | .transfer =>
    let s := s.transferCheck env act
    if s.mode = .store ∧ is2XX act ∧ env.allStored s then s.sendUTimeRequest env else s
  | .transferClosed => s.transferClosed
  | .feat => if is2XX act then (env.afterFeat s).foldl request s else s
  | .siteUtime | .siteUtime2 => if siteCmdUnsupported act then s.sendUTimeRequest env else s
  | .optsUtf8 | .lang =>
    if is2XX act ∧ env.utf8Supported s then s.setControlConnectionTranslation env else s
  | .authTls =>
    if is2XX act ∨ is3XX act then s.onConn Connection.makeSSLBuffers
    else if env.sslForce then s.setError .loginFailed
    else s
  | .ccc => if is2XX act then { s with state := .waitingCccShutdown } else s
  | .ignore | .cwdStale | .sizeOpt | .mdtmOpt | .pwd | .type | .mode | .prot | .sscn => s

/-- What `CheckResp` does before it looks at the queue. -/
def beforeCheck (act : Nat) (s : Session) : Session :=
  let s := if is1XX act ∧ s.passiveMode then s.onConn Connection.closeAbortedDataConnection else s
  let s :=
    if is1XX act ∧ s.expect.firstIs .transfer then
      { s.onConn fun c => { c with received150 := true } with
        copyConnectionOpen := s.copyConnectionOpen || s.state = .waiting }
    else s
  if act = 421 then s.onConn fun c => { c with quitSent := true } else s

/-- `CheckResp`. -/
def checkResp (env : Env) (act : Nat) (s : Session) : Session :=
  let s := s.beforeCheck act
  if is1XX act then s
  else
    match s.expect.pop with
    | (none, _) => if is2XX act then s else s.disconnect env
    | (some exp, expect) =>
      let s := { s with expect := expect }
      if act = 331 ∧ exp.checkCase = .ready ∧ ¬ s.syncMode ∧ s.expect.count > 1 then
        ({ s with expect := s.expect.pop.2, syncMode := true }).disconnect env
      else s.checkCase env exp act

/-! ## Receiving -/

/-- The loop of `ReceiveOneLine` from `nl` on: the length of the line, and how much to
skip. -/
def findLine (late : Bool) (resp : Bytes) : Nat → Bytes → Option (Nat × Nat)
  | _, [] => none
  | i, c :: rest =>
    if c ≠ ch '\n' then findLine late resp (i + 1) rest
    else if 0 < i ∧ resp[i - 1]? = some (ch '\r') then some (i - 1, i + 1)
    else if rest = [] ∧ late then some (resp.idxOf (ch '\n'), resp.idxOf (ch '\n') + 1)
    else findLine late resp (i + 1) rest

/-- A NUL after a carriage return goes away, any other becomes `!`. -/
def cleanLine : Option UInt8 → Bytes → Bytes
  | _, [] => []
  | before, c :: s =>
    if c ≠ 0 then c :: cleanLine (some c) s
    else if before ≠ some (ch '\r') then ch '!' :: cleanLine (some c) s
    else cleanLine (some c) s

/-- `ReceiveOneLine`. -/
def receiveOneLine (env : Env) (c : Connection) (s : Session) : Int × Session :=
  if c.controlRecv = [] ∧ c.recvEof then (-1, s.disconnectNow env)
  else if c.controlRecv = [] then (0, s)
  else
    let found := match findLine env.late c.controlRecv 0 c.controlRecv with
      | some found => some found
      | none => if c.recvEof then some (c.controlRecv.length, c.controlRecv.length) else none
    match found with
    | none => (0, s)
    | some (lineLen, skipLen) =>
      let line := cleanLine none (c.controlRecv.take lineLen)
      (line.length, { s with
        conn := some { c with controlRecv := c.controlRecv.drop skipLen }
        line := line })

/-- The code of a line, 0 when it does not start with one. -/
def replyCode : Bytes → Nat
  | a :: b :: c :: _ =>
    if isDigit a ∧ isDigit b ∧ isDigit c then horner 0 [a, b, c] else 0
  | _ => 0

/-- The line is data of a quoted command; it goes into `data_iobuf` without the code. -/
def putData (env : Env) (code : Nat) (c : Connection) (s : Session) : Session :=
  let first := s.line[3]? = some (ch '-') ∧ c.multilineCode = 0
  let last := s.line[3]? ≠ some (ch '-') ∧ code ≠ 0
  let text := s.line.drop 4
  let put (s : Session) (offset : Nat) : Session :=
    let offset := if s.line[offset]? = some (ch ' ') then offset + 1 else offset
    s.onConn fun c => { c with
      dataIobuf := c.dataIobuf.map fun data => data ++ s.line.drop offset ++ [ch '\n'] }
  if ¬ s.expect.firstIs .quoted ∨ c.dataIobuf = none then s
  else if s.mode ≠ .longList then put s 0
  else
    let coded := code ≠ 0 ∧ s.line.length > 4
    let s' := if coded ∧ first ∧ bytes "FTP server status" <:+: text then
        s.turnOffStatForList env
      else s
    if code ≠ 0 ∧ ¬ is2XX code then s'
    else if coded ∧ (first ∧ bytes "FTP server status" <:+: text
        ∨ first ∧ startsNoCase (bytes "Stat") text
        ∨ last ∧ startsNoCase (bytes "End") text) then s'
    else put s' (if coded then 4 else 0)

/-- What `ReceiveResp` does with a final reply; a result ends the loop. -/
def finalReply (env : Env) (code : Nat) (c : Connection) (moved : Bool) (s : Session) :
    (Bool × Session) ⊕ (Bool × Session) :=
  if ¬ is1XX code ∧ c.syncWait ≤ 0 ∧ code ≠ 421 then .inr (moved, s)
  else
    let s :=
      if ¬ is1XX code ∧ c.syncWait > 0 then
        s.onConn fun c => { c with syncWait := c.syncWait - 1 }
      else s
    let s := { s with checked := s.checked ++ [code] }.checkResp env code
    if s.errorCode = .noFile ∨ s.errorCode = .loginFailed then
      let retries := s.persistRetries
      let s := { s with persistRetries := retries + 1 }
      if retries < s.maxPersistRetries then
        .inr (true, ({ s with errorCode := .ok }).disconnect env)
      else .inl (true, s)
    else .inl (true, s)

/-- A line that `ReceiveOneLine` returned. -/
def handleLine (env : Env) (c : Connection) (moved : Bool) (s : Session) :
    (Bool × Session) ⊕ (Bool × Session) :=
  let code := replyCode s.line
  -- a reply can only terminate with the same code
  let code :=
    if c.multilineCode ≠ 0 ∧ c.multilineCode ≠ code ∧ env.strictMultiline then 0 else code
  let s := s.putData env code c
  let s := { s with
    allLines :=
      if c.multilineCode = 0 ∨ s.allLines = [] then s.line
      else if s.allLines.length < 0x4000 then s.allLines ++ ch '\n' :: s.line
      else s.allLines }
  if code = 0 then .inl (moved, s)
  else if s.line[3]? = some (ch '-') then
    .inl (moved, s.onConn fun c =>
      if c.multilineCode = 0 then { c with multilineCode := code } else c)
  else if c.multilineCode ≠ 0 ∧ s.line[3]? ≠ some (ch ' ') then .inl (moved, s)
  else finalReply env code c moved (s.onConn fun c => { c with multilineCode := 0 })

/-- A turn of the loop of `ReceiveResp`. -/
def respTurn (env : Env) : Bool × Session → (Bool × Session) ⊕ (Bool × Session)
  | (moved, s) =>
    match s.conn with
    | none => .inr (moved, s)
    | some c =>
      let (res, s) := s.receiveOneLine env c
      if res = -1 then .inr (true, s)
      else if res = 0 then .inr (moved, s)
      else s.handleLine env c moved

/-- `ReceiveResp`; says whether something moved. -/
def receiveResp (env : Env) (s : Session) : Bool × Session :=
  match s.conn with
  | none => (false, s)
  | some c =>
    match c.recvError with
    | some fatal => (true, (if fatal then s.setError .fatal else s).disconnectNow env)
    | none =>
      (loop (respTurn env) (c.controlRecv.length + 2) (false, s)).getD (false, s)

/-! ## Runs -/

/-- The same command connection, whatever else may have changed; a check of the queue
may be another one, as `SendCWD` makes it. -/
structure Same (s t : Session) : Prop where
  conn : t.conn.isSome = s.conn.isSome
  fields : ∀ c ∈ s.conn, ∀ d ∈ t.conn,
    d.controlRecv = c.controlRecv ∧ d.recvEof = c.recvEof
      ∧ d.multilineCode = c.multilineCode ∧ d.sendCmdBuffer = c.sendCmdBuffer
      ∧ d.commands = c.commands ∧ d.syncWait = c.syncWait
  expect : t.expect.count = s.expect.count
  received : t.received = s.received
  checked : t.checked = s.checked
  disconnects : t.disconnects = s.disconnects

end Session

/-- What happens to a session: it sends a command, maybe an urgent one; it flushes its
commands; bytes, the end or an error arrive on the control connection; it takes the
replies, aborts a transfer, closes, or disconnects; or anything else changes. -/
inductive Action
  | request (r : Request)
  | urgent (env : Env) (r : Request)
  | flush (env : Env) (all : Bool)
  | arrive (chunk : Bytes)
  | arriveEof
  | recvFails (fatal : Bool)
  | sendFails (fatal : Bool)
  | respond (env : Env)
  | abort (env : Env)
  | closeData (env : Env)
  | closeExpect
  | disconnect (env : Env)
  | disconnectNow (env : Env)
  | other (t : Session)

/-- The session after an action. -/
def act (s : Session) : Action → Session
  | .request r => s.request r
  | .urgent env r => s.urgentRequest env r
  | .flush env all => s.flushSendQueue env all
  | .arrive chunk =>
    { s.onConn fun c => { c with controlRecv := c.controlRecv ++ chunk } with
      received := s.received ++ chunk }
  | .arriveEof => s.onConn fun c => { c with recvEof := true }
  | .recvFails fatal => s.onConn fun c => { c with recvError := some fatal }
  | .sendFails fatal => s.onConn fun c => { c with sendError := some fatal }
  | .respond env => (s.receiveResp env).2
  | .abort env => s.dataAbort env
  | .closeData env => s.dataClose env
  | .closeExpect => s.closeExpect
  | .disconnect env => s.disconnect env
  | .disconnectNow env => s.disconnectNow env
  | .other t => t

/-- A session that has just connected, at the end of `pre_CONNECTED_STATE`: nothing is
sent yet and the greeting is expected. -/
structure Start (s : Session) : Prop where
  conn : ∃ c, s.conn = some c ∧ c.controlRecv = [] ∧ c.recvEof = false ∧ c.multilineCode = 0
    ∧ c.sendCmdBuffer.data = [] ∧ c.sendCmdBuffer.pending = [] ∧ c.commands = []
    ∧ c.syncWait = 1
  expect : s.expect.items = [⟨.ready, []⟩]
  received : s.received = []
  checked : s.checked = []

/-- One of them. -/
def connected : Session where
  conn := some {
    controlRecv := []
    recvEof := false
    recvError := none
    controlSend := []
    sendError := none
    sendCmdBuffer := ⟨[], none, []⟩
    telnetLayer := false
    dataSock := false
    abortedDataSock := false
    dataIobuf := none
    quitSent := false
    proxyIsHttp := false
    canDoPasv := true
    ignorePass := false
    received150 := false
    translationActivated := false
    sslIsActivated := false
    multilineCode := 0
    syncWait := 1
    commands := [] }
  expect := ⟨[⟨.ready, []⟩], 1, rfl⟩
  line := []
  allLines := []
  mode := .retrieve
  copyMode := .none
  state := .connected
  pasvState := .noAddressYet
  syncMode := true
  passiveMode := true
  ioFlag := false
  fragile := false
  useTelnetIac := false
  useStatForList := false
  copyPassive := false
  copyAddrValid := false
  copyConnectionOpen := false
  copyFailed := false
  disconnectOnClose := false
  file1 := []
  errorCode := .ok
  persistRetries := 0
  maxPersistRetries := 0
  received := []
  checked := []
  disconnects := 0

theorem start_connected : Start connected :=
  ⟨⟨_, rfl, rfl, rfl, rfl, rfl, rfl, rfl, rfl⟩, rfl, rfl, rfl⟩

end Lftp.Ports.Ftp
