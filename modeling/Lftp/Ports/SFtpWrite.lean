import Mathlib.Algebra.Group.Nat.Defs
import Mathlib.Algebra.Group.Int.Defs
import Lftp.Verified.Decimal

/-!
# Buffering what is to be stored over SFTP

`SFtp::Write` takes as much of the caller's data as the rate limit, the buffer and the size of
the file leave room for. `Accounts` is what it is for: of `size` bytes the first `n` go to
`file_buf` and are counted, and the answer is `n`.

Where the rate limit does not allow all of it, the code sets the amount to what the limit
leaves beyond `send_buf`, whatever was asked for. `Spills` says when this is more than there
is; `write_accounts_iff` says that nothing else goes wrong.
-/

namespace Lftp.Ports.SFtpWrite

open Lftp.Verified

/-- `FA::open_mode` -/
inductive OpenMode
  | closed
  | retrieve
  | store
  | longList
  | list
  | mpList
  | changeDir
  | makeDir
  | removeDir
  | remove
  | quoteCmd
  | rename
  | arrayInfo
  | connectVerify
  | changeMode
  | link
  | symlink
  deriving DecidableEq

/-- `SFtp::state_t` -/
inductive State
  | disconnected
  | connecting
  | connecting1
  | connecting2
  | connected
  | fileRecv
  | fileSend
  | waiting
  | done
  deriving DecidableEq

/-- `FA::status`, without `IN_PROGRESS`, which is no error code. -/
inductive Status
  | ok
  | seeErrno
  | lookupError
  | notOpen
  | noFile
  | noHost
  | fileMoved
  | fatal
  | storeFailed
  | loginFailed
  | doAgain
  | notSupp
  | fragileFailed
  deriving DecidableEq

def Status.code : Status → Int
  | ok => 0
  | seeErrno => -100
  | lookupError => -99
  | notOpen => -98
  | noFile => -97
  | noHost => -96
  | fileMoved => -95
  | fatal => -94
  | storeFailed => -93
  | loginFailed => -92
  | doAgain => -91
  | notSupp => -90
  | fragileFailed => -89

theorem Status.code_nonpos (s : Status) : s.code ≤ 0 := by
  cases s <;> decide

/-- A value in an `int`; sums wrap. -/
def int (x : Int) : Int := x.bmod (2 ^ 32)

theorem int_of_fits {x : Int} (hLow : -2 ^ 31 ≤ x) (hHigh : x < 2 ^ 31) : int x = x := by
  unfold int
  rw [Int.bmod_def]
  split <;> omega

theorem int_of_wraps {x : Int} (hLow : 2 ^ 31 ≤ x) (hHigh : x < 2 ^ 32) : int x = x - 2 ^ 32 := by
  unfold int
  rw [Int.bmod_def]
  split <;> omega

def maxBuf : Int := 0x10000

/-- The bound of `BytesAllowed`. -/
def large : Int := 0x10000000

/-- `RateLimit`: what `BytesAllowedToPut` answers, and the sum that `BytesPut` was told. -/
structure RateLimit where
  allowed : Int
  used : Int

def RateLimit.bytesPut (r : RateLimit) (n : Int) : RateLimit := { r with used := r.used + n }

/-- The members of `SFtp` that `Write` uses. Of `send_buf` only the size counts; `file_buf`
exists in the state `FILE_SEND`. -/
structure Session where
  mode : OpenMode
  state : State
  errorCode : Status
  rateLimit : Option RateLimit
  sendBuf : Int
  fileBuf : Bytes
  pos : Int
  realPos : Int
  entitySize : Int

/-- The bytes of the memory at `buf`. -/
def firstBytes (buf : Nat → UInt8) (n : Int) : Bytes := (List.range n.toNat).map buf

namespace Session

def fileSize (s : Session) : Int := s.fileBuf.length

/-- The reduction by the rate limit. -/
def rateLimited (s : Session) (allowed size : Int) : Int :=
  if int (size + s.fileSize) > allowed then int (allowed - s.sendBuf) else size

/-- The reduction by the room in `file_buf`. -/
def bufLimited (s : Session) (size : Int) : Int :=
  if int (size + s.fileSize) > maxBuf then int (maxBuf - s.fileSize) else size

/-- The reduction by the size of the file. -/
def entityLimited (s : Session) (size : Int) : Int :=
  if s.entitySize ≥ 0 ∧ s.pos + size > s.entitySize then int (s.entitySize - s.pos) else size

/-- The end of `Write`. -/
def putData (s : Session) (r : RateLimit) (buf : Nat → UInt8) (size : Int) : Int × Session :=
  if size ≤ 0 then (0, s)
  else
    (size,
      { s with
        fileBuf := s.fileBuf ++ firstBytes buf size
        rateLimit := some (r.bytesPut size)
        pos := s.pos + size
        realPos := s.realPos + size })

/-- `SFtp::Write`; `doStep` is what `Resume` and `Do` make of the session. -/
def write (doStep : Session → Session) (s : Session) (buf : Nat → UInt8) (size : Int) :
    Int × Session :=
  if s.mode ≠ .store then (0, s)
  else
    let s := doStep s
    if s.errorCode ≠ .ok then (s.errorCode.code, s)
    else if s.state ≠ .fileSend then (Status.doAgain.code, s)
    else
      match s.rateLimit with
      | none => (Status.doAgain.code, s)
      | some r =>
          if s.sendBuf > 2 * maxBuf then (Status.doAgain.code, s)
          else if r.allowed = 0 then (Status.doAgain.code, s)
          else s.putData r buf (s.entityLimited (s.bufLimited (s.rateLimited r.allowed size)))

variable {doStep : Session → Session} {s : Session} {r : RateLimit} {buf : Nat → UInt8}
  {size allowed : Int}

/-- The session before anything is buffered. -/
def entered (doStep : Session → Session) (s : Session) : Session :=
  if s.mode ≠ .store then s else doStep s

/-- The first `n` bytes of the caller's data were buffered and counted. -/
def Accounts (s : Session) (buf : Nat → UInt8) (size n : Int) (t : Session) : Prop :=
  n ≤ 0 ∧ t = s ∨
    0 < n ∧ n ≤ size ∧ t.fileBuf = s.fileBuf ++ firstBytes buf n ∧ t.pos = s.pos + n ∧
      t.realPos = s.realPos + n ∧ t.rateLimit = s.rateLimit.map (·.bytesPut n)

/-- What the types of the members and the limiter leave. -/
structure Ranges (s : Session) : Prop where
  file : s.fileSize < 2 ^ 31
  send : 0 ≤ s.sendBuf ∧ s.sendBuf < 2 ^ 31
  allowed : ∀ r, s.rateLimit = some r → 0 ≤ r.allowed ∧ r.allowed ≤ large

/-- `Write` comes to the reductions. -/
structure Sending (doStep : Session → Session) (s : Session) (r : RateLimit) : Prop where
  mode : s.mode = .store
  noError : (doStep s).errorCode = .ok
  state : (doStep s).state = .fileSend
  limiter : (doStep s).rateLimit = some r
  sendBuf : (doStep s).sendBuf ≤ 2 * maxBuf
  allowed : r.allowed ≠ 0

/-- More is left by the limits than there is: the limiter does not allow all of it and what it
leaves beyond `send_buf` is more, and neither `file_buf` nor the file is short enough to hide
this; or the file is so short that the room does not fit an `int`. -/
def Spills (s : Session) (allowed size : Int) : Prop :=
  if 0 ≤ s.entitySize ∧ s.entitySize - s.pos < -2 ^ 31 then
    max size 0 < int (s.entitySize - s.pos)
  else
    allowed < int (size + s.fileSize) ∧ max size 0 < allowed - s.sendBuf ∧
      (max size 0 < maxBuf - s.fileSize ∨ 2 ^ 31 ≤ allowed - s.sendBuf + s.fileSize) ∧
      (0 ≤ s.entitySize → max size 0 < s.entitySize - s.pos)

theorem write_of_sending (h : Sending doStep s r) :
    write doStep s buf size = (doStep s).putData r buf ((doStep s).entityLimited
      ((doStep s).bufLimited ((doStep s).rateLimited r.allowed size))) := by
  unfold write
  rw [if_neg (not_not.mpr h.mode)]
  dsimp only
  rw [if_neg (not_not.mpr h.noError), if_neg (not_not.mpr h.state), h.limiter]
  dsimp only
  rw [if_neg (Int.not_lt.mpr h.sendBuf), if_neg h.allowed]

theorem write_of_not_sending (h : ∀ r, ¬ Sending doStep s r) :
    (write doStep s buf size).1 ≤ 0 ∧ (write doStep s buf size).2 = entered doStep s := by
  unfold write entered
  split
  · exact ⟨Int.le_refl 0, rfl⟩
  · rename_i hMode
    dsimp only
    split
    · exact ⟨Status.code_nonpos _, rfl⟩
    · rename_i hError
      split
      · exact ⟨Status.code_nonpos .doAgain, rfl⟩
      · rename_i hState
        split
        · exact ⟨Status.code_nonpos .doAgain, rfl⟩
        · rename_i r hLimiter
          split
          · exact ⟨Status.code_nonpos .doAgain, rfl⟩
          · rename_i hSend
            split
            · exact ⟨Status.code_nonpos .doAgain, rfl⟩
            · rename_i hAllowed
              exact absurd ⟨not_not.mp hMode, not_not.mp hError, not_not.mp hState, hLimiter,
                Int.not_lt.mp hSend, hAllowed⟩ (h r)

theorem putData_accounts_iff (hLimiter : s.rateLimit = some r) (n : Int) :
    Accounts s buf size (s.putData r buf n).1 (s.putData r buf n).2 ↔ n ≤ max size 0 := by
  unfold Accounts putData
  split
  · rename_i hNone
    constructor
    · intro _
      omega
    · intro _
      exact .inl ⟨Int.le_refl 0, rfl⟩
  · rename_i hSome
    rw [hLimiter]
    constructor
    · intro h
      rcases h with h | h
      · exact absurd h.1 hSome
      · have hSize := h.2.1
        omega
    · intro h
      exact .inr ⟨by omega, by omega, rfl, rfl, rfl, rfl⟩

/-- All the reductions together. -/
theorem limited_le_iff (h : Ranges s) (hLimiter : s.rateLimit = some r) (hLow : -2 ^ 31 ≤ size)
    (hHigh : size < 2 ^ 31) :
    s.entityLimited (s.bufLimited (s.rateLimited r.allowed size)) ≤ max size 0 ↔
      ¬ Spills s r.allowed size := by
  have hFile : 0 ≤ s.fileSize := Int.natCast_nonneg _
  have hFileHigh := h.file
  have hSend := h.send
  have hAllowed := h.allowed r hLimiter
  have hLeft : int (r.allowed - s.sendBuf) = r.allowed - s.sendBuf :=
    int_of_fits (by omega) (by unfold large at hAllowed; omega)
  have hRoom : int (maxBuf - s.fileSize) = maxBuf - s.fileSize :=
    int_of_fits (by unfold maxBuf; omega) (by unfold maxBuf; omega)
  have hSum : ∀ x, -2 ^ 31 ≤ x → x < 2 ^ 31 → int (x + s.fileSize) =
      if x + s.fileSize < 2 ^ 31 then x + s.fileSize else x + s.fileSize - 2 ^ 32 := by
    intro x hxLow hxHigh
    split
    · exact int_of_fits (by omega) (by omega)
    · exact int_of_wraps (by omega) (by omega)
  have hRate : s.rateLimited r.allowed size =
      if r.allowed < int (size + s.fileSize) then r.allowed - s.sendBuf else size := by
    unfold rateLimited
    rw [hLeft]
  have hRateLow : -2 ^ 31 ≤ s.rateLimited r.allowed size := by
    rw [hRate]
    split <;> omega
  have hRateHigh : s.rateLimited r.allowed size < 2 ^ 31 := by
    unfold large at hAllowed
    rw [hRate]
    split <;> omega
  have hBuf : s.bufLimited (s.rateLimited r.allowed size) =
      if maxBuf < int (s.rateLimited r.allowed size + s.fileSize) then maxBuf - s.fileSize
      else s.rateLimited r.allowed size := by
    unfold bufLimited
    rw [hRoom]
  rw [hSum _ hRateLow hRateHigh] at hBuf
  rw [hSum _ hLow hHigh] at hRate
  have hBufLow : -2 ^ 31 ≤ s.bufLimited (s.rateLimited r.allowed size) := by
    unfold maxBuf at hBuf
    rw [hBuf]
    split_ifs <;> omega
  have hBufHigh : s.bufLimited (s.rateLimited r.allowed size) < 2 ^ 31 := by
    unfold maxBuf at hBuf
    rw [hBuf]
    split_ifs <;> omega
  unfold Spills entityLimited
  by_cases hFar : 0 ≤ s.entitySize ∧ s.entitySize - s.pos < -2 ^ 31
  · have hPast : s.entitySize ≥ 0 ∧
        s.pos + s.bufLimited (s.rateLimited r.allowed size) > s.entitySize := by omega
    rw [if_pos hFar, if_pos hPast]
    exact Int.not_lt.symm
  · have hEntity : (if s.entitySize ≥ 0 ∧
          s.pos + s.bufLimited (s.rateLimited r.allowed size) > s.entitySize then
          int (s.entitySize - s.pos) else s.bufLimited (s.rateLimited r.allowed size)) =
        if s.entitySize ≥ 0 ∧
          s.entitySize - s.pos < s.bufLimited (s.rateLimited r.allowed size) then
          s.entitySize - s.pos else s.bufLimited (s.rateLimited r.allowed size) := by
      split
      · rename_i hPast
        rw [if_pos ⟨hPast.1, by omega⟩]
        exact int_of_fits (by omega) (by omega)
      · rename_i hWithin
        rw [if_neg (by omega)]
    rw [if_neg hFar, hEntity, hBuf, hRate, hSum _ hLow hHigh]
    clear hBuf hRate hEntity hSum hLeft hRoom hBufLow hBufHigh hRateLow hRateHigh
    unfold maxBuf large at *
    generalize s.fileSize = f at *
    generalize s.sendBuf = b at *
    split_ifs <;> omega

theorem write_accounts_iff (h : Ranges (doStep s)) (hLow : -2 ^ 31 ≤ size)
    (hHigh : size < 2 ^ 31) :
    Accounts (entered doStep s) buf size (write doStep s buf size).1 (write doStep s buf size).2 ↔
      ∀ r, Sending doStep s r → ¬ Spills (doStep s) r.allowed size := by
  by_cases hSending : ∃ r, Sending doStep s r
  · rcases hSending with ⟨r, hr⟩
    have hEntered : entered doStep s = doStep s := if_neg (not_not.mpr hr.mode)
    rw [write_of_sending hr, hEntered, putData_accounts_iff hr.limiter,
      limited_le_iff h hr.limiter hLow hHigh]
    constructor
    · intro hSpills r' hr'
      have hSame : r' = r := Option.some.inj (hr'.limiter.symm.trans hr.limiter)
      rw [hSame]
      exact hSpills
    · exact fun hAll => hAll r hr
  · have hNone : ∀ r, ¬ Sending doStep s r := not_exists.mp hSending
    constructor
    · exact fun _ r hr => absurd hr (hNone r)
    · exact fun _ => .inl (write_of_not_sending hNone)

/-- A file of unknown size is being sent; three bytes wait and the limiter allows twelve. -/
def limitedTo12 : Session where
  mode := .store
  state := .fileSend
  errorCode := .ok
  rateLimit := some ⟨12, 0⟩
  sendBuf := 0
  fileBuf := bytes "abc"
  pos := 3
  realPos := 3
  entitySize := -1

theorem ranges_limitedTo12 : Ranges limitedTo12 where
  file := by decide
  send := by decide
  allowed := by
    intro r hr
    cases hr
    decide

/-- Of ten bytes twelve are taken. -/
theorem write_takes_12_of_10 :
    (write id limitedTo12 (fun i => i.toUInt8) 10).1 = 12 ∧
      (write id limitedTo12 (fun i => i.toUInt8) 10).2.fileBuf.length = 15 ∧
      ¬ Accounts (entered id limitedTo12) (fun i => i.toUInt8) 10
        (write id limitedTo12 (fun i => i.toUInt8) 10).1
        (write id limitedTo12 (fun i => i.toUInt8) 10).2 := by
  have hTaken : (write id limitedTo12 (fun i => i.toUInt8) 10).1 = 12 := by decide
  constructor
  · exact hTaken
  · constructor
    · decide
    · intro h
      unfold Accounts at h
      rw [hTaken] at h
      rcases h with h | h
      · exact absurd h.1 (by decide)
      · exact absurd h.2.1 (by decide)

theorem write_accounts_5 :
    Accounts (entered id limitedTo12) (fun i => i.toUInt8) 5
        (write id limitedTo12 (fun i => i.toUInt8) 5).1
        (write id limitedTo12 (fun i => i.toUInt8) 5).2 ↔
      ∀ r, Sending id limitedTo12 r → ¬ Spills limitedTo12 r.allowed 5 :=
  @write_accounts_iff id limitedTo12 (fun i => i.toUInt8) 5 ranges_limitedTo12 (by decide)
    (by decide)

end Session

end Lftp.Ports.SFtpWrite
