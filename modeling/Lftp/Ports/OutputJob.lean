import Lftp.Verified.Runs
import Mathlib.Data.List.Basic

/-!
# Output before its copy is set up

What is put into an `OutputJob` goes to the input peer of a copy. A remote file needs a pipe for
that, and until there is one the data wait in `tmp_buf`. `Put` hands them over once the copy
exists; `Do` sets the copy up and leaves them where they are.

* `Sound.step`: what an input peer and `tmp_buf` hold, after any call.
* `delivered_iff`: nothing stays behind exactly when no `Do` sets up the copy of a job that has
  data waiting.
-/

namespace Lftp.Ports.OutputJob

open Lftp.Verified

variable {α : Type}

/-! ## The job -/

/-- `Buffer`: what was put into it, and whether its end was. -/
structure Buffer (α : Type) where
  data : List α
  eof : Bool
deriving DecidableEq

namespace Buffer

def empty : Buffer α := ⟨[], false⟩

def put (b : Buffer α) (data : List α) : Buffer α := { b with data := b.data ++ data }

def putEOF (b : Buffer α) : Buffer α := { b with eof := true }

end Buffer

structure State (α : Type) where
  error : Bool
  /-- There is an `fa`: the output is a remote file, and no copy has it yet. -/
  fa : Bool
  initialized : Bool
  /-- A copy has failed and is done. -/
  failed : Bool
  /-- `InputPeer()`, with all it has received -/
  input : Option (Buffer α)
  tmpBuf : Option (Buffer α)
  aborted : Bool
deriving DecidableEq

/-- `OutputJob::Error` -/
def isError (s : State α) : Bool := s.error || s.failed

/-- `OutputJob::InitCopy`; `pipe` says if there is one to be had. -/
def initCopy (pipe : Bool) (s : State α) : State α :=
  if s.error then s
  else if s.initialized then s
  else if s.fa && !pipe then s
  else
    let s := { s with fa := false, initialized := true }
    if isError s then s else { s with input := some .empty }

/-- `OutputJob::Put`, where `flush` does what comes after `InputPeer was inited`. -/
def putWith (flush : Buffer α → State α → State α) (pipe : Bool) (data : List α) (s : State α) :
    State α :=
  let s := initCopy pipe s
  if isError s then s
  else match s.input with
  | none => { s with tmpBuf := some ((s.tmpBuf.getD .empty).put data) }
  | some _ =>
    let s := match s.tmpBuf with
      | none => s
      | some saved => flush saved { s with tmpBuf := none }
    { s with input := s.input.map (Buffer.put · data) }

/-- `OutputJob::PutEOF` -/
def putEOFWith (flush : Buffer α → State α → State α) (pipe : Bool) (s : State α) : State α :=
  if isError s then s
  else
    let s := putWith flush pipe [] s
    match s.input, s.tmpBuf with
    | some peer, _ => { s with input := some peer.putEOF }
    | none, some b => { s with tmpBuf := some b.putEOF }
    | none, none => { s with aborted := true }

/-- The calls of `Put` on itself and on `PutEOF`. They find no `tmp_buf`, so they flush nothing. -/
def flush (pipe : Bool) (saved : Buffer α) (s : State α) : State α :=
  let s := if saved.data = [] then s else putWith (fun _ s => s) pipe saved.data s
  if saved.eof then putEOFWith (fun _ s => s) pipe s else s

def put (pipe : Bool) (data : List α) (s : State α) : State α := putWith (flush pipe) pipe data s

def putEOF (pipe : Bool) (s : State α) : State α := putEOFWith (flush pipe) pipe s

/-- `OutputJob::Do` -/
def doStep (pipe : Bool) (s : State α) : State α :=
  if !s.initialized && s.tmpBuf.isSome then initCopy pipe s else s

/-- A job as its constructors leave it. -/
def start (error fa : Bool) : State α := ⟨error, fa, false, false, none, none, false⟩

/-! ## Its calls -/

inductive Call (α : Type)
  | put (data : List α)
  | putEOF
  | doStep

/-- A call, and if there is a pipe to be had then. -/
structure Event (α : Type) where
  pipe : Bool
  call : Call α

/-- The job, and what it has been given. -/
structure Run (α : Type) where
  job : State α
  written : List α
  closed : Bool

def step (r : Run α) (e : Event α) : Run α :=
  match e.call with
  | .put data => { r with job := put e.pipe data r.job, written := r.written ++ data }
  | .putEOF => { r with job := putEOF e.pipe r.job, closed := true }
  | .doStep => { r with job := doStep e.pipe r.job }

/-- What waits in `tmp_buf`. -/
def parked (s : State α) : Buffer α := s.tmpBuf.getD .empty

/-- Once the copy is set up nothing waits, and the peer has all the data and its end. -/
def Delivered (r : Run α) : Prop :=
  r.job.initialized = true →
    parked r.job = .empty ∧ r.job.input = some ⟨r.written, r.closed⟩

/-- `InitCopy` would set up the copy. -/
def Starts (pipe : Bool) (s : State α) : Prop :=
  s.error = false ∧ s.initialized = false ∧ (s.fa && !pipe) = false

/-- It is not `Do` that sets up the copy while data or their end wait. -/
def Hands (r : Run α) (e : Event α) : Prop :=
  match e.call with
  | .doStep => parked r.job ≠ .empty → ¬ Starts e.pipe r.job
  | _ => True

/-- What the job has taken: what its peer has received, and what waits behind it. -/
def held (s : State α) : Buffer α :=
  let b := s.input.getD .empty
  ⟨b.data ++ (parked s).data, b.eof || (parked s).eof⟩

/-! ## A call -/

section
variable {s : State α} {b saved : Buffer α} {f : Buffer α → State α → State α} {pipe : Bool}

/-- The copy is set up, and its input peer has received `b`. -/
structure Ready (s : State α) (b : Buffer α) : Prop where
  error : isError s = false
  initialized : s.initialized = true
  input : s.input = some b

theorem initCopy_of_initialized (h : s.initialized = true) : initCopy pipe s = s := by
  simp [initCopy, h]

theorem initCopy_of_error (h : s.error = true) : initCopy pipe s = s := if_pos h

theorem initCopy_of_starts (h : Starts pipe s) (hFailed : s.failed = false) :
    initCopy pipe s = { s with fa := false, initialized := true, input := some .empty } := by
  obtain ⟨hError, hInit, hPipe⟩ := h
  rw [initCopy, if_neg (by simp [hError]), if_neg (by simp [hInit]), if_neg (by simp [hPipe])]
  exact if_neg (by simp [isError, hError, hFailed])

theorem initCopy_of_not_starts (h : ¬ Starts pipe s) : initCopy pipe s = s := by
  unfold initCopy
  split
  · rfl
  · split
    · rfl
    · rename_i hError hInit
      exact if_pos (by simpa [Starts, hError, hInit] using h)

theorem Ready.putWith (h : Ready s b) (hNone : s.tmpBuf = none) (data : List α) :
    putWith f pipe data s = { s with input := some (b.put data) } := by
  simp [OutputJob.putWith, initCopy_of_initialized h.initialized, h.error, h.input, hNone]

theorem Ready.putEOFWith (h : Ready s b) (hNone : s.tmpBuf = none) :
    putEOFWith f pipe s = { s with input := some b.putEOF } := by
  have hPut : OutputJob.putWith f pipe [] s = { s with input := some b } := by
    rw [h.putWith hNone, Buffer.put, List.append_nil]
  simp [OutputJob.putEOFWith, hPut, h.error]

/-- Flushing appends what was saved, and its end if it has one. -/
theorem Ready.flush (h : Ready s b) (hNone : s.tmpBuf = none) :
    flush pipe saved s
      = { s with input := some ⟨b.data ++ saved.data, b.eof || saved.eof⟩ } := by
  have hData : (if saved.data = [] then s
      else OutputJob.putWith (fun _ s => s) pipe saved.data s)
        = { s with input := some (b.put saved.data) } := by
    split
    · next hNil => rw [hNil, Buffer.put, List.append_nil, ← h.input]
    · exact h.putWith hNone _
  have hNext : Ready { s with input := some (b.put saved.data) } (b.put saved.data) :=
    ⟨h.error, h.initialized, rfl⟩
  rw [OutputJob.flush, hData]
  cases hEof : saved.eof with
  | false => simp [Buffer.put]
  | true =>
      rw [if_pos rfl, hNext.putEOFWith hNone]
      simp [Buffer.put, Buffer.putEOF]

/-- A job without errors, which has an input peer once it is initialized. -/
structure Valid (s : State α) : Prop where
  error : s.error = false
  failed : s.failed = false
  aborted : s.aborted = false
  input : s.input.isSome = s.initialized

theorem Valid.isError (h : Valid s) : isError s = false := by
  rw [OutputJob.isError, h.error, h.failed, Bool.or_false]

theorem Valid.initCopy (h : Valid s) : Valid (initCopy pipe s) := by
  by_cases hStarts : Starts pipe s
  · rw [initCopy_of_starts hStarts h.failed]
    exact ⟨h.error, h.failed, h.aborted, rfl⟩
  · rw [initCopy_of_not_starts hStarts]
    exact h

theorem Valid.tmpBuf_initCopy (h : Valid s) : (OutputJob.initCopy pipe s).tmpBuf = s.tmpBuf := by
  by_cases hStarts : Starts pipe s
  · rw [initCopy_of_starts hStarts h.failed]
  · rw [initCopy_of_not_starts hStarts]

theorem Valid.held_initCopy (h : Valid s) : held (OutputJob.initCopy pipe s) = held s := by
  by_cases hStarts : Starts pipe s
  · have hNone : s.input = none := by
      rw [← Option.not_isSome_iff_eq_none, h.input, hStarts.2.1]
      exact Bool.false_ne_true
    rw [initCopy_of_starts hStarts h.failed, held, held, hNone]
    rfl
  · rw [initCopy_of_not_starts hStarts]

/-- A call has left nothing behind: it went to the peer if there is one, and else it waits. -/
structure Settled (s : State α) (b : Buffer α) : Prop extends Valid s where
  held : held s = b
  flushed : s.initialized = true → s.tmpBuf = none
  parks : s.initialized = false → s.tmpBuf.isSome

theorem Valid.put (h : Valid s) (data : List α) :
    Settled (put pipe data s) ((OutputJob.held s).put data) := by
  have hValid : Valid (OutputJob.initCopy pipe s) := h.initCopy
  have hHeld : OutputJob.held (OutputJob.initCopy pipe s) = OutputJob.held s := h.held_initCopy
  rw [← hHeld, OutputJob.put, putWith]
  generalize OutputJob.initCopy pipe s = s at hValid
  dsimp only
  rw [if_neg (by simp [hValid.isError])]
  cases hInput : s.input with
  | none =>
      have hInit : s.initialized = false := by rw [← hValid.input, hInput, Option.isSome_none]
      exact {
        error := hValid.error, failed := hValid.failed, aborted := hValid.aborted
        input := hInit.symm
        held := by simp [OutputJob.held, hInput, parked, Buffer.put]
        flushed := fun hYes => absurd (hInit.symm.trans hYes) Bool.false_ne_true
        parks := fun _ => rfl }
  | some b =>
      have hInit : s.initialized = true := by rw [← hValid.input, hInput, Option.isSome_some]
      cases hTmp : s.tmpBuf with
      | none =>
          exact {
            error := hValid.error, failed := hValid.failed, aborted := hValid.aborted
            input := by simp [hInput, hInit]
            held := by simp [OutputJob.held, hInput, parked, hTmp, Buffer.put, Buffer.empty]
            flushed := fun _ => hTmp
            parks := fun hNo => absurd (hNo.symm.trans hInit) Bool.false_ne_true }
      | some saved =>
          have hReady : Ready { s with input := some b, tmpBuf := none } b :=
            ⟨hValid.isError, hInit, rfl⟩
          dsimp only
          rw [hReady.flush rfl]
          exact {
            error := hValid.error, failed := hValid.failed, aborted := hValid.aborted
            input := hInit.symm
            held := by simp [OutputJob.held, hInput, parked, hTmp, Buffer.put, Buffer.empty]
            flushed := fun _ => rfl
            parks := fun hNo => absurd (hNo.symm.trans hInit) Bool.false_ne_true }

theorem Valid.putEOF (h : Valid s) :
    Settled (putEOF pipe s) (OutputJob.held s).putEOF := by
  have hPut : Settled (putWith (OutputJob.flush pipe) pipe [] s) (OutputJob.held s) := by
    have hPut : Settled (OutputJob.put pipe [] s) ((OutputJob.held s).put []) := h.put []
    rwa [Buffer.put, List.append_nil] at hPut
  rw [OutputJob.putEOF, putEOFWith, if_neg (by simp [h.isError]), ← hPut.held]
  generalize putWith (OutputJob.flush pipe) pipe [] s = s at hPut
  dsimp only
  cases hInput : s.input with
  | some b =>
      have hInit : s.initialized = true := by rw [← hPut.input, hInput, Option.isSome_some]
      exact {
        error := hPut.error, failed := hPut.failed, aborted := hPut.aborted
        input := hInit.symm
        held := by simp [OutputJob.held, hInput, parked, hPut.flushed hInit, Buffer.putEOF]
        flushed := fun _ => hPut.flushed hInit
        parks := fun hNo => absurd (hNo.symm.trans hInit) Bool.false_ne_true }
  | none =>
      have hInit : s.initialized = false := by rw [← hPut.input, hInput, Option.isSome_none]
      obtain ⟨saved, hTmp⟩ := Option.isSome_iff_exists.mp (hPut.parks hInit)
      rw [hTmp]
      exact {
        error := hPut.error, failed := hPut.failed, aborted := hPut.aborted
        input := hInit.symm
        held := by simp [OutputJob.held, hInput, parked, hTmp, Buffer.putEOF]
        flushed := fun hYes => absurd (hInit.symm.trans hYes) Bool.false_ne_true
        parks := fun _ => rfl }

/-- What is true of a job after any calls. -/
structure Sound (r : Run α) : Prop where
  refused : r.job.error = true → r.job.initialized = false
  valid : r.job.error = false → Valid r.job ∧ held r.job = ⟨r.written, r.closed⟩

theorem put_of_error (h : s.error = true) (data : List α) : OutputJob.put pipe data s = s := by
  rw [OutputJob.put, putWith, initCopy_of_error h]
  exact if_pos (by simp [isError, h])

theorem putEOF_of_error (h : s.error = true) : OutputJob.putEOF pipe s = s :=
  if_pos (by simp [isError, h])

theorem doStep_of_error (h : s.error = true) : doStep pipe s = s := by
  rw [doStep, initCopy_of_error h, ite_self]

theorem Settled.sound {s : State α} {b : Buffer α} (h : Settled s b) {r : Run α} (hJob : r.job = s)
    (hGiven : b = ⟨r.written, r.closed⟩) : Sound r where
  refused := fun hYes => by
    rw [hJob, h.error] at hYes
    cases hYes
  valid := fun _ => by
    rw [hJob, h.held, hGiven]
    exact ⟨h.toValid, rfl⟩

theorem step_of_error {r : Run α} (h : r.job.error = true) (e : Event α) :
    (step r e).job = r.job := by
  unfold step
  split
  · exact put_of_error h _
  · exact putEOF_of_error h
  · exact doStep_of_error h

theorem Sound.step {r : Run α} (h : Sound r) (e : Event α) : Sound (step r e) := by
  cases hError : r.job.error with
  | true =>
      have hJob := step_of_error hError e
      exact {
        refused := fun _ => by rw [hJob]; exact h.refused hError
        valid := fun hNo => by
          rw [hJob, hError] at hNo
          cases hNo }
  | false =>
      obtain ⟨hValid, hHeld⟩ := h.valid hError
      obtain ⟨pipe, call⟩ := e
      cases call with
      | put data =>
          exact (hValid.put data).sound rfl (by rw [hHeld]; rfl)
      | putEOF => exact hValid.putEOF.sound rfl (by rw [hHeld]; rfl)
      | doStep =>
          rw [OutputJob.step, doStep]
          dsimp only
          split
          · exact {
              refused := fun hYes => by
                rw [hValid.initCopy.error] at hYes
                cases hYes
              valid := fun _ => ⟨hValid.initCopy, hValid.held_initCopy.trans hHeld⟩ }
          · exact h

/-- With a copy set up, it is only what waits that can be missing. -/
theorem Sound.delivered_iff_parked {r : Run α} (h : Sound r) :
    Delivered r ↔ (r.job.initialized = true → parked r.job = .empty) := by
  constructor
  · exact fun hAll hInit => (hAll hInit).1
  · intro hParked hInit
    have hError : r.job.error = false := by
      cases hError : r.job.error with
      | false => rfl
      | true => exact absurd ((h.refused hError).symm.trans hInit) Bool.false_ne_true
    obtain ⟨hValid, hHeld⟩ := h.valid hError
    obtain ⟨b, hInput⟩ := Option.isSome_iff_exists.mp (hValid.input.trans hInit)
    refine ⟨hParked hInit, ?_⟩
    rw [held, hInput, hParked hInit] at hHeld
    rw [hInput, ← hHeld]
    simp [Buffer.empty]

theorem Settled.parked {s : State α} {b : Buffer α} (h : Settled s b) (hInit : s.initialized = true) :
    parked s = .empty := by
  rw [OutputJob.parked, h.flushed hInit, Option.getD_none]

theorem Valid.doStep_parked (h : Valid s)
    (hNow : s.initialized = true → OutputJob.parked s = .empty) :
    ((doStep pipe s).initialized = true → OutputJob.parked (doStep pipe s) = .empty)
      ↔ (OutputJob.parked s ≠ .empty → ¬ Starts pipe s) := by
  by_cases hEmpty : OutputJob.parked s = .empty
  · refine iff_of_true (fun _ => ?_) fun hNe => absurd hEmpty hNe
    rw [doStep]
    split
    · rw [OutputJob.parked, h.tmpBuf_initCopy]
      exact hEmpty
    · exact hEmpty
  · have hInit : s.initialized = false := by simpa using mt hNow hEmpty
    have hSome : s.tmpBuf.isSome = true := by
      cases hTmp : s.tmpBuf with
      | none => exact absurd (by rw [OutputJob.parked, hTmp]; rfl) hEmpty
      | some b => rfl
    have hDo : doStep pipe s = OutputJob.initCopy pipe s := if_pos (by simp [hInit, hSome])
    rw [hDo]
    by_cases hStarts : Starts pipe s
    · refine iff_of_false (fun hAll => hEmpty ?_) fun hAll => hAll hEmpty hStarts
      have hParked := hAll (by rw [initCopy_of_starts hStarts h.failed])
      rwa [OutputJob.parked, h.tmpBuf_initCopy] at hParked
    · rw [initCopy_of_not_starts hStarts]
      exact iff_of_true hNow fun _ => hStarts

/-- A call leaves something behind exactly when it is a `Do` that sets up the copy too early. -/
theorem Sound.step_delivered {r : Run α} (h : Sound r) (hNow : Delivered r) (e : Event α) :
    Delivered (OutputJob.step r e) ↔ Hands r e := by
  rw [(h.step e).delivered_iff_parked]
  rw [h.delivered_iff_parked] at hNow
  cases hError : r.job.error with
  | true =>
      rw [step_of_error hError e]
      refine iff_of_true hNow ?_
      unfold Hands
      split
      · exact fun _ hStarts => Bool.false_ne_true (hStarts.1.symm.trans hError)
      · trivial
  | false =>
      obtain ⟨pipe, call⟩ := e
      obtain ⟨hValid, -⟩ := h.valid hError
      cases call with
      | put data => exact iff_of_true (hValid.put data).parked trivial
      | putEOF => exact iff_of_true hValid.putEOF.parked trivial
      | doStep => exact hValid.doStep_parked hNow

end

theorem sound_start (error fa : Bool) : Sound (α := α) ⟨start error fa, [], false⟩ where
  refused := fun _ => rfl
  valid := fun hError => ⟨⟨hError, rfl, rfl, rfl⟩, rfl⟩

/-- Whatever the calls and whenever there is a pipe, everything is delivered exactly when the copy
is not set up by a `Do` while data wait. -/
theorem delivered_iff (error fa : Bool) (es : List (Event α)) :
    (∀ es', es' <+: es → Delivered (es'.foldl step ⟨start error fa, [], false⟩))
      ↔ AllOk step Hands ⟨start error fa, [], false⟩ es :=
  allOk_iff (J := Sound) (Q := Delivered) (fun _ e h => h.step e)
    (fun _ e h hNow => h.step_delivered hNow e) (sound_start error fa) nofun es

/-- A listing put into a remote file when there is no pipe. -/
def late : List (Event Char) := [⟨false, .put ['l', 's']⟩, ⟨true, .doStep⟩, ⟨true, .doStep⟩]

theorem not_delivered :
    ¬ ∀ (error fa : Bool) (es es' : List (Event Char)),
      es' <+: es → Delivered (es'.foldl step ⟨start error fa, [], false⟩) := by
  intro h
  have hAll := h false true late late (List.prefix_refl _)
  exact absurd (hAll (by decide)).2 (by decide)

end Lftp.Ports.OutputJob
