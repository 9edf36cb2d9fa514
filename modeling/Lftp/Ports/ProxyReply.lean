import Lftp.Ports.FtpListInfo
import Lftp.Verified.Lines
import Lftp.Verified.Runs

/-!
# The reply of an HTTP proxy to `CONNECT`

`Ftp::HttpProxyReplyCheck` takes a line at a time out of what has arrived. It is called until it
returns true, or until the connection is closed.

* `call_right_iff`: a call is right exactly when the line is fit for how it is copied, without its
  last byte.
* `replies_right_iff`: a run is right as long as its lines are fit.
-/

namespace Lftp.Ports.ProxyReply

open Lftp.Verified
open Lftp.Ports.FtpListInfo (toInt)

def cr : UInt8 := 13

def lf : UInt8 := 10

/-- `is2XX` -/
def is2XX (code : Int) : Bool := 200 ≤ code && code < 300

/-- Codes after which the connection is tried again. -/
def isRetriable (code : Int) : Bool := code ∈ [408, 502, 503, 504]

/-- The number that `HTTP/%*d.%*d %d` reads. -/
def scanStatus (s : Bytes) : Option Int := do
  let s ← scanLit (bytes "HTTP/") s
  let (_, s) ← scanInt s
  let s ← scanLit (bytes ".") s
  let (_, s) ← scanInt s
  let (n, _) ← scanInt s
  some n

/-- What a call comes to. -/
inductive Answer
  /-- It returns true. -/
  | yes
  | no
  /-- `DisconnectNow` -/
  | lost
  /-- `SetError` with the line, which disconnects. -/
  | fatal (line : Bytes)
  deriving DecidableEq

/-- The line that ends at `nl`, in a block of that size and without the byte before it. -/
def copyLine (b : Bytes) (nl : Nat) : Option Bytes :=
  let size : Int := (nl : Int) - 1
  if size < 0 then none else some (cstr (b.take size.toNat))

/-- The answer to a line, and `http_proxy_status_code`. -/
def checkLine (code : Int) (line : Bytes) : Answer × Int :=
  let ready := if line = [] then Answer.yes else .no
  if code = 0 then
    match (scanStatus line).map toInt with
    | none => (.fatal line, code)
    | some code =>
      if is2XX code then (ready, code)
      else if isRetriable code then (.lost, 0)
      else (.fatal line, code)
  else (ready, code)

/-- `Ftp::HttpProxyReplyCheck`; `closed` is an end of file or an error of the buffer. -/
def httpProxyReplyCheck (code : Int) (b : Bytes) (closed : Bool) : Option (Answer × Int × Bytes) :=
  match b.idxOf? lf with
  | none => some (if closed then (.lost, 0, b) else (.no, code, b))
  | some nl =>
    (copyLine b nl).map fun line =>
      ((checkLine code line).1, (checkLine code line).2, b.drop (nl + 1))

/-! ## Runs -/

/-- How far a connection has come. -/
inductive Phase
  | waiting
  | connected
  | refused
  | lost
  | fault
  deriving DecidableEq

/-- A connection: what arrived, what is not read yet and the lines that were read. -/
structure Run where
  arrived : Bytes
  code : Int
  unread : Bytes
  lines : List Bytes
  phase : Phase

def start : Run := ⟨[], 0, [], [], .waiting⟩

inductive Event
  | arrive (b : Bytes)
  | call (closed : Bool)

/-- The phase after an answer; the line was read or there was none. -/
def Answer.phase (read : Bool) : Answer → Phase
  | yes => .connected
  | no => .waiting
  | lost => if read then .refused else .lost
  | fatal _ => .refused

/-- A call, where one is made. -/
def call (r : Run) (closed : Bool) : Run :=
  if r.phase ≠ .waiting then r
  else
    match httpProxyReplyCheck r.code r.unread closed with
    | none => { r with phase := .fault }
    | some (answer, code, unread) =>
      let read := r.unread.idxOf? lf
      { r with
        code, unread, phase := answer.phase read.isSome,
        lines := r.lines ++ (read.map fun nl => r.unread.take nl).toList }

def step (r : Run) : Event → Run
  | .arrive b => { r with arrived := r.arrived ++ b, unread := r.unread ++ b }
  | .call closed => call r closed

/-! ## What is right -/

/-- The text of a line that ends in CR LF or LF. -/
def text (line : Bytes) : Bytes := if line.getLast? = some cr then line.dropLast else line

/-- A status line with a number from 200 to 299. -/
def Accepts (line : Bytes) : Prop := ∃ n, scanStatus (cstr (text line)) = some n ∧ is2XX n = true

/-- Lines that begin a reply, and do not end it. -/
def Begins (lines : List Bytes) : Prop :=
  ∃ status fields, lines = status :: fields ∧ Accepts status ∧ ∀ f ∈ fields, text f ≠ []

/-- The lines of a whole reply: its last one is the first that is empty. -/
def Whole (lines : List Bytes) : Prop := ∃ init last, lines = init ++ [last] ∧ Begins init ∧ text last = []

/-- What was read is a whole reply, a part of one, or a line that refuses. -/
def Phase.Fits (lines : List Bytes) : Phase → Prop
  | waiting => lines = [] ∨ Begins lines
  | connected => Whole lines
  | refused => ∃ line, lines = [line] ∧ ¬ Accepts line
  | lost => lines = [] ∨ Begins lines
  | fault => False

/-- No memory outside the buffer is used, nothing but the lines is taken out of it, and the phase
is the right one for them. -/
structure Right (r : Run) : Prop where
  fits : r.phase.Fits r.lines
  arrived : r.arrived = r.lines.flatMap (· ++ [lf]) ++ r.unread

/-- A status line that is judged alike without its last byte. -/
def FitStatus (line : Bytes) : Prop :=
  line ≠ [] ∧
    ((∃ n, scanStatus (cstr line.dropLast) = some n ∧ is2XX (toInt n) = true) ↔ Accepts line)

/-- Any other line: it is a CR, or has two bytes or more, of which the first is not a NUL. -/
def FitField (line : Bytes) : Prop := line = [cr] ∨ (2 ≤ line.length ∧ line.head? ≠ some 0)

/-- The next line in the buffer is fit, if a call reads it. -/
def Meets (r : Run) : Event → Prop
  | .arrive _ => True
  | .call _ => r.phase = .waiting → ∀ nl, r.unread.idxOf? lf = some nl →
      if r.lines = [] then FitStatus (r.unread.take nl) else FitField (r.unread.take nl)

/-- The code is set with the first line. -/
def Coded (r : Run) : Prop := r.phase = .waiting → (r.code = 0 ↔ r.lines = [])

/-! ## A line -/

section
variable {r : Run} {line rest : Bytes}

theorem text_eq_nil (hNe : line ≠ []) : text line = [] ↔ line = [cr] := by
  unfold text
  constructor
  · intro h
    split at h
    · rename_i hLast
      obtain ⟨init, rfl⟩ := List.getLast?_eq_some_iff.mp hLast
      rw [List.dropLast_concat] at h
      rw [h, List.nil_append]
    · exact absurd h hNe
  · rintro rfl
    rfl

/-- A field is fit when it looks empty as it is. -/
theorem fitField_iff (hNe : line ≠ []) :
    FitField line ↔ (cstr line.dropLast = [] ↔ text line = []) := by
  rw [text_eq_nil hNe]
  unfold FitField
  obtain ⟨c, line, rfl⟩ := List.exists_cons_of_ne_nil hNe
  cases line with
  | nil =>
      have hSeen : cstr [c].dropLast = [] := rfl
      rw [hSeen]
      simp
  | cons d line =>
      have hLength : 2 ≤ (c :: d :: line).length := Nat.le_add_left 2 line.length
      have hText : ¬ c :: d :: line = [cr] := by simp
      have hSeen : cstr (c :: d :: line).dropLast = [] ↔ c = 0 := by
        rw [List.dropLast_cons_of_ne_nil (List.cons_ne_nil d line)]
        by_cases hc : c = 0
        · subst hc
          exact iff_of_true rfl rfl
        · rw [cstr_cons hc]
          exact iff_of_false (List.cons_ne_nil _ _) hc
      rw [hSeen]
      simp [hText]

theorem copyLine_eq (hNe : line ≠ []) (rest : Bytes) :
    copyLine (line ++ lf :: rest) line.length = some (cstr line.dropLast) := by
  have hPos := List.length_pos_of_ne_nil hNe
  have hSize : ((line.length : Int) - 1).toNat = line.length - 1 := by omega
  unfold copyLine
  dsimp only
  rw [if_neg (by omega), hSize, List.take_append_of_le_length (Nat.sub_le _ _), ← List.dropLast_eq_take]

/-- A call that finds a line. -/
theorem call_line (hWait : r.phase = .waiting) (hUnread : r.unread = line ++ lf :: rest)
    (hLine : lf ∉ line) (closed : Bool) :
    call r closed
      = if line = [] then { r with phase := .fault }
        else
          { r with
            code := (checkLine r.code (cstr line.dropLast)).2, unread := rest,
            phase := (checkLine r.code (cstr line.dropLast)).1.phase true,
            lines := r.lines ++ [line] } := by
  have hFind : r.unread.idxOf? lf = some line.length := by
    rw [hUnread]
    exact idxOf?_line hLine rest
  unfold call httpProxyReplyCheck
  rw [if_neg (not_not.mpr hWait), hFind]
  by_cases hNil : line = []
  · subst hNil
    rw [if_pos rfl]
    rfl
  · have hDrop : (line ++ lf :: rest).drop (line.length + 1) = rest := by
      rw [← List.drop_drop, List.drop_left]
      rfl
    have hTake : (line ++ lf :: rest).take line.length = line := List.take_left
    rw [if_neg hNil, hUnread]
    dsimp only
    rw [copyLine_eq hNil, hDrop, Option.map_some]
    dsimp only
    rw [Option.map_some, hTake]
    rfl

/-- A status line as it is copied. -/
def Says (line : Bytes) : Prop := ∃ n, scanStatus line = some n ∧ is2XX (toInt n) = true

theorem checkLine_zero (line : Bytes) :
    (Says line → (checkLine 0 line).1.phase true = .waiting ∧ (checkLine 0 line).2 ≠ 0) ∧
      (¬ Says line → (checkLine 0 line).1.phase true = .refused) := by
  unfold Says checkLine
  rw [if_pos rfl]
  cases hScan : scanStatus line with
  | none => exact ⟨fun ⟨n, h, _⟩ => absurd h (Option.some_ne_none n).symm, fun _ => rfl⟩
  | some n =>
      have hNe : line ≠ [] := by
        rintro rfl
        exact Option.some_ne_none n (hScan.symm.trans (by decide))
      rw [Option.map_some, if_neg hNe]
      dsimp only
      refine ⟨?_, fun hNot => ?_⟩
      · rintro ⟨m, hm, h2⟩
        obtain rfl := Option.some.inj hm
        rw [if_pos h2]
        refine ⟨rfl, fun hZero => ?_⟩
        dsimp only at hZero
        rw [hZero] at h2
        exact absurd h2 (by decide)
      · rw [if_neg fun h2 => hNot ⟨n, rfl, h2⟩]
        split <;> rfl

theorem checkLine_of_ne {code : Int} (h : code ≠ 0) (line : Bytes) :
    (checkLine code line).1.phase true = (if line = [] then .connected else .waiting) ∧
      (checkLine code line).2 = code := by
  unfold checkLine
  rw [if_neg h]
  by_cases hNil : line = []
  · simp [hNil, Answer.phase]
  · simp [hNil, Answer.phase]

theorem begins_singleton : Begins [line] ↔ Accepts line := by
  constructor
  · rintro ⟨status, fields, hEq, hStatus, -⟩
    obtain ⟨rfl, -⟩ := List.cons.inj hEq
    exact hStatus
  · exact fun h => ⟨line, [], rfl, h, List.forall_mem_nil _⟩

theorem begins_append {lines : List Bytes} (h : Begins lines) :
    Begins (lines ++ [line]) ↔ text line ≠ [] := by
  obtain ⟨status, fields, rfl, hStatus, hFields⟩ := h
  constructor
  · rintro ⟨status', fields', hEq, -, hAll⟩
    obtain ⟨-, rfl⟩ := List.cons.inj hEq
    exact hAll line (List.mem_append_right _ List.mem_cons_self)
  · intro hText
    refine ⟨status, fields ++ [line], rfl, hStatus, fun f hf => ?_⟩
    rcases List.mem_append.mp hf with hf | hf
    · exact hFields f hf
    · rwa [List.mem_singleton.mp hf]

theorem whole_append {lines : List Bytes} (h : Begins lines) : Whole (lines ++ [line]) ↔ text line = [] := by
  constructor
  · rintro ⟨init, last, hEq, -, hText⟩
    obtain ⟨-, hLast⟩ := List.append_inj' hEq rfl
    rwa [(List.cons.inj hLast).1]
  · exact fun hText => ⟨lines, line, rfl, h, hText⟩

/-- The phase after the status line. -/
theorem status_fits_iff (hNe : line ≠ []) :
    ((checkLine 0 (cstr line.dropLast)).1.phase true).Fits [line] ↔ FitStatus line := by
  obtain ⟨hYes, hNo⟩ := checkLine_zero (cstr line.dropLast)
  unfold FitStatus
  rw [and_iff_right hNe, ← Says]
  by_cases hSays : Says (cstr line.dropLast)
  · rw [(hYes hSays).1, iff_true_left hSays, ← begins_singleton]
    exact or_iff_right (List.cons_ne_nil _ _)
  · rw [hNo hSays, iff_false_left hSays]
    constructor
    · rintro ⟨line', hEq, hNot⟩
      rwa [(List.cons.inj hEq).1]
    · exact fun hNot => ⟨line, rfl, hNot⟩

/-- The phase after another line. -/
theorem field_fits_iff {lines : List Bytes} (h : Begins lines) {code : Int} (hCode : code ≠ 0)
    (hNe : line ≠ []) :
    ((checkLine code (cstr line.dropLast)).1.phase true).Fits (lines ++ [line]) ↔ FitField line := by
  rw [(checkLine_of_ne hCode _).1, fitField_iff hNe]
  by_cases hSeen : cstr line.dropLast = []
  · rw [if_pos hSeen, iff_true_left hSeen]
    exact whole_append h
  · rw [if_neg hSeen, iff_false_left hSeen]
    have hNil : lines ++ [line] ≠ [] := by simp
    exact (or_iff_right hNil).trans (begins_append h)

/-- A call on a line is right exactly when the line is fit. -/
theorem call_right_iff (hRight : Right r) (hCoded : Coded r) (hWait : r.phase = .waiting)
    (hUnread : r.unread = line ++ lf :: rest) (hLine : lf ∉ line) (closed : Bool) :
    Right (call r closed) ↔ if r.lines = [] then FitStatus line else FitField line := by
  rw [call_line hWait hUnread hLine]
  by_cases hNil : line = []
  · subst hNil
    rw [if_pos rfl]
    refine iff_of_false (fun h => h.fits) ?_
    split
    · exact fun h => h.1 rfl
    · rintro (h | h)
      · cases h
      · exact absurd h.1 (by decide)
  · rw [if_neg hNil]
    have hArrived : r.arrived = (r.lines ++ [line]).flatMap (· ++ [lf]) ++ rest := by
      rw [hRight.arrived, hUnread]
      simp
    have hFits := hRight.fits
    rw [hWait] at hFits
    refine Iff.trans ⟨fun h => h.fits, fun h => ⟨h, hArrived⟩⟩ ?_
    dsimp only
    by_cases hFirst : r.lines = []
    · rw [if_pos hFirst, hFirst, (hCoded hWait).mpr hFirst]
      exact status_fits_iff hNil
    · rw [if_neg hFirst]
      exact field_fits_iff (hFits.resolve_left hFirst) (fun h => hFirst ((hCoded hWait).mp h)) hNil

/-- A call that finds no line. -/
theorem call_no_line (hWait : r.phase = .waiting) (h : lf ∉ r.unread) (closed : Bool) :
    call r closed
      = { r with
          code := if closed then 0 else r.code, phase := if closed then .lost else .waiting } := by
  have hFind : r.unread.idxOf? lf = none := List.idxOf?_eq_none_iff.mpr h
  unfold call httpProxyReplyCheck
  rw [if_neg (not_not.mpr hWait), hFind]
  cases closed <;> simp [Answer.phase]

/-- A step is right exactly when the line it reads is fit. -/
theorem step_right_iff (e : Event) (hCoded : Coded r) (hRight : Right r) :
    Right (step r e) ↔ Meets r e := by
  cases e with
  | arrive b =>
      refine iff_of_true ⟨hRight.fits, ?_⟩ trivial
      rw [step, hRight.arrived, List.append_assoc]
  | call closed =>
      by_cases hWait : r.phase = .waiting
      · cases hFind : r.unread.idxOf? lf with
        | none =>
            have hFits := hRight.fits
            rw [hWait] at hFits
            rw [step, call_no_line hWait (List.idxOf?_eq_none_iff.mp hFind)]
            refine iff_of_true ⟨?_, hRight.arrived⟩ fun _ nl h => ?_
            · cases closed <;> exact hFits
            · rw [hFind] at h
              cases h
        | some nl =>
            obtain ⟨line, rest, hUnread, hLine, rfl⟩ := exists_line hFind
            have hTake : r.unread.take line.length = line := by rw [hUnread, List.take_left]
            rw [step, call_right_iff hRight hCoded hWait hUnread hLine, Meets]
            constructor
            · intro h _ nl hNl
              rw [hFind] at hNl
              obtain rfl := Option.some.inj hNl
              rwa [hTake]
            · intro h
              have hFit := h hWait line.length hFind
              rwa [hTake] at hFit
      · rw [step, call, if_pos hWait]
        exact iff_of_true hRight fun h => absurd h hWait

theorem Coded.step (h : Coded r) (e : Event) : Coded (step r e) := by
  cases e with
  | arrive b => exact h
  | call closed =>
      by_cases hWait : r.phase = .waiting
      · cases hFind : r.unread.idxOf? lf with
        | none =>
            rw [ProxyReply.step, call_no_line hWait (List.idxOf?_eq_none_iff.mp hFind)]
            cases closed with
            | false => exact fun _ => h hWait
            | true => nofun
        | some nl =>
            obtain ⟨line, rest, hUnread, hLine, rfl⟩ := exists_line hFind
            rw [ProxyReply.step, call_line hWait hUnread hLine]
            split
            · nofun
            intro hNext
            refine iff_of_false (fun hCode => ?_) (by simp)
            dsimp only at hNext hCode
            by_cases hZero : r.code = 0
            · rw [hZero] at hNext hCode
              obtain ⟨hYes, hNo⟩ := checkLine_zero (cstr line.dropLast)
              by_cases hSays : Says (cstr line.dropLast)
              · exact (hYes hSays).2 hCode
              · rw [hNo hSays] at hNext
                cases hNext
            · rw [(checkLine_of_ne hZero _).2] at hCode
              exact hZero hCode
      · rw [ProxyReply.step, call, if_pos hWait]
        exact h

end

theorem right_start : Right start where
  fits := show start.lines = [] ∨ Begins start.lines from .inl rfl
  arrived := rfl

/-- All states of a run are right exactly when the calls find lines that are fit. -/
theorem replies_right_iff (es : List Event) :
    (∀ es', es' <+: es → Right (es'.foldl step start)) ↔ AllOk step Meets start es :=
  allOk_iff (J := Coded) (Q := Right) (fun _ e h => h.step e)
    (fun _ e hCoded hRight => step_right_iff e hCoded hRight) (fun _ => iff_of_true rfl rfl)
    right_start es

/-- A reply whose empty line is a bare LF. -/
def bareEnd : List Event := [.arrive (bytes "HTTP/1.0 200 OK\r\n\n"), .call false, .call false]

theorem not_replies_right :
    ¬ ∀ es es' : List Event, es' <+: es → Right (es'.foldl step start) := by
  intro h
  have hFault : (bareEnd.foldl step start).phase = .fault := by decide
  have hFits := (h bareEnd bareEnd (List.prefix_refl _)).fits
  rw [hFault] at hFits
  exact hFits

end Lftp.Ports.ProxyReply
