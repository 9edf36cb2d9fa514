import Lftp.Verified.Runs
import Lftp.Ports.Aliases

/-!
# Running commands one after another

`CmdExec::Do` where it is not interactive: it gets text from feeders, parses a command, and starts
it, when the condition in front of it holds. A command may leave a job that is waited for, or a
builtin that runs on. `source` puts a feeder on top, which takes the place of the rest of the text
until its own text ends.

When jobs end and how the text comes in is up to the steps of a run; what a command does is up to
`Env`. No word is an alias, no queue is attached, and `cmd:at-finish` is empty.

* `program` has the commands of a text, whatever is run meanwhile.
* `Script` is what the commands are for: each one ends before the next one is looked at.
* `exec_script`: with one job at a time, in every run the commands are those of the script, and at
  the end the exit codes are, too.
* `runs_agree`: when jobs end does not matter.
-/

namespace Lftp.Ports.CmdExec

open Lftp.Verified Lftp.Ports.ParseCmd
open Lftp.Ports.Aliases (wordLoop_length_le argTurn_inl)

/-! ## Reading a command -/

structure Command where
  args : List Bytes
  output : Option Output
  background : Bool
  condition : Condition
deriving DecidableEq

/-- The state in which `parse_one_cmd` is called, when no alias is expanded. -/
def ready (t : Bytes) : ParseCmd.CmdExec := ⟨t, [], none, false, .any, 0, []⟩

def parsed : ParseResult × ParseCmd.CmdExec → ParseResult × Command × Bytes
  | (r, e) => (r, ⟨e.args, e.output, e.background, e.condition⟩, e.cmdBuf)

/-- What `parse_one_cmd` makes of a text, and what it leaves of it. -/
def read (t : Bytes) : Option (ParseResult × Command × Bytes) :=
  (parseOneCmd [] (t.length + 1) (ready t)).map parsed

section

variable {e : ParseCmd.CmdExec} {t line rest : Bytes}

theorem shellLoop_le {nextarg word : Bytes} (h : shellLoop nextarg line = some (word, rest)) :
    rest.length ≤ line.length := by
  induction nextarg, line using shellLoop.induct with
  | case1 => cases h
  | case2 nextarg line =>
      rw [shellLoop, if_pos rfl] at h
      cases h
  | case3 nextarg line hNul =>
      rw [shellLoop, if_neg hNul, if_pos rfl] at h
      cases h
      exact Nat.le_refl _
  | case4 nextarg c hNul hNewline =>
      rw [shellLoop, if_neg hNul, if_neg hNewline] at h
      cases h
  | case5 nextarg c hNul hNewline d line hEscape _ ih =>
      rw [shellLoop, if_neg hNul, if_neg hNewline] at h
      dsimp only at h
      rw [if_pos hEscape] at h
      exact Nat.le_succ_of_le (Nat.le_succ_of_le (ih h))
  | case6 nextarg c hNul hNewline d line hEscape ih =>
      rw [shellLoop, if_neg hNul, if_neg hNewline] at h
      dsimp only at h
      rw [if_neg hEscape] at h
      exact Nat.le_succ_of_le (ih h)

theorem groupLoop_le {level : Nat} {inQuotes : UInt8} {nextarg word : Bytes}
    (h : groupLoop level inQuotes nextarg line = some (word, rest)) :
    rest.length ≤ line.length := by
  induction level, inQuotes, nextarg, line using groupLoop.induct with
  | case1 => cases h
  | case2 level inQuotes nextarg c ih =>
      rw [groupLoop] at h
      dsimp only at h
      split at h
      · cases h
      split at h
      · cases h
        exact Nat.le_refl _
      · cases h
  | case3 level inQuotes nextarg c d line hEscape _ ih =>
      rw [groupLoop] at h
      dsimp only at h
      rw [if_pos hEscape] at h
      exact Nat.le_succ_of_le (Nat.le_succ_of_le (ih h))
  | case4 level inQuotes nextarg c d line hEscape ih =>
      rw [groupLoop] at h
      dsimp only at h
      rw [if_neg hEscape] at h
      split at h
      · cases h
      split at h
      · cases h
        exact Nat.le_refl _
      · exact Nat.le_succ_of_le (ih h)

theorem takeArg_nil (e : ParseCmd.CmdExec) (nextarg rest : Bytes) :
    takeArg [] e nextarg rest = ({ e with args := e.args ++ [nextarg] }, rest) := by
  unfold takeArg
  cases e.args.isEmpty <;> rfl

/-- A byte at which the loop for all arguments is left. -/
def IsOperator (c : UInt8) : Prop :=
  (decide (c = ch '\n') || decide (c = ch '|') || decide (c = ch '>') || decide (c = ch ';') ||
    decide (c = ch '&')) = true

/-- What an exit leaves of the text: all of it where more is asked for, and less of it otherwise. -/
def exitLeaves (t : Bytes) : Exit → Prop
  | .again e => e.cmdBuf = t
  | .ok e => e.cmdBuf <:+ t ∧ e.cmdBuf.length < t.length
  | .cmdEnd e line => e.cmdBuf = t ∧ line.length < t.length
  | .operator e line => e.cmdBuf = t ∧ line.length ≤ t.length ∧
      (atConjunction line = true → line.length < t.length) ∧ ∃ c ∈ line.head?, IsOperator c

/-- The line that `skip_cmd` goes to is what is left. -/
theorem skipCmd_leaves (e : ParseCmd.CmdExec) (line : Bytes)
    (hLine : line.length ≤ e.cmdBuf.length) :
    (skipCmd (offset e line) e).cmdBuf <:+ e.cmdBuf ∧
      (skipCmd (offset e line) e).cmdBuf.length = line.length := by
  rw [skipCmd_cmdBuf]
  refine ⟨List.drop_suffix _ _, ?_⟩
  unfold offset
  rw [List.length_drop]
  omega

/-- What is so of the loop for all arguments. -/
structure Reading (t : Bytes) (s : ParseCmd.CmdExec × Bytes) : Prop where
  cmdBuf : s.1.cmdBuf = t
  line : s.2.length ≤ t.length
  moved : atConjunction s.2 = true → s.2.length < t.length

theorem Reading.exit (h : Reading t (e, line)) {x : Exit} (hTurn : argTurn [] (e, line) = .inr x) :
    exitLeaves t x := by
  obtain rfl : e.cmdBuf = t := h.cmdBuf
  have hLine : line.length ≤ e.cmdBuf.length := h.line
  have hMoved : atConjunction line = true → line.length < e.cmdBuf.length := h.moved
  have hSkip : (skipSpace line) <:+ line := List.dropWhile_suffix _
  unfold argTurn at hTurn
  dsimp only at hTurn
  split at hTurn
  · cases hTurn
  have hSuffix : (if (bytes "\r\n").isPrefixOf (skipSpace line) then (skipSpace line).drop 1
      else skipSpace line) <:+ line := by
    split
    · exact (List.drop_suffix 1 _).trans hSkip
    · exact hSkip
  generalize (if (bytes "\r\n").isPrefixOf (skipSpace line) then (skipSpace line).drop 1
    else skipSpace line) = l at hSuffix hTurn
  cases l with
  | nil =>
      cases hTurn
      rfl
  | cons c l =>
      have hLength := hSuffix.length_le
      rw [List.length_cons] at hLength
      dsimp only at hTurn
      split at hTurn
      · cases hTurn
        rfl
      split at hTurn
      · rename_i hOperator
        cases hTurn
        refine ⟨rfl, hLength.trans hLine, fun hConj => ?_, c, rfl, hOperator⟩
        rcases hSuffix.length_le.eq_or_lt with hAll | hLess
        · exact hAll ▸ hMoved (hSuffix.eq_of_length hAll ▸ hConj)
        · exact hLess.trans_le hLine
      split at hTurn
      · split at hTurn
        · cases hTurn
          rfl
        · rename_i d rest hDrop
          have hRest := (List.dropWhile_sublist (p := fun c => decide (c ≠ ch '\n') &&
            decide (c ≠ 0)) (l := l)).length_le
          rw [hDrop, List.length_cons] at hRest
          split at hTurn
          · cases hTurn
            rfl
          · cases hTurn
            obtain ⟨hLeft, hEq⟩ := skipCmd_leaves e rest (by omega)
            exact ⟨hLeft, by omega⟩
      split at hTurn
      · split at hTurn
        · cases hTurn
          rfl
        · rename_i nextarg rest hWord
          have hRest := shellLoop_le hWord
          have hBlank : (skipSpace l).length ≤ l.length := (List.dropWhile_sublist _).length_le
          have hDrop : (rest.drop 1).length ≤ rest.length := (List.drop_sublist 1 rest).length_le
          cases hTurn
          have hLess : (rest.drop 1).length < e.cmdBuf.length := by omega
          obtain ⟨hLeft, hEq⟩ := skipCmd_leaves { e with args := [bytes "!"] } _
            (Nat.le_of_lt hLess)
          exact ⟨hLeft, hEq.trans_lt hLess⟩
      split at hTurn
      · split at hTurn
        · cases hTurn
          rfl
        · rename_i nextarg rest hWord
          cases hTurn
          have hRest := groupLoop_le hWord
          have hDrop : (skipSpace (rest.drop 1)).length ≤ rest.length :=
            Nat.le_trans (List.dropWhile_sublist _).length_le (List.drop_sublist 1 rest).length_le
          exact ⟨rfl, by omega⟩
      split at hTurn
      · cases hTurn
      split at hTurn
      · cases hTurn
        rfl
      · cases hTurn

theorem Reading.turn (h : Reading t (e, line)) {s : ParseCmd.CmdExec × Bytes}
    (hTurn : argTurn [] (e, line) = .inl s) : Reading t s ∧ s.2.length < line.length := by
  have hLess {e' : ParseCmd.CmdExec} {line' : Bytes} (hBuf : e'.cmdBuf = e.cmdBuf)
      (hLess : line'.length < line.length) :
      Reading t (e', line') ∧ line'.length < line.length :=
    ⟨⟨hBuf.trans h.cmdBuf, Nat.le_of_lt (hLess.trans_le h.line), fun _ => hLess.trans_le h.line⟩,
      hLess⟩
  rcases argTurn_inl hTurn with ⟨hSame, hLine⟩ | ⟨hHelp, hLine⟩ | ⟨word, rest, -, hLine, rfl⟩
  · exact hLess (congrArg (·.cmdBuf) hSame) hLine
  · exact hLess (congrArg (·.cmdBuf) hHelp) hLine
  · rw [takeArg_nil]
    exact hLess rfl hLine

/-- What is left after the end of a command is no more than the line there. -/
theorem cmdEnd_leaves (e : ParseCmd.CmdExec) (line : Bytes) (output : Option Output)
    (hLine : line.length ≤ e.cmdBuf.length) :
    (cmdEnd output e line).1 = .ok ∧ (cmdEnd output e line).2.cmdBuf <:+ e.cmdBuf ∧
      (cmdEnd output e line).2.cmdBuf.length ≤ line.length := by
  obtain ⟨hLeft, hEq⟩ := skipCmd_leaves e line hLine
  unfold cmdEnd
  split
  · exact ⟨rfl, hLeft, hEq.le⟩
  · rename_i c rest
    dsimp only
    split
    · obtain ⟨hLeft, hEq⟩ := skipCmd_leaves
        { e with background := e.background || decide (c = ch '&') } rest (Nat.le_of_succ_le hLine)
      exact ⟨rfl, hLeft, hEq.le.trans (Nat.le_succ _)⟩
    · exact ⟨rfl, hLeft, hEq.le⟩

/-- An operator that is no conjunction and no redirection is taken. -/
theorem cmdEnd_operator {c : UInt8} (hc : IsOperator c) (hNot : ¬ (c = ch '>' ∨ c = ch '|'))
    (hConj : atConjunction (c :: rest) = false) (hLine : rest.length < e.cmdBuf.length) :
    (cmdEnd none e (c :: rest)).1 = .ok ∧ (cmdEnd none e (c :: rest)).2.cmdBuf <:+ e.cmdBuf ∧
      (cmdEnd none e (c :: rest)).2.cmdBuf.length < e.cmdBuf.length := by
  have hEnds : (!atConjunction (c :: rest) && (decide (c = ch ';') || decide (c = ch '&') ||
      decide (c = ch '\n'))) = true := by
    unfold IsOperator at hc
    rw [hConj]
    simp only [Bool.or_eq_true, decide_eq_true_eq, Bool.not_false, Bool.true_and] at hc ⊢
    rcases hc with (((h | h) | h) | h) | h
    · exact .inr h
    · exact absurd (.inr h) hNot
    · exact absurd (.inl h) hNot
    · exact .inl (.inl h)
    · exact .inl (.inr h)
  unfold cmdEnd
  dsimp only
  rw [if_pos hEnds]
  obtain ⟨hLeft, hEq⟩ := skipCmd_leaves
    { e with background := e.background || decide (c = ch '&') } rest (Nat.le_of_lt hLine)
  exact ⟨rfl, hLeft, hEq.trans_lt hLine⟩

theorem redirection_leaves (pipe append : Bool) (hLine : line.length < e.cmdBuf.length) :
    (redirection pipe append e line).2.cmdBuf <:+ e.cmdBuf ∧
      if (redirection pipe append e line).1 = .again then
        (redirection pipe append e line).2.cmdBuf = e.cmdBuf
      else (redirection pipe append e line).2.cmdBuf.length < e.cmdBuf.length := by
  have hSkip : (skipSpace line).length ≤ line.length := (List.dropWhile_sublist _).length_le
  unfold redirection
  split
  · exact ⟨List.suffix_rfl, rfl⟩
  rename_i c l hText
  rw [hText, List.length_cons] at hSkip
  split
  · exact ⟨List.suffix_rfl, rfl⟩
  split
  · obtain ⟨hLeft, hEq⟩ := skipCmd_leaves e l (by omega)
    exact ⟨hLeft, by rw [if_neg nofun, hEq]; omega⟩
  split
  · exact ⟨List.suffix_rfl, rfl⟩
  · rename_i nextarg rest hWord
    have hRest := wordLoop_length_le hWord
    have hBlank : (skipSpace rest).length ≤ rest.length := (List.dropWhile_sublist _).length_le
    rw [List.length_cons] at hRest
    obtain ⟨hOk, hLeft, hLe⟩ := cmdEnd_leaves e (skipSpace rest)
      (some (if pipe then .filter nextarg else .file nextarg append)) (by omega)
    exact ⟨hLeft, by rw [hOk, if_neg nofun]; omega⟩

theorem finish_leaves {x : Exit} (h : exitLeaves t x) : (finish x).2.cmdBuf <:+ t ∧
    if (finish x).1 = .again then (finish x).2.cmdBuf = t
    else (finish x).2.cmdBuf.length < t.length := by
  cases x with
  | again e => exact ⟨h ▸ List.suffix_rfl, h⟩
  | ok e => exact ⟨h.1, h.2⟩
  | cmdEnd e line =>
      obtain ⟨rfl, hLine⟩ := h
      obtain ⟨hOk, hLeft, hLe⟩ := cmdEnd_leaves e line none (Nat.le_of_lt hLine)
      show (cmdEnd none e line).2.cmdBuf <:+ e.cmdBuf ∧ _
      refine ⟨hLeft, ?_⟩
      rw [show finish (.cmdEnd e line) = cmdEnd none e line from rfl, hOk, if_neg (by rintro ⟨⟩)]
      exact hLe.trans_lt hLine
  | operator e line =>
      obtain ⟨rfl, hLine, hMoved, c, hHead, hc⟩ := h
      obtain ⟨rest, rfl⟩ := List.head?_eq_some_iff.mp hHead
      rw [List.length_cons] at hLine
      rw [finish]
      by_cases hConj : atConjunction (c :: rest) = true
      · obtain ⟨hLeft, hEq⟩ := skipCmd_leaves e (c :: rest) hLine
        rw [if_pos hConj]
        exact ⟨hLeft, by rw [if_neg (by rintro ⟨⟩), hEq]; exact hMoved hConj⟩
      rw [if_neg hConj]
      split
      · split
        · exact redirection_leaves _ _
            (Nat.lt_of_le_of_lt (List.drop_sublist 1 rest).length_le hLine)
        · exact redirection_leaves _ _ hLine
      · rename_i hNot
        obtain ⟨hOk, hLeft, hLess⟩ := cmdEnd_operator hc (by simpa using hNot)
          (Bool.eq_false_iff.mpr hConj) hLine
        exact ⟨hLeft, by rw [hOk, if_neg (by rintro ⟨⟩)]; exact hLess⟩

theorem startCondition_reading (t : Bytes) (e : ParseCmd.CmdExec) (h : e.cmdBuf = t) :
    Reading t (e, (startCondition t).2) := by
  have hDrop (hTwo : 2 ≤ t.length) : (t.drop 2).length < t.length := by
    rw [List.length_drop]
    omega
  unfold startCondition
  split
  · rename_i hAnd
    have hLess := hDrop (List.isPrefixOf_iff_prefix.mp hAnd).length_le
    exact ⟨h, Nat.le_of_lt hLess, fun _ => hLess⟩
  split
  · rename_i hOr
    have hLess := hDrop (List.isPrefixOf_iff_prefix.mp hOr).length_le
    exact ⟨h, Nat.le_of_lt hLess, fun _ => hLess⟩
  · rename_i hAnd hOr
    refine ⟨h, Nat.le_refl _, fun hConj => ?_⟩
    unfold atConjunction at hConj
    rw [Bool.or_eq_true] at hConj
    exact absurd hConj (not_or.mpr ⟨hAnd, hOr⟩)

/-- What is left of a text: all of it when the parser asks for more, and else less of it, if the
text does not begin with a NUL. -/
def Leaves (t : Bytes) (r : ParseResult) (c : Command) (rest : Bytes) : Prop :=
  rest <:+ t ∧ (r = .again → rest = t) ∧
    (r ≠ .again → rest.length < t.length ∨ (r = .ok ∧ c.args = [] ∧ rest = t))

theorem read_total (t : Bytes) :
    ∃ r c rest, read t = some (r, c, rest) ∧ CmdExec.Leaves t r c rest := by
  by_cases hNul : t.headD 0 = 0
  · refine ⟨.ok, ⟨[], none, false, .any⟩, t, ?_, List.suffix_rfl, nofun,
      fun _ => .inr ⟨rfl, rfl, rfl⟩⟩
    cases t with
    | nil => rfl
    | cons c t =>
        obtain rfl : c = 0 := hNul
        rfl
  · obtain ⟨c, t, rfl⟩ : ∃ c u, t = c :: u := by
      cases t with
      | nil => exact absurd rfl hNul
      | cons c t => exact ⟨c, t, rfl⟩
    have hStart := startCondition_reading (c :: t)
      { ready (c :: t) with condition := (startCondition (c :: t)).1 } rfl
    have hTurn (s : ParseCmd.CmdExec × Bytes) (h : Reading (c :: t) s) :
        (∃ x, argTurn [] s = .inr x ∧ exitLeaves (c :: t) x) ∨
          ∃ s', argTurn [] s = .inl s' ∧ Reading (c :: t) s' ∧ s'.2.length < s.2.length := by
      obtain ⟨e, line⟩ := s
      cases hTurn : argTurn [] (e, line) with
      | inr x => exact .inl ⟨x, rfl, h.exit hTurn⟩
      | inl s => exact .inr ⟨s, rfl, h.turn hTurn⟩
    obtain ⟨x, hx, hLeaves⟩ := loop_total (fun s => s.2.length) hTurn hStart
      (Nat.lt_succ_of_le hStart.line)
    obtain ⟨hSuffix, hLess⟩ := finish_leaves hLeaves
    have hc : ¬ c = 0 := hNul
    have hRead : read (c :: t) = some (parsed (finish x)) := by
      unfold read parseOneCmd ready
      dsimp only
      rw [if_neg hc]
      exact congrArg (Option.map parsed) (congrArg (Option.map finish) hx)
    refine ⟨_, _, _, hRead, hSuffix, fun hAgain => ?_, fun hNot => .inl ?_⟩
    · exact (if_pos (c := (finish x).1 = .again) hAgain).mp hLess
    · exact (if_neg (c := (finish x).1 = .again) hNot).mp hLess

theorem read_leaves {r : ParseResult} {c : Command} (h : read t = some (r, c, rest)) :
    CmdExec.Leaves t r c rest := by
  obtain ⟨r', c', rest', hRead, hLeaves⟩ := read_total t
  rw [h] at hRead
  cases hRead
  exact hLeaves

end

/-! ## Commands -/

/-- What comes of starting a command: it is over, a job goes on, a builtin goes on, or more commands
are fed. A job in background may be over after its first `Roll`. `exit` discards all text. -/
inductive Outcome where
  | ended (code : Int)
  | exit (code : Int)
  | job (code : Int) (rolled : Bool)
  | builtin (code : Int)
  | source (chunks : List Bytes)

/-- What the commands do and what they set, given all commands started so far. -/
structure Env where
  failExit : List Command → Bool
  outcome : List Command → Outcome

inductive Decision where
  | run | skip | fail

/-- The switch at the beginning of `exec_parsed_command`. -/
def decision (condition : Condition) (exitCode : Int) (failExit : Bool) : Decision :=
  match condition with
  | .any => if exitCode ≠ 0 ∧ failExit then .fail else .run
  | .and => if exitCode ≠ 0 then .skip else .run
  | .or => if exitCode = 0 then .skip else .run

/-! ## The state machine -/

/-- `CmdFeeder`; what `NextCmd` is going to return. -/
structure Feeder where
  chunks : List Bytes
  savedBuf : Bytes

/-- The members of `CmdExec` that commands are run with. A builtin and the jobs that are waited for
have the exit codes that they are going to have, and `history` is no member of the source: the
commands that were started. -/
structure State where
  cmdBuf : Bytes
  partialCmd : Bool
  feeders : List Feeder
  builtin : Option Int
  waiting : List Int
  exitCode : Int
  failedExitCode : Int
  history : List Command

/-- What a C string has of a text. -/
def cstring (chunk : Bytes) : Bytes := chunk.takeWhile (· ≠ 0)

/-- A step of `Do`: a builtin ends, a job that is waited for ends, `AtFinish` feeds an empty line, a
feeder is asked for more, or a command is parsed. -/
inductive Event where
  | builtinDone
  | jobDone (i : Nat)
  | finish
  | feed
  | parse

namespace State

/-- `FeedCmd` -/
def feedCmd (cmd : Bytes) (s : State) : State :=
  { s with partialCmd := false, cmdBuf := s.cmdBuf ++ cmd }

/-- `SetCmdFeeder` -/
def setCmdFeeder (chunks : List Bytes) (s : State) : State :=
  { s with feeders := ⟨chunks, s.cmdBuf⟩ :: s.feeders, cmdBuf := [] }

/-- `AddNewJob` -/
def addNewJob (code : Int) (rolled background : Bool) (s : State) : State :=
  if background && !rolled then { s with exitCode := 0 }
  else { s with exitCode := 0, waiting := s.waiting ++ [code] }

/-- `RemoveFeeder` for all feeders, and `cmd_buf.Empty()`. -/
def discard (s : State) : State := { s with feeders := [], cmdBuf := [], partialCmd := false }

/-- `exec_parsed_command` from where the command is started. -/
def start (env : Env) (c : Command) (s : State) : State :=
  let s := { s with exitCode := 1, history := s.history ++ [c] }
  match env.outcome s.history with
  | .ended code => { s with exitCode := code }
  | .exit code => { s.discard with exitCode := code }
  | .job code rolled => s.addNewJob code rolled c.background
  | .builtin code => { s with builtin := some code }
  | .source chunks => { s.setCmdFeeder chunks with exitCode := 0 }

/-- `exec_parsed_command` -/
def execParsedCommand (env : Env) (c : Command) (s : State) : State :=
  match decision c.condition s.exitCode (env.failExit s.history) with
  | .run => s.start env c
  | .skip => s
  | .fail => { s.discard with failedExitCode := s.exitCode }

/-- `Idle` without the jobs. -/
def needsText (s : State) : Bool := s.cmdBuf.isEmpty || s.partialCmd

/-- A feeder is asked for a command. At its end an incomplete line is ended, or else it is
discarded. -/
def feed (s : State) : Option State :=
  match s.feeders with
  | [] => none
  | ⟨chunk :: chunks, savedBuf⟩ :: feeders =>
    let s := { s with feeders := ⟨chunks, savedBuf⟩ :: feeders }
    some (if cstring chunk = [] then s else s.feedCmd (cstring chunk))
  | ⟨[], savedBuf⟩ :: feeders =>
    if s.cmdBuf ≠ [] ∧ s.partialCmd ∧ s.cmdBuf.getLast? ≠ some (ch '\n') then
      some (s.feedCmd [ch '\n'])
    else if s.waiting ≠ [] then none
    else some { s with cmdBuf := savedBuf, partialCmd := false, feeders := feeders }

/-- `parse_one_cmd`, and what is done with the command. -/
def parse (env : Env) (s : State) : Option State :=
  (read s.cmdBuf).map fun
    | (.again, _, rest) => { s with cmdBuf := rest, partialCmd := true }
    | (.err _, _, rest) => { s with cmdBuf := rest }
    | (.ok, c, rest) =>
      if c.args = [] then { s with cmdBuf := rest }
      else { s with cmdBuf := rest }.execParsedCommand env c

/-- `Do`, where up to `maxWaiting` jobs may be waited for. -/
def step (maxWaiting : Nat) (env : Env) (s : State) : Event → Option State
  | .builtinDone => s.builtin.map fun code => { s with builtin := none, exitCode := code }
  | .jobDone i =>
    if s.builtin.isSome then none
    else s.waiting[i]?.map fun code =>
      { s with exitCode := code, waiting := s.waiting.eraseIdx i }
  | .finish =>
    if s.builtin.isSome ∨ s.waiting ≠ [] ∨ s.cmdBuf ≠ [] then none
    else some (s.feedCmd [ch '\n'])
  | .feed =>
    if s.builtin.isSome ∨ maxWaiting ≤ s.waiting.length ∨ s.needsText = false then none
    else s.feed
  | .parse =>
    if s.builtin.isSome ∨ maxWaiting ≤ s.waiting.length ∨ s.needsText then none
    else s.parse env

/-- `Done` -/
def done (s : State) : Bool :=
  s.feeders.isEmpty && s.waiting.isEmpty && s.builtin.isNone && s.needsText

end State

/-- The states on the runs from `s₀`. -/
abbrev Reached (maxWaiting : Nat) (env : Env) (s₀ : State) : State → Prop :=
  Reach (· = s₀) fun s event s' => s.step maxWaiting env event = some s'

/-! ## Scripts -/

/-- The commands that are read while there is enough text, and the text that is left then. -/
def readAll : Nat → Bytes → List Command × Bytes
  | 0, buf => ([], buf)
  | n + 1, buf =>
    if buf = [] then ([], [])
    else
      match read buf with
      | none | some (.again, _, _) => ([], buf)
      | some (.err _, _, rest) => readAll n rest
      | some (.ok, c, rest) =>
        if c.args = [] then readAll n rest else ((c :: (readAll n rest).1), (readAll n rest).2)

def commands (buf : Bytes) : List Command × Bytes := readAll buf.length buf

/-- The last line of a feeder may lack its end; it is discarded if it is not all of a command. -/
def lastCommands (buf : Bytes) : List Command :=
  if buf ≠ [] ∧ buf.getLast? ≠ some (ch '\n') then (commands (buf ++ [ch '\n'])).1 else []

/-- The commands of a feeder, where `buf` has been read before. -/
def program (buf : Bytes) : List Bytes → List Command
  | [] => (commands buf).1 ++ lastCommands (commands buf).2
  | chunk :: chunks => (commands buf).1 ++ program ((commands buf).2 ++ cstring chunk) chunks

/-- The commands that are left, and what has come of those before. -/
structure Script where
  program : List Command
  exitCode : Int
  failedExitCode : Int
  history : List Command

namespace Script

/-- A command is done, and `rest` are those after it. -/
def obey (env : Env) (c : Command) (rest : List Command) (s : Script) : Script :=
  match decision c.condition s.exitCode (env.failExit s.history) with
  | .skip => { s with program := rest }
  | .fail => { s with program := [], failedExitCode := s.exitCode }
  | .run =>
    let s := { s with program := rest, history := s.history ++ [c] }
    match env.outcome s.history with
    | .ended code | .builtin code => { s with exitCode := code }
    | .exit code => { s with program := [], exitCode := code }
    | .job code rolled => { s with exitCode := if c.background && !rolled then 0 else code }
    | .source chunks => { s with program := CmdExec.program [] chunks ++ rest, exitCode := 0 }

def turn (env : Env) (s : Script) : Script ⊕ Script :=
  match s.program with
  | [] => .inr s
  | c :: rest => .inl (s.obey env c rest)

end Script

/-! ## From states to scripts -/

/-- The commands of the buffer and of all feeders. -/
def remaining (buf : Bytes) : List Feeder → List Command
  | [] => (commands buf).1
  | f :: feeders => program buf f.chunks ++ remaining f.savedBuf feeders

/-- The exit code once what is running has ended. -/
def State.settled (s : State) : Int :=
  match s.builtin, s.waiting with
  | some code, _ => code
  | none, code :: _ => code
  | none, [] => s.exitCode

/-- The script that is still to be done. -/
def State.script (s : State) : Script :=
  ⟨remaining s.cmdBuf s.feeders, s.settled, s.failedExitCode, s.history⟩

/-! ## Commands and text -/

section

variable {buf buf' rest : Bytes} {c : Command} {cs : List Command}

theorem readAll_nil (n : Nat) : readAll n [] = ([], []) := by
  cases n <;> rfl

/-- Where the parser takes nothing more, nothing is taken. -/
theorem readAll_of_nul (h : read buf = some (.ok, c, buf)) (hArgs : c.args = []) (n : Nat) :
    readAll n buf = ([], buf) := by
  induction n with
  | zero => rfl
  | succ n ih =>
      rw [readAll, h]
      dsimp only
      rw [if_pos hArgs, ih]
      split
      · rename_i hBuf
        rw [hBuf]
      · rfl

theorem readAll_eq {n m : Nat} (hn : buf.length ≤ n) (hm : buf.length ≤ m) :
    readAll n buf = readAll m buf := by
  induction n generalizing buf m with
  | zero =>
      obtain rfl := List.eq_nil_of_length_eq_zero (Nat.le_zero.mp hn)
      rw [readAll_nil, readAll_nil]
  | succ n ih =>
      by_cases hBuf : buf = []
      · rw [hBuf, readAll_nil, readAll_nil]
      have hPos := List.length_pos_of_ne_nil hBuf
      obtain ⟨m, rfl⟩ : ∃ k, m = k + 1 := ⟨m - 1, by omega⟩
      obtain ⟨r, c, rest, hRead, -, -, hLeft⟩ := read_total buf
      have hRest : r ≠ .again → readAll n rest = readAll m rest := by
        intro hNot
        rcases hLeft hNot with hLess | ⟨rfl, hArgs, rfl⟩
        · exact ih (by omega) (by omega)
        · rw [readAll_of_nul hRead hArgs, readAll_of_nul hRead hArgs]
      rw [readAll, readAll, if_neg hBuf, if_neg hBuf, hRead]
      cases r with
      | again => rfl
      | err => exact hRest nofun
      | ok =>
          dsimp only
          rw [hRest nofun]

theorem commands_again (h : read buf = some (.again, c, rest)) : commands buf = ([], buf) := by
  cases buf with
  | nil => rfl
  | cons b buf => rw [commands, List.length_cons, readAll, if_neg (List.cons_ne_nil b buf), h]

/-- What the first command is, and that the others are those of the text behind it. -/
theorem commands_read {r : ParseResult} (hBuf : buf ≠ []) (h : read buf = some (r, c, rest))
    (hr : r ≠ .again) : (commands buf).2 = (commands rest).2 ∧ (commands buf).1 =
      (if r = .ok ∧ c.args ≠ [] then [c] else []) ++ (commands rest).1 := by
  have hAll : readAll (buf.length - 1) rest = commands rest := by
    rcases (read_leaves h).2.2 hr with hLess | ⟨rfl, hArgs, rfl⟩
    · exact readAll_eq (by omega) (Nat.le_refl _)
    · rw [commands, readAll_of_nul h hArgs, readAll_of_nul h hArgs]
  have hStep : commands buf = readAll (buf.length - 1 + 1) buf := by
    rw [Nat.sub_add_cancel (List.length_pos_of_ne_nil hBuf), commands]
  rw [hStep, readAll, if_neg hBuf, h]
  cases r with
  | again => exact absurd rfl hr
  | err => exact ⟨congrArg Prod.snd hAll, congrArg Prod.fst hAll⟩
  | ok =>
      dsimp only
      rw [hAll]
      by_cases hArgs : c.args = []
      · rw [if_pos hArgs, if_neg fun hNot => hNot.2 hArgs]
        exact ⟨rfl, rfl⟩
      · rw [if_neg hArgs, if_pos ⟨rfl, hArgs⟩]
        exact ⟨rfl, rfl⟩

theorem readAll_suffix (n : Nat) (buf : Bytes) : (readAll n buf).2 <:+ buf := by
  induction n generalizing buf with
  | zero => exact List.suffix_rfl
  | succ n ih =>
      rw [readAll]
      split
      · exact List.nil_suffix
      obtain ⟨r, c, rest, hRead, hSuffix, -, -⟩ := read_total buf
      rw [hRead]
      cases r with
      | again => exact List.suffix_rfl
      | err => exact (ih rest).trans hSuffix
      | ok =>
          dsimp only
          split <;> exact (ih rest).trans hSuffix

/-- A line that has its end gets no other one. -/
theorem lastCommands_of_suffix (h : rest <:+ buf ++ [ch '\n']) : lastCommands rest = [] := by
  refine if_neg fun hLast => ?_
  obtain ⟨hRest, hNot⟩ := hLast
  obtain ⟨before, hBefore⟩ := h
  have hEnd := congrArg List.getLast? hBefore
  rw [List.getLast?_append_of_ne_nil before hRest, List.getLast?_concat] at hEnd
  exact hNot hEnd

theorem remaining_of (hLeft : (commands buf).2 = (commands buf').2)
    (hAll : (commands buf).1 = cs ++ (commands buf').1) (feeders : List Feeder) :
    remaining buf feeders = cs ++ remaining buf' feeders := by
  cases feeders with
  | nil => exact hAll
  | cons f feeders =>
      unfold remaining
      cases f.chunks with
      | nil => rw [program, program, hLeft, hAll, List.append_assoc, List.append_assoc,
          List.append_assoc]
      | cons chunk chunks => rw [program, program, hLeft, hAll, List.append_assoc,
          List.append_assoc, List.append_assoc]

end

/-! ## The steps -/

/-- What is so of the states of a run with one job at a time. -/
structure Inv (s : State) : Prop where
  one : s.waiting.length ≤ 1
  alone : s.builtin.isSome → s.waiting = []
  partialCmd : s.partialCmd = true → ∃ c rest, read s.cmdBuf = some (.again, c, rest)

section

variable {env : Env} {s s' : State}

/-- The script stays as it is, or a command of it is done. -/
def Follows (env : Env) (s s' : State) : Prop :=
  s'.script = s.script ∨ s.script.turn env = .inl s'.script

theorem State.settled_idle (hBuiltin : s.builtin = none) (hWaiting : s.waiting = []) :
    s.settled = s.exitCode := by
  unfold State.settled
  rw [hBuiltin, hWaiting]

theorem builtinDone_follows (hInv : Inv s) (h : s.step 1 env .builtinDone = some s') :
    Inv s' ∧ Follows env s s' := by
  obtain ⟨code, hCode, rfl⟩ := Option.map_eq_some_iff.mp h
  have hWaiting := hInv.alone (by rw [hCode]; rfl)
  refine ⟨⟨hInv.one, nofun, hInv.partialCmd⟩, .inl ?_⟩
  unfold State.script State.settled
  dsimp only
  rw [hCode, hWaiting]

theorem jobDone_follows {i : Nat} (hInv : Inv s) (h : s.step 1 env (.jobDone i) = some s') :
    Inv s' ∧ Follows env s s' := by
  delta State.step at h
  dsimp only at h
  split at h
  · cases h
  rename_i hBuiltin
  obtain ⟨code, hCode, rfl⟩ := Option.map_eq_some_iff.mp h
  obtain ⟨hLess, hGet⟩ := List.getElem?_eq_some_iff.mp hCode
  have hOne := hInv.one
  obtain rfl : i = 0 := by omega
  have hWaiting : s.waiting = [code] := by
    obtain ⟨code', hWaiting⟩ : ∃ code', s.waiting = [code'] :=
      List.length_eq_one_iff.mp (by omega)
    simp only [hWaiting, List.getElem_cons_zero] at hGet
    rw [hWaiting, hGet]
  have hEmpty : s.waiting.eraseIdx 0 = [] := by rw [hWaiting]; rfl
  refine ⟨⟨by dsimp only; rw [hEmpty]; exact Nat.zero_le 1, fun _ => hEmpty, hInv.partialCmd⟩,
    .inl ?_⟩
  unfold State.script State.settled
  dsimp only
  rw [hEmpty, hWaiting, Option.not_isSome_iff_eq_none.mp hBuiltin]

/-- The buffer and the feeders change, and what remains of the commands does not. -/
theorem Follows.of_remaining {buf : Bytes} {isPartial : Bool} {feeders : List Feeder}
    (h : remaining buf feeders = remaining s.cmdBuf s.feeders) :
    Follows env s { s with cmdBuf := buf, partialCmd := isPartial, feeders } :=
  .inl (congrArg (fun all => (⟨all, s.settled, s.failedExitCode, s.history⟩ : Script)) h)

theorem finish_follows (hInv : Inv s) (h : s.step 1 env .finish = some s') :
    Inv s' ∧ Follows env s s' := by
  delta State.step at h
  dsimp only at h
  split at h
  · cases h
  rename_i hIdle
  simp only [not_or, not_not, Bool.not_eq_true] at hIdle
  obtain ⟨-, -, hBuf⟩ := hIdle
  cases h
  refine ⟨⟨hInv.one, hInv.alone, nofun⟩, .of_remaining ?_⟩
  rw [hBuf]
  show remaining [ch '\n'] s.feeders = [] ++ remaining [] s.feeders
  have hLeft : (commands [ch '\n']).2 = (commands []).2 := rfl
  exact remaining_of hLeft rfl s.feeders

/-- Where text is asked for or parsed nothing is running. -/
theorem idle_of_not {needs : Prop} (h : ¬ (s.builtin.isSome ∨ 1 ≤ s.waiting.length ∨ needs)) :
    s.builtin = none ∧ s.waiting = [] ∧ ¬ needs := by
  rw [not_or, not_or, Nat.not_le, Nat.lt_one_iff, List.length_eq_zero_iff] at h
  exact ⟨Option.not_isSome_iff_eq_none.mp h.1, h.2⟩

/-- Where text is asked for there are no commands in the buffer. -/
theorem Inv.commands (hInv : Inv s) (h : s.needsText = true) :
    commands s.cmdBuf = ([], s.cmdBuf) := by
  unfold State.needsText at h
  rw [Bool.or_eq_true, List.isEmpty_iff] at h
  rcases h with hBuf | hPartial
  · rw [hBuf]
    rfl
  · obtain ⟨c, rest, hRead⟩ := hInv.partialCmd hPartial
    exact commands_again hRead

theorem feed_follows (hInv : Inv s) (h : s.step 1 env .feed = some s') :
    Inv s' ∧ Follows env s s' := by
  delta State.step at h
  dsimp only at h
  split at h
  · cases h
  rename_i hIdle
  obtain ⟨-, -, hNeeds⟩ := idle_of_not hIdle
  rw [Bool.not_eq_false] at hNeeds
  have hCommands := hInv.commands hNeeds
  unfold State.feed at h
  split at h
  · cases h
  · rename_i chunk chunks savedBuf feeders hFeeders
    have hChunk : remaining (s.cmdBuf ++ cstring chunk) (⟨chunks, savedBuf⟩ :: feeders) =
        remaining s.cmdBuf s.feeders := by
      rw [hFeeders, remaining, remaining]
      dsimp only
      rw [program.eq_2, hCommands]
      rfl
    split at h
    · rename_i hEmpty
      cases h
      rw [hEmpty, List.append_nil] at hChunk
      exact ⟨⟨hInv.one, hInv.alone, hInv.partialCmd⟩, .of_remaining hChunk⟩
    · cases h
      exact ⟨⟨hInv.one, hInv.alone, nofun⟩, .of_remaining hChunk⟩
  · rename_i savedBuf feeders hFeeders
    have hAll : remaining s.cmdBuf s.feeders =
        lastCommands s.cmdBuf ++ remaining savedBuf feeders := by
      rw [hFeeders, remaining, program, hCommands]
      rfl
    split at h
    · rename_i hLine
      cases h
      refine ⟨⟨hInv.one, hInv.alone, nofun⟩, .of_remaining ?_⟩
      have hEnd : lastCommands (commands (s.cmdBuf ++ [ch '\n'])).2 = [] :=
        lastCommands_of_suffix (readAll_suffix _ _)
      rw [hAll, hFeeders, remaining, program, hEnd, List.append_nil, lastCommands,
        if_pos ⟨hLine.1, hLine.2.2⟩]
    rename_i hLine
    split at h
    · cases h
    · cases h
      refine ⟨⟨hInv.one, hInv.alone, nofun⟩, .of_remaining ?_⟩
      have hNone : lastCommands s.cmdBuf = [] := by
        refine if_neg fun hLast => hLine ⟨hLast.1, ?_, hLast.2⟩
        unfold State.needsText at hNeeds
        rwa [List.isEmpty_eq_false_iff.mpr hLast.1, Bool.false_or] at hNeeds
      rw [hAll, hNone]
      rfl

/-- What is done with a command in the state is done with it in the script. -/
theorem exec_follows (env : Env) {c : Command} {rest : Bytes} (hBuiltin : s.builtin = none)
    (hWaiting : s.waiting = []) (hPartial : s.partialCmd = false) :
    Inv (State.execParsedCommand env c { s with cmdBuf := rest }) ∧
      (State.execParsedCommand env c { s with cmdBuf := rest }).script =
        s.script.obey env c (remaining rest s.feeders) := by
  obtain ⟨buf, isPartial, feeders, builtin, waiting, exitCode, failedExitCode, history⟩ := s
  dsimp only at hBuiltin hWaiting hPartial
  subst hBuiltin hWaiting hPartial
  unfold State.execParsedCommand Script.obey State.script State.settled
  dsimp only
  cases decision c.condition exitCode (env.failExit history) with
  | skip => exact ⟨⟨Nat.zero_le 1, nofun, nofun⟩, rfl⟩
  | fail => exact ⟨⟨Nat.zero_le 1, nofun, nofun⟩, rfl⟩
  | run =>
      unfold State.start
      dsimp only
      cases env.outcome (history ++ [c]) with
      | ended code => exact ⟨⟨Nat.zero_le 1, nofun, nofun⟩, rfl⟩
      | exit code => exact ⟨⟨Nat.zero_le 1, nofun, nofun⟩, rfl⟩
      | job code rolled =>
          unfold State.addNewJob
          dsimp only
          split
          · exact ⟨⟨Nat.zero_le 1, nofun, nofun⟩, rfl⟩
          · exact ⟨⟨Nat.le_refl 1, nofun, nofun⟩, rfl⟩
      | builtin code => exact ⟨⟨Nat.zero_le 1, fun _ => rfl, nofun⟩, rfl⟩
      | source chunks => exact ⟨⟨Nat.zero_le 1, nofun, nofun⟩, rfl⟩

theorem parse_follows (hInv : Inv s) (h : s.step 1 env .parse = some s') :
    Inv s' ∧ Follows env s s' := by
  delta State.step at h
  dsimp only at h
  split at h
  · cases h
  rename_i hIdle
  obtain ⟨hBuiltin, hWaiting, hNeeds⟩ := idle_of_not hIdle
  have hNeeds : (s.cmdBuf.isEmpty || s.partialCmd) = false := Bool.eq_false_iff.mpr hNeeds
  rw [Bool.or_eq_false_iff, List.isEmpty_eq_false_iff] at hNeeds
  obtain ⟨hBuf, hPartial⟩ := hNeeds
  obtain ⟨⟨r, c, rest⟩, hRead, rfl⟩ := Option.map_eq_some_iff.mp h
  have hPart : s.partialCmd = true → False := by
    rw [hPartial]
    exact nofun
  by_cases hAgain : r = .again
  · subst hAgain
    obtain rfl := (read_leaves hRead).2.1 rfl
    exact ⟨⟨hInv.one, hInv.alone, fun _ => ⟨c, _, hRead⟩⟩, .of_remaining rfl⟩
  · obtain ⟨hLeft, hAll⟩ := commands_read hBuf hRead hAgain
    have hRemaining := remaining_of hLeft hAll s.feeders
    have hSkip (hNone : ¬ (r = .ok ∧ c.args ≠ [])) :
        Inv { s with cmdBuf := rest } ∧ Follows env s { s with cmdBuf := rest } := by
      rw [if_neg hNone] at hRemaining
      exact ⟨⟨hInv.one, hInv.alone, fun h => (hPart h).elim⟩, .of_remaining hRemaining.symm⟩
    cases r with
    | again => exact absurd rfl hAgain
    | err => exact hSkip nofun
    | ok =>
        dsimp only
        split
        · rename_i hArgs
          exact hSkip fun hNot => hNot.2 hArgs
        · rename_i hArgs
          rw [if_pos ⟨rfl, hArgs⟩] at hRemaining
          obtain ⟨hKept, hScript⟩ := exec_follows env hBuiltin hWaiting hPartial
          refine ⟨hKept, .inr ?_⟩
          rw [hScript]
          unfold Script.turn
          rw [show s.script.program = c :: remaining rest s.feeders from hRemaining]

theorem step_follows {event : Event} (hInv : Inv s) (h : s.step 1 env event = some s') :
    Inv s' ∧ Follows env s s' := by
  cases event with
  | builtinDone => exact builtinDone_follows hInv h
  | jobDone i => exact jobDone_follows hInv h
  | finish => exact finish_follows hInv h
  | feed => exact feed_follows hInv h
  | parse => exact parse_follows hInv h

/-- A state in which nothing has been read or started. -/
structure Fresh (s : State) : Prop where
  builtin : s.builtin = none
  waiting : s.waiting = []
  partialCmd : s.partialCmd = false

theorem Fresh.inv (h : Fresh s) : Inv s where
  one := by rw [h.waiting]; exact Nat.zero_le 1
  alone _ := h.waiting
  partialCmd hPartial := by
    rw [h.partialCmd] at hPartial
    cases hPartial

/-- The script from the beginning comes to the script of each state that is reached. -/
theorem reached_follows {s₀ : State} (hFresh : Fresh s₀) (h : Reached 1 env s₀ s) : Inv s ∧
    Relation.ReflTransGen (fun a b => Script.turn env a = .inl b) s₀.script s.script := by
  refine h.invariant (I := fun s => Inv s ∧ Relation.ReflTransGen _ s₀.script s.script) ?_ ?_
  · rintro s rfl
    exact ⟨hFresh.inv, .refl⟩
  · rintro s event s' ⟨hInv, hWay⟩ hStep
    obtain ⟨hInv', hSame | hTurn⟩ := step_follows hInv hStep
    · exact ⟨hInv', hSame ▸ hWay⟩
    · exact ⟨hInv', hWay.tail hTurn⟩

/-- Where everything is done nothing of the script is left. -/
theorem script_done (hInv : Inv s) (h : s.done = true) :
    s.script = ⟨[], s.exitCode, s.failedExitCode, s.history⟩ := by
  unfold State.done at h
  simp only [Bool.and_eq_true, List.isEmpty_iff, Option.isNone_iff_eq_none] at h
  obtain ⟨⟨⟨hFeeders, hWaiting⟩, hBuiltin⟩, hNeeds⟩ := h
  unfold State.script
  rw [hFeeders, State.settled_idle hBuiltin hWaiting, remaining, hInv.commands hNeeds]

/-- What a script ends with. -/
theorem leaves_done {s₀ : State} (hFresh : Fresh s₀) (h : Reached 1 env s₀ s)
    (hDone : s.done = true) : Verified.Leaves (Script.turn env) s₀.script
      ⟨[], s.exitCode, s.failedExitCode, s.history⟩ := by
  obtain ⟨hInv, hWay⟩ := reached_follows hFresh h
  refine .along hWay ?_
  rw [script_done hInv hDone]
  exact .inr rfl

end

/-- `f`, then `|| g` from another chunk, which is run as a job, since `f` fails. -/
def sampleEnv : Env where
  failExit _ := false
  outcome history := if history.length = 1 then .ended 1 else .job 3 false

def sampleState (chunks : List Bytes) : State :=
  ⟨[], false, [⟨chunks, []⟩], none, [], 0, 0, []⟩

def sampleEnd : State :=
  ⟨[], false, [], none, [], 3, 0,
    [⟨[bytes "f"], none, false, .any⟩, ⟨[bytes "g"], none, false, .or⟩]⟩

/-- The end of the second line comes by itself. -/
theorem sample_reached :
    Reached 1 sampleEnv (sampleState [bytes "f\n", bytes "||", bytes " g"]) sampleEnd := by
  refine .next .feed (.next (.jobDone 0) (.next .parse (.next .feed (.next .parse (.next .feed
    (.next .parse (.next .feed (.next .parse (.next .feed (.start rfl) rfl) rfl) rfl) rfl) rfl) rfl)
    rfl) rfl) rfl) rfl

theorem sample_reached_line :
    Reached 1 sampleEnv (sampleState [bytes "f\n|| g\n"]) sampleEnd := by
  refine .next .feed (.next (.jobDone 0) (.next .parse (.next .parse (.next .feed (.start rfl) rfl)
    rfl) rfl) rfl) rfl

end Lftp.Ports.CmdExec
