import Lftp.Ports.ParseCmd
import Lftp.Verified.Getopt
import Lftp.Verified.Runs
import Lftp.Verified.Scan

/-!
# The command queue

`QueueFeeder` with its list of jobs, `builtin_queue`, and as much of `builtin_cd`,
`builtin_lcd` and `exec_parsed_command` as the lines of a queue dump need. The text
of the dump goes through `parse_one_cmd` of `Lftp.Ports.ParseCmd`.

What a directory change arrives at is the business of the session and of the file
system, and so `Env` gives it; it also gives the table of commands, what the other
commands do, and `fnmatch`. `cmd:fail-exit` and `cmd:at-finish` have their defaults.

* `Line` is a line of a dump with its text, and `Line.run` what it does; `run_lines`
  connects them to the parser.
* `dump_recreates_iff` says which queues their dumps recreate.
-/

namespace Lftp.Ports.QueueFeeder

open Lftp.Verified
open Lftp.Ports.ParseCmd hiding isSpace skipSpace

/-! ## `QueueFeeder` -/

/-- `QueueJob`; a null pointer is `none`. -/
structure QueueJob where
  cmd : Bytes
  pwd : Option Bytes
  lpwd : Option Bytes
deriving DecidableEq

/-- `get_job`: the place of a job in the list. -/
def getJob (n : Int) (jobs : List QueueJob) : Option Nat :=
  if n = -1 then (if jobs = [] then none else some (jobs.length - 1))
  else if 0 ≤ n ∧ n < jobs.length then some n.toNat
  else none

def insertJobs (job jobs : List QueueJob) : Option Nat → List QueueJob
  | none => jobs ++ job
  | some before => jobs.take before ++ job ++ jobs.drop before

/-- `QueueCmd`. -/
def queueCmd (cmd : Bytes) (pwd lpwd : Option Bytes) (pos : Int) (jobs : List QueueJob) :
    List QueueJob :=
  -- we never want a newline at the end
  let cmd := if cmd.getLast? = some (ch '\n') then cmd.dropLast else cmd
  insertJobs [⟨cmd, pwd, lpwd⟩] jobs (if pos ≠ -1 then getJob pos jobs else none)

/-- `DelJob` by number; `false` when there is no such job. -/
def delJob (from_ : Int) (jobs : List QueueJob) : Bool × List QueueJob :=
  match getJob from_ jobs with
  | none => (false, jobs)
  | some i => (true, jobs.eraseIdx i)

/-- `MoveJob` by number. -/
def moveJob (from_ to_ : Int) (jobs : List QueueJob) : Bool × List QueueJob :=
  if from_ = to_ then (false, jobs)
  else
    let before := if to_ ≠ -1 then getJob to_ jobs else none
    match getJob from_ jobs with
    | none => (false, jobs)
    | some i =>
      (true, insertJobs (jobs[i]?).toList (jobs.eraseIdx i)
        (before.map fun b => if i < b then b - 1 else b))

/-- The loop of `FormatJobs` with `v == PrintRequeue`; `pwd` and `lpwd` are the
directories that were printed last. -/
def formatJobs (job : QueueJob) : Option Bytes → Option Bytes → List QueueJob → Bytes
  | _, _, [] => []
  | pwd, lpwd, _ :: j =>
    -- every turn prints the members of `job`, and not those of the loop variable
    (if pwd ≠ job.pwd then bytes "cd " ++ quoted (job.pwd.getD []) ++ bytes " &\n" else [])
      ++ (if lpwd ≠ job.lpwd then bytes "lcd " ++ quoted (job.lpwd.getD []) ++ bytes " &\n"
        else [])
      ++ bytes "queue " ++ quoted job.cmd ++ [ch '\n']
      ++ formatJobs job job.pwd job.lpwd j

/-- `FormatStatus` with `v == PrintRequeue`. -/
def formatStatus : List QueueJob → Bytes
  | [] => []
  | job :: j => formatJobs job none none (job :: j)

/-! ## Commands -/

/-- What the queue and its dump are about in a `CmdExec`. -/
structure Session where
  exitCode : Int
  cwd : Option Bytes
  lcwd : Option Bytes
  jobs : List QueueJob
deriving DecidableEq

/-- The commands that `find_cmd` can find. -/
inductive Command where
  | cd | lcd | queue
  | other (name : Bytes)
deriving DecidableEq

/-- What the commands depend on. -/
structure Env where
  aliases : List (Bytes × Bytes)
  findCmd : Bytes → Option Command
  /-- The remote directory that `cd` sets, in the background or not. -/
  cd : Bool → Option Bytes → Bytes → Option Bytes
  /-- The name of the local directory after a successful `lcd`. -/
  lcd : Option Bytes → Bytes → Option (Option Bytes)
  fnmatch : Bytes → Bytes → Bool
  other : Bytes → CmdExec → Session → Session
  findCmd_cd : findCmd (bytes "cd") = some .cd
  findCmd_lcd : findCmd (bytes "lcd") = some .lcd
  findCmd_queue : findCmd (bytes "queue") = some .queue
  notAlias : aliasFind aliases (bytes "cd") = none ∧ aliasFind aliases (bytes "lcd") = none
    ∧ aliasFind aliases (bytes "queue") = none

/-- `builtin_cd`, with the arguments after its name. -/
def builtinCd (env : Env) (background : Bool) (args : List Bytes) (s : Session) : Session :=
  let change := fun dir => match env.cd background s.cwd dir with
    | none => s
    | some cwd => { s with exitCode := 0, cwd := some cwd }
  match args with
  | [] => change (bytes "~")
  | [dir] => change dir
  | _ => s

/-- `builtin_lcd`. -/
def builtinLcd (env : Env) (args : List Bytes) (s : Session) : Session :=
  let change := fun dir => match env.lcd s.lcwd dir with
    | none => s
    | some lcwd => { s with exitCode := 0, lcwd := lcwd }
  match args with
  | [] => change (bytes "~")
  | [dir] => change dir
  | _ => s

/-- `queue_options`, and the option string of `builtin_queue`. -/
def queueOptions : OptionTable where
  short := [(ch 'd', false), (ch 'm', true), (ch 'n', true), (ch 'q', false), (ch 'v', false),
    (ch 'Q', false), (ch 'w', false)]
  long := [⟨bytes "move", true, ch 'm'⟩, ⟨bytes "delete", false, ch 'd'⟩,
    ⟨bytes "quiet", false, ch 'q'⟩, ⟨bytes "verbose", false, ch 'v'⟩,
    ⟨bytes "queue", true, ch 'Q'⟩]

/-- `mode`, with `arg` where it moves. -/
inductive Mode where
  | ins | del
  | move (arg : Bytes)
deriving DecidableEq

def atoi (s : Bytes) : Int := ((scanInt s).map Prod.fst).getD 0

/-- The loop over the options: the mode and `pos`, `none` after an error. -/
def queueMode : List Opt → Mode × Int → Option (Mode × Int)
  | [], m => some m
  | .bad :: _, _ => none
  | .known val optarg :: opts, (mode, pos) =>
    let arg := optarg.getD []
    if val = ch 'n' then
      if !isDigit (arg.headD 0) || atoi arg = 0 then none
      else queueMode opts (mode, atoi arg - 1)
    else if val = ch 'm' then queueMode opts (.move arg, pos)
    else if val = ch 'd' then queueMode opts (.del, pos)
    else queueMode opts (mode, pos)

/-- `CombineCmd`. -/
def combineCmd : List Bytes → Bytes
  | [] => []
  | [arg] => arg
  | args => combineQuoted args

/-- The result of `DelJob` or `MoveJob` becomes the exit code. -/
def Session.edited (s : Session) (r : Bool × List QueueJob) : Session :=
  { s with exitCode := if r.1 then 0 else 1, jobs := r.2 }

/-- `DelJob` by pattern. -/
def delJobs (env : Env) (cmd : Bytes) (jobs : List QueueJob) : Bool × List QueueJob :=
  (jobs.any fun j => env.fnmatch cmd j.cmd, jobs.filter fun j => !env.fnmatch cmd j.cmd)

/-- `MoveJob` by pattern: `before` goes on until it is not one of the moved jobs. -/
def moveJobs (env : Env) (cmd : Bytes) (to_ : Int) (jobs : List QueueJob) :
    Bool × List QueueJob :=
  let kept := jobs.filter fun j => !env.fnmatch cmd j.cmd
  let before := (if to_ ≠ -1 then getJob to_ jobs else none).map fun b =>
    ((jobs.take b).filter fun j => !env.fnmatch cmd j.cmd).length
  (jobs.any fun j => env.fnmatch cmd j.cmd,
    insertJobs (jobs.filter fun j => env.fnmatch cmd j.cmd) kept before)

/-- `builtin_queue`. -/
def builtinQueue (env : Env) (args : List Bytes) (s : Session) : Session :=
  let (opts, operands) := queueOptions.getopt args
  match queueMode opts (.ins, -1) with
  | none => s
  | some (.ins, pos) =>
    if operands = [] then { s with exitCode := 0 }
    else
      let cmd := combineCmd operands
      if strcasecmp cmd (bytes "stop") = 0 || strcasecmp cmd (bytes "start") = 0 then
        { s with exitCode := 0 }
      else { s with exitCode := 0, jobs := queueCmd cmd s.cwd s.lcwd pos s.jobs }
  | some (.del, _) =>
    match operands with
    | [] => s.edited (delJob (-1) s.jobs)
    | arg :: _ =>
      if atoi arg ≠ 0 then s.edited (delJob (atoi arg - 1) s.jobs)
      else s.edited (delJobs env arg s.jobs)
  | some (.move arg, _) =>
    let to_ := match operands with
      | [] => some (-1)
      | a1 :: _ => if isDigit (a1.headD 0) then some (atoi a1 - 1) else none
    match to_ with
    | none => s
    | some to_ =>
      if atoi arg ≠ 0 then s.edited (moveJob (atoi arg - 1) to_ s.jobs)
      else s.edited (moveJobs env arg to_ s.jobs)

/-- `exec_parsed_command`. -/
def execParsedCommand (env : Env) (e : CmdExec) (s : Session) : Session :=
  if e.condition = .and && s.exitCode ≠ 0 || e.condition = .or && s.exitCode = 0 then s
  else
    let s := { s with exitCode := 1 }
    match e.args with
    | [] => s
    | name :: args =>
      match env.findCmd name with
      | none => s
      | some .cd => builtinCd env e.background args s
      | some .lcd => builtinLcd env args s
      | some .queue => builtinQueue env args s
      | some (.other name) => env.other name e s

/-- A command interpreter with what is left of its input. -/
structure Shell where
  exec : CmdExec
  session : Session
deriving DecidableEq

/-- `CmdExec::Do` looks at `alias_field` after `parse_one_cmd`. -/
def pastAliases (e : CmdExec) : CmdExec := if e.aliasField ≤ 0 then freeUsedAliases e else e

/-- `CmdExec::Do` after `parse_one_cmd`; it waits for more input when that is `again`. -/
def Shell.take (env : Env) (s : Shell) : ParseResult × CmdExec → Option Shell
  | (.ok, e) => some ⟨pastAliases e,
      if e.args = [] then s.session else execParsedCommand env (pastAliases e) s.session⟩
  | (.err _, e) => some ⟨pastAliases e, s.session⟩
  | (.again, _) => none

/-- The next command is parsed and executed. -/
def Next (env : Env) (s : Shell) (_ : Unit) (s' : Shell) : Prop :=
  ∃ fuel r, parseOneCmd env.aliases fuel s.exec = some r ∧ s.take env r = some s'

/-! ## Lines of a dump -/

/-- A background command ends at its `&`; what is left of the line is blank. -/
inductive Line where
  | cd (dir : Bytes)
  | lcd (dir : Bytes)
  | queue (cmd : Bytes)
  | blank
deriving DecidableEq

def Line.text : Line → Bytes
  | cd dir => bytes "cd" ++ ch ' ' :: (quoted dir ++ [ch ' ', ch '&'])
  | lcd dir => bytes "lcd" ++ ch ' ' :: (quoted dir ++ [ch ' ', ch '&'])
  | queue cmd => combineQuoted [bytes "queue", cmd] ++ [ch '\n']
  | blank => [ch '\n']

/-- What the parser can read back. -/
def Line.Clean : Line → Prop
  | cd arg | lcd arg | queue arg => 0 ∉ arg ∧ ch '\n' ∉ arg
  | blank => True

/-- The directory before a `&`. -/
def dirArgs (dir : Bytes) : List Bytes := if dir = [] then [] else [dir]

/-- What the line does. -/
def Line.run (env : Env) (s : Session) : Line → Session
  | cd dir => builtinCd env true (dirArgs dir) { s with exitCode := 1 }
  | lcd dir => builtinLcd env (dirArgs dir) { s with exitCode := 1 }
  | queue cmd => builtinQueue env (readBack [cmd]) { s with exitCode := 1 }
  | blank => s

def text (lines : List Line) : Bytes := lines.flatMap Line.text

theorem head_text_ne_and (lines : List Line) : (text lines).head? ≠ some (ch '&') := by
  cases lines with
  | nil => nofun
  | cons line lines =>
      cases line with
      | blank => exact fun h => absurd (Option.some.inj h) (by decide)
      | cd dir => exact fun h => absurd (Option.some.inj h) (by decide)
      | lcd dir => exact fun h => absurd (Option.some.inj h) (by decide)
      | queue cmd => exact fun h => absurd (Option.some.inj h) (by decide)

theorem text_eq_nil_iff (lines : List Line) : text lines = [] ↔ lines = [] := by
  constructor
  · intro h
    cases lines with
    | nil => rfl
    | cons line lines =>
        have hText : line.text = [] := (List.append_eq_nil_iff.mp h).1
        cases line with
        | blank => cases hText
        | cd dir => cases hText
        | lcd dir => cases hText
        | queue cmd => cases hText
  · rintro rfl
    rfl

/-! ## Parsing a line -/

/-- The only result of parsing `text` is a command with these arguments. -/
def Parses (aliases : List (Bytes × Bytes)) (e : CmdExec) (text : Bytes) (args : List Bytes)
    (background : Bool) (rest : Bytes) : Prop :=
  ∃ e', Taken e' .any args background rest
    ∧ ∀ r, (∃ fuel, parseOneCmd aliases fuel { e with cmdBuf := text } = some r) ↔ r = (.ok, e')

theorem argTurn_and (aliases : List (Bytes × Bytes)) (e : CmdExec) (line : Bytes) :
    argTurn aliases (e, ch '&' :: line) = .inr (.operator e (ch '&' :: line)) := rfl

theorem leaves_background {e : CmdExec} {arg : Bytes} (hArgs : e.args ≠ []) (hNul : 0 ∉ arg)
    (hNewline : ch '\n' ∉ arg) (aliases : List (Bytes × Bytes)) (rest : Bytes) :
    Leaves (argTurn aliases) (e, ch ' ' :: (quoted arg ++ ch ' ' :: ch '&' :: rest))
      (.operator { e with args := e.args ++ dirArgs arg } (ch '&' :: rest)) := by
  apply Leaves.of_turn_eq (argTurn_space aliases e _)
  by_cases hArg : arg = []
  · rw [hArg]
    show Leaves (argTurn aliases) (e, ch ' ' :: ch '&' :: rest)
      (.operator { e with args := e.args ++ [] } _)
    rw [List.append_nil]
    exact .inr ((argTurn_space aliases e _).trans (argTurn_and aliases e rest))
  · have hTurn := argTurn_quoted hArgs hArg hNul hNewline (.inl rfl)
      (fun h => absurd h (by decide : ch ' ' ≠ ch '\n')) aliases (ch '&' :: rest)
    rw [dirArgs, if_neg hArg]
    exact .inl hTurn (.inr ((argTurn_space aliases _ _).trans (argTurn_and aliases _ rest)))

theorem parses_background {aliases : List (Bytes × Bytes)} {word arg rest : Bytes}
    (hWord : PlainCommandWord aliases word) (hNul : 0 ∉ arg) (hNewline : ch '\n' ∉ arg)
    (hRest : rest.head? ≠ some (ch '&')) (e : CmdExec) :
    Parses aliases e (word ++ ch ' ' :: (quoted arg ++ ch ' ' :: ch '&' :: rest))
      (word :: dirArgs arg) true rest := by
  generalize hLine : quoted arg ++ ch ' ' :: ch '&' :: rest = line
  have hLeaves := leaves_background
    (e := { started e with cmdBuf := word ++ ch ' ' :: line, args := [word] })
    (List.cons_ne_nil _ _) hNul hNewline aliases rest
  rw [hLine] at hLeaves
  have hBuf : word ++ ch ' ' :: line
      = (word ++ ch ' ' :: (quoted arg ++ [ch ' ', ch '&'])) ++ rest := by
    rw [← hLine]
    simp
  obtain ⟨e', hFinish, hTaken⟩ := finish_end
    (e := { started e with cmdBuf := word ++ ch ' ' :: line, args := [word] ++ dirArgs arg })
    (.inr ⟨rfl, hRest⟩) hBuf
  refine ⟨e', hTaken, fun r => ?_⟩
  rw [parseOneCmd_word hWord e (.inl rfl) line r]
  constructor
  · rintro ⟨x, hx, rfl⟩
    rw [hx.unique hLeaves]
    exact hFinish
  · rintro rfl
    exact ⟨_, hLeaves, hFinish⟩

theorem parses_blank (aliases : List (Bytes × Bytes)) (e : CmdExec) (rest : Bytes) :
    Parses aliases e (ch '\n' :: rest) [] false rest := by
  have hBuf : ch '\n' :: rest = [ch '\n'] ++ rest := rfl
  obtain ⟨e', hFinish, hTaken⟩ :=
    finish_end (e := { started e with cmdBuf := ch '\n' :: rest }) (.inl rfl) hBuf
  refine ⟨e', hTaken, fun r => ?_⟩
  have hStart : startCondition (ch '\n' :: rest) = (.any, ch '\n' :: rest) :=
    startCondition_of_starts (by decide) rest
  have hParse : ∀ fuel, parseOneCmd aliases fuel { e with cmdBuf := ch '\n' :: rest }
      = (loop (argTurn aliases) fuel
          ({ started e with cmdBuf := ch '\n' :: rest }, ch '\n' :: rest)).map finish := by
    intro fuel
    simp only [parseOneCmd, hStart, started]
    rfl
  constructor
  · rintro ⟨fuel, h⟩
    rw [hParse] at h
    cases fuel with
    | zero => cases h
    | succ n =>
        rw [loop_inr (argTurn_newline aliases _ rest), Option.map_some, hFinish] at h
        exact (Option.some.inj h).symm
  · rintro rfl
    refine ⟨1, ?_⟩
    rw [hParse, loop_inr (argTurn_newline aliases _ rest), Option.map_some, hFinish]

theorem parses_combineQuoted {aliases : List (Bytes × Bytes)} {word arg : Bytes}
    (hWord : PlainCommandWord aliases word) (hNul : 0 ∉ arg) (hNewline : ch '\n' ∉ arg)
    (e : CmdExec) (rest : Bytes) :
    Parses aliases e (combineQuoted [word, arg] ++ ch '\n' :: rest) (word :: readBack [arg]) false
      rest :=
  parse_combineQuoted hWord (by simpa using hNul) (by simpa using hNewline) e rest

/-! ## Running the lines -/

/-- The command word of a line can be read, when it is not an alias. -/
theorem plain_of_notAlias {aliases : List (Bytes × Bytes)} {word : Bytes}
    (hWord : word = bytes "cd" ∨ word = bytes "lcd" ∨ word = bytes "queue")
    (hAlias : aliasFind aliases word = none) : PlainCommandWord aliases word := by
  have hQuote : needsQuotation word = false ∧ 0 ∉ word ∧ ch '\n' ∉ word := by
    rcases hWord with rfl | rfl | rfl <;> decide
  have hBare := bare_of_needsQuotation hQuote.1 hQuote.2.1 hQuote.2.2
  rcases hWord with rfl | rfl | rfl
  · exact ⟨by decide, hBare, by decide, by rintro _ ⟨⟩; decide, hAlias⟩
  · exact ⟨by decide, hBare, by decide, by rintro _ ⟨⟩; decide, hAlias⟩
  · exact ⟨by decide, hBare, by decide, by rintro _ ⟨⟩; decide, hAlias⟩

theorem taken_pastAliases {e : CmdExec} {condition : Condition} {args : List Bytes}
    {background : Bool} {rest : Bytes} (h : Taken e condition args background rest) :
    Taken (pastAliases e) condition args background rest := by
  unfold pastAliases
  split
  · exact ⟨h.condition_eq, h.args_eq, h.output_eq, h.background_eq, h.cmdBuf_eq⟩
  · exact h

theorem next_of_parses {env : Env} {s : Shell} {text : Bytes} {args : List Bytes}
    {background : Bool} {rest : Bytes} (hBuf : s.exec.cmdBuf = text)
    (h : Parses env.aliases s.exec text args background rest) :
    ∃ e, Taken e .any args background rest ∧ ∀ t, Next env s () t
      ↔ t = ⟨e, if args = [] then s.session else execParsedCommand env e s.session⟩ := by
  obtain ⟨e, hTaken, hParse⟩ := h
  have hExec : { s.exec with cmdBuf := text } = s.exec := by rw [← hBuf]
  rw [hExec] at hParse
  refine ⟨_, taken_pastAliases hTaken, fun t => ?_⟩
  have hTake : s.take env (.ok, e) = some ⟨pastAliases e,
      if args = [] then s.session else execParsedCommand env (pastAliases e) s.session⟩ := by
    simp only [Shell.take, hTaken.args_eq]
  constructor
  · rintro ⟨fuel, r, hRun, ht⟩
    rw [(hParse r).mp ⟨fuel, hRun⟩, hTake] at ht
    exact (Option.some.inj ht).symm
  · rintro rfl
    obtain ⟨fuel, hRun⟩ := (hParse _).mpr rfl
    exact ⟨fuel, _, hRun, hTake⟩

theorem execParsedCommand_of_taken {env : Env} {e : CmdExec} {name : Bytes} {args : List Bytes}
    {background : Bool} {rest : Bytes} (h : Taken e .any (name :: args) background rest)
    (s : Session) :
    execParsedCommand env e s = match env.findCmd name with
      | none => { s with exitCode := 1 }
      | some .cd => builtinCd env background args { s with exitCode := 1 }
      | some .lcd => builtinLcd env args { s with exitCode := 1 }
      | some .queue => builtinQueue env args { s with exitCode := 1 }
      | some (.other name) => env.other name e { s with exitCode := 1 } := by
  simp only [execParsedCommand, h.condition_eq, h.args_eq, h.background_eq]
  rfl

/-- A line is parsed in one way, and executed. -/
theorem next_line {env : Env} {s : Shell} {line : Line} {lines : List Line}
    (hClean : line.Clean) (hBuf : s.exec.cmdBuf = text (line :: lines)) :
    ∃ s', (∀ t, Next env s () t ↔ t = s') ∧ s'.exec.cmdBuf = text lines
      ∧ s'.session = line.run env s.session := by
  have hText : text (line :: lines) = line.text ++ text lines := rfl
  rw [hText] at hBuf
  have hRest := head_text_ne_and lines
  cases line with
  | blank =>
      obtain ⟨e, hTaken, hNext⟩ := next_of_parses hBuf (parses_blank env.aliases s.exec _)
      exact ⟨_, hNext, hTaken.cmdBuf_eq, rfl⟩
  | cd dir =>
      have hWord := plain_of_notAlias (.inl rfl) env.notAlias.1
      obtain ⟨e, hTaken, hNext⟩ := next_of_parses (hBuf.trans (by simp [Line.text]))
        (parses_background hWord hClean.1 hClean.2 hRest s.exec)
      refine ⟨_, hNext, hTaken.cmdBuf_eq, ?_⟩
      rw [if_neg (List.cons_ne_nil _ _), execParsedCommand_of_taken hTaken, env.findCmd_cd]
      rfl
  | lcd dir =>
      have hWord := plain_of_notAlias (.inr (.inl rfl)) env.notAlias.2.1
      obtain ⟨e, hTaken, hNext⟩ := next_of_parses (hBuf.trans (by simp [Line.text]))
        (parses_background hWord hClean.1 hClean.2 hRest s.exec)
      refine ⟨_, hNext, hTaken.cmdBuf_eq, ?_⟩
      rw [if_neg (List.cons_ne_nil _ _), execParsedCommand_of_taken hTaken, env.findCmd_lcd]
      rfl
  | queue cmd =>
      have hWord := plain_of_notAlias (.inr (.inr rfl)) env.notAlias.2.2
      obtain ⟨e, hTaken, hNext⟩ := next_of_parses (hBuf.trans (by simp [Line.text]))
        (parses_combineQuoted hWord hClean.1 hClean.2 s.exec (text lines))
      refine ⟨_, hNext, hTaken.cmdBuf_eq, ?_⟩
      rw [if_neg (List.cons_ne_nil _ _), execParsedCommand_of_taken hTaken, env.findCmd_queue]
      rfl

/-- Nothing is left to parse. -/
theorem next_end {env : Env} {s t : Shell} (hBuf : s.exec.cmdBuf = []) (h : Next env s () t) :
    t.exec.cmdBuf = [] ∧ t.session = s.session := by
  obtain ⟨fuel, r, hRun, hTake⟩ := h
  simp only [parseOneCmd, hBuf, Option.some.injEq] at hRun
  rw [← hRun] at hTake
  simp only [Shell.take, if_true, Option.some.injEq] at hTake
  rw [← hTake]
  constructor
  · show (pastAliases _).cmdBuf = []
    unfold pastAliases
    split
    · rfl
    · rfl
  · rfl

/-- Lines wait to be run, and end in the given session. -/
def Pending (env : Env) (final : Session) (s : Shell) : Prop :=
  ∃ lines : List Line, (∀ line ∈ lines, line.Clean) ∧ s.exec.cmdBuf = text lines
    ∧ lines.foldl (Line.run env) s.session = final

theorem Pending.next {env : Env} {final : Session} {s t : Shell} (h : Pending env final s)
    (hNext : Next env s () t) : Pending env final t := by
  obtain ⟨lines, hClean, hBuf, hFinal⟩ := h
  cases lines with
  | nil =>
      obtain ⟨hEnd, hSession⟩ := next_end hBuf hNext
      exact ⟨[], nofun, hEnd, by rw [hSession]; exact hFinal⟩
  | cons line lines =>
      rw [List.forall_mem_cons] at hClean
      obtain ⟨s', hUnique, hRest, hSession⟩ := next_line hClean.1 hBuf
      rw [(hUnique t).mp hNext]
      exact ⟨lines, hClean.2, hRest, by rw [hSession]; exact hFinal⟩

theorem reach_end {env : Env} {init : Shell → Prop} {s : Shell} {lines : List Line}
    (hReach : Reach init (Next env) s) (hClean : ∀ line ∈ lines, line.Clean)
    (hBuf : s.exec.cmdBuf = text lines) :
    ∃ s', Reach init (Next env) s' ∧ s'.exec.cmdBuf = []
      ∧ s'.session = lines.foldl (Line.run env) s.session := by
  induction lines generalizing s with
  | nil => exact ⟨s, hReach, hBuf, rfl⟩
  | cons line lines ih =>
      rw [List.forall_mem_cons] at hClean
      obtain ⟨t, hUnique, hRest, hSession⟩ := next_line hClean.1 hBuf
      have hEnd := ih (.next () hReach ((hUnique t).mpr rfl)) hClean.2 hRest
      rw [hSession] at hEnd
      exact hEnd

/-- The lines of a text are run one after another, and nothing else happens. -/
theorem run_lines (env : Env) (e : CmdExec) (session : Session) {lines : List Line}
    (hClean : ∀ line ∈ lines, line.Clean) (P : Session → Prop) :
    (∃ s, Reach (· = ⟨{ e with cmdBuf := text lines }, session⟩) (Next env) s
        ∧ s.exec.cmdBuf = [] ∧ P s.session)
      ↔ P (lines.foldl (Line.run env) session) := by
  constructor
  · rintro ⟨s, hReach, hBuf, hP⟩
    have hPending : Pending env (lines.foldl (Line.run env) session) s :=
      hReach.invariant (fun _ hs => hs ▸ ⟨lines, hClean, rfl, rfl⟩) fun _ _ _ h => h.next
    obtain ⟨left, -, hLeft, hFinal⟩ := hPending
    rw [hBuf, eq_comm, text_eq_nil_iff] at hLeft
    rw [hLeft] at hFinal
    rw [← hFinal]
    exact hP
  · intro hP
    have hStart : Reach (· = (⟨{ e with cmdBuf := text lines }, session⟩ : Shell)) (Next env)
        ⟨{ e with cmdBuf := text lines }, session⟩ := .start rfl
    obtain ⟨s, hReach, hBuf, hSession⟩ := reach_end hStart hClean rfl
    exact ⟨s, hReach, hBuf, by rw [hSession]; exact hP⟩

/-! ## The lines of a dump -/

/-- A directory that is known is changed to. -/
def dirLines (line : Bytes → Line) : Option Bytes → List Line
  | none => []
  | some dir => [line dir, .blank]

/-- The dump of `n` jobs after the directories of the first one. -/
def dumpLines (job : QueueJob) (n : Nat) : List Line :=
  dirLines .cd job.pwd ++ dirLines .lcd job.lpwd ++ List.replicate n (.queue job.cmd)

theorem text_append (ls ls' : List Line) : text (ls ++ ls') = text ls ++ text ls' :=
  List.flatMap_append

theorem text_queue (cmd : Bytes) :
    (Line.queue cmd).text = bytes "queue " ++ quoted cmd ++ [ch '\n'] := by
  have hWord : combineQuoted [bytes "queue", cmd] = bytes "queue " ++ quoted cmd := rfl
  rw [Line.text, hWord]

theorem formatJobs_same (job : QueueJob) (j : List QueueJob) :
    formatJobs job job.pwd job.lpwd j = text (List.replicate j.length (.queue job.cmd)) := by
  induction j with
  | nil => rfl
  | cons job' j ih =>
      rw [formatJobs, ih, List.length_cons, List.replicate_succ]
      show _ = (Line.queue job.cmd).text ++ text (List.replicate j.length (.queue job.cmd))
      rw [text_queue]
      simp

theorem formatStatus_eq (job : QueueJob) (j : List QueueJob) :
    formatStatus (job :: j) = text (dumpLines job (j.length + 1)) := by
  have hCd : (if none ≠ job.pwd then bytes "cd " ++ quoted (job.pwd.getD []) ++ bytes " &\n"
      else []) = text (dirLines .cd job.pwd) := by
    cases job.pwd with
    | none => rfl
    | some dir =>
        show bytes "cd " ++ quoted dir ++ bytes " &\n"
          = (bytes "cd" ++ ch ' ' :: (quoted dir ++ [ch ' ', ch '&'])) ++ ([ch '\n'] ++ [])
        simp [bytes]
  have hLcd : (if none ≠ job.lpwd then bytes "lcd " ++ quoted (job.lpwd.getD []) ++ bytes " &\n"
      else []) = text (dirLines .lcd job.lpwd) := by
    cases job.lpwd with
    | none => rfl
    | some dir =>
        show bytes "lcd " ++ quoted dir ++ bytes " &\n"
          = (bytes "lcd" ++ ch ' ' :: (quoted dir ++ [ch ' ', ch '&'])) ++ ([ch '\n'] ++ [])
        simp [bytes]
  rw [formatStatus, formatJobs, hCd, hLcd, formatJobs_same, dumpLines, text_append, text_append,
    List.replicate_succ]
  show _ = _ ++ ((Line.queue job.cmd).text ++ text (List.replicate j.length (.queue job.cmd)))
  rw [text_queue]
  simp

/-! ## The queue command -/

/-- The argument is not taken for an option or for another order to the queue. -/
def Queueable (cmd : Bytes) : Prop :=
  isOption cmd = false ∧ strcasecmp cmd (bytes "stop") ≠ 0 ∧ strcasecmp cmd (bytes "start") ≠ 0

theorem builtinQueue_queueable {cmd : Bytes} (h : Queueable cmd) (hNewline : ch '\n' ∉ cmd)
    (env : Env) (s : Session) :
    builtinQueue env [cmd] s
      = { s with exitCode := 0, jobs := s.jobs ++ [⟨cmd, s.cwd, s.lcwd⟩] } := by
  have hOptions : queueOptions.getopt [cmd] = ([], [cmd]) := OptionTable.getopt_operand h.1 []
  have hLast : cmd.getLast? ≠ some (ch '\n') := fun hLast => hNewline (List.mem_of_getLast? hLast)
  simp only [builtinQueue, hOptions, queueMode, combineCmd, h.2.1, h.2.2, queueCmd, if_neg hLast]
  rfl

theorem getJob_nil (n : Int) : getJob n [] = none := by
  unfold getJob
  split
  · rfl
  · rw [if_neg]
    rintro ⟨hLow, hHigh⟩
    rw [List.length_nil] at hHigh
    omega

theorem moveJob_nil (from_ to_ : Int) : (moveJob from_ to_ []).2 = [] := by
  unfold moveJob
  split
  · rfl
  · simp only [getJob_nil]

theorem moveJobs_nil (env : Env) (cmd : Bytes) (to_ : Int) : (moveJobs env cmd to_ []).2 = [] := by
  have hBefore : (if to_ ≠ -1 then getJob to_ [] else none) = none := by
    rw [getJob_nil, ite_self]
  rw [moveJobs, hBefore]
  rfl

/-- What is not queueable leaves no operand, or another order. -/
theorem operands_of_not_queueable {args : List Bytes}
    (hArgs : args = [] ∨ ∃ cmd, args = [cmd] ∧ ¬ Queueable cmd) :
    (queueOptions.getopt args).2 = []
      ∨ strcasecmp (combineCmd (queueOptions.getopt args).2) (bytes "stop") = 0
      ∨ strcasecmp (combineCmd (queueOptions.getopt args).2) (bytes "start") = 0 := by
  rcases hArgs with rfl | ⟨cmd, rfl, hCmd⟩
  · exact .inl rfl
  cases hOption : isOption cmd with
  | true => exact .inl (OptionTable.getopt_option hOption)
  | false =>
      rw [OptionTable.getopt_operand hOption]
      by_cases hStop : strcasecmp cmd (bytes "stop") = 0
      · exact .inr (.inl hStop)
      · by_cases hStart : strcasecmp cmd (bytes "start") = 0
        · exact .inr (.inr hStart)
        · exact absurd ⟨hOption, hStop, hStart⟩ hCmd

/-- Nothing is added then, and an empty queue stays empty. -/
theorem builtinQueue_empty {args : List Bytes}
    (hArgs : args = [] ∨ ∃ cmd, args = [cmd] ∧ ¬ Queueable cmd) (env : Env) {s : Session}
    (hJobs : s.jobs = []) : (builtinQueue env args s).jobs = [] := by
  have hOperands := operands_of_not_queueable hArgs
  unfold builtinQueue
  dsimp only
  split
  · exact hJobs
  · by_cases hNone : (queueOptions.getopt args).2 = []
    · rw [if_pos hNone]
      exact hJobs
    · rw [if_neg hNone, if_pos (by simpa using hOperands.resolve_left hNone)]
      exact hJobs
  · rw [hJobs]
    split
    · rfl
    · split
      · show (delJob _ []).2 = []
        rw [delJob, getJob_nil]
      · rfl
  · rw [hJobs]
    split
    · exact hJobs
    · split
      · exact moveJob_nil _ _
      · exact moveJobs_nil _ _ _

/-! ## Newlines -/

theorem mem_insertJobs {job jobs : List QueueJob} {before : Option Nat} {j : QueueJob}
    (h : j ∈ insertJobs job jobs before) : j ∈ job ∨ j ∈ jobs := by
  cases before with
  | none => exact (List.mem_append.mp h).symm
  | some b =>
      rcases List.mem_append.mp h with h | h
      · rcases List.mem_append.mp h with h | h
        · exact .inr (List.mem_of_mem_take h)
        · exact .inl h
      · exact .inr (List.mem_of_mem_drop h)

theorem mem_delJob {n : Int} {jobs : List QueueJob} {j : QueueJob} (h : j ∈ (delJob n jobs).2) :
    j ∈ jobs := by
  unfold delJob at h
  split at h
  · exact h
  · exact List.mem_of_mem_eraseIdx h

theorem mem_moveJob {m n : Int} {jobs : List QueueJob} {j : QueueJob}
    (h : j ∈ (moveJob m n jobs).2) : j ∈ jobs := by
  unfold moveJob at h
  split at h
  · exact h
  dsimp only at h
  split at h
  · exact h
  · rcases mem_insertJobs h with h | h
    · exact List.mem_of_getElem? (Option.mem_toList.mp h)
    · exact List.mem_of_mem_eraseIdx h

theorem mem_moveJobs {env : Env} {cmd : Bytes} {n : Int} {jobs : List QueueJob} {j : QueueJob}
    (h : j ∈ (moveJobs env cmd n jobs).2) : j ∈ jobs := by
  rcases mem_insertJobs h with h | h
  · exact (List.mem_filter.mp h).1
  · exact (List.mem_filter.mp h).1

theorem newline_notMem_quoted {arg : Bytes} (h : ch '\n' ∉ arg) : ch '\n' ∉ quoted arg := by
  have hEscape : ch '\n' ∉ escape arg := by
    induction arg with
    | nil => exact h
    | cons c arg ih =>
        rw [List.mem_cons, not_or] at h
        have hRest := ih h.2
        have hSlash : ch '\n' ≠ ch '\\' := by decide
        unfold escape
        split
        · simp [hSlash, h.1, hRest]
        · simp [h.1, hRest]
  have hMark : ch '\n' ≠ ch '"' := by decide
  unfold quoted
  split
  · simp [hMark, hEscape]
  · exact h

theorem newline_notMem_combineCmd {args : List Bytes} (h : ∀ arg ∈ args, ch '\n' ∉ arg) :
    ch '\n' ∉ combineCmd args := by
  have hQuoted : ch '\n' ∉ combineQuoted args := by
    fun_induction combineQuoted args with
    | case1 => exact List.not_mem_nil
    | case2 arg => exact newline_notMem_quoted (h arg List.mem_cons_self)
    | case3 arg args _ ih =>
        have hRest := ih fun a ha => h a (List.mem_cons_of_mem arg ha)
        have hSpace : ch '\n' ≠ ch ' ' := by decide
        rw [List.mem_append, List.mem_cons, not_or, not_or]
        exact ⟨newline_notMem_quoted (h arg List.mem_cons_self), hSpace, hRest⟩
  unfold combineCmd
  split
  · exact List.not_mem_nil
  · exact h _ List.mem_cons_self
  · exact hQuoted

/-- A directory that is known and fits on a line. -/
def Named (dir : Option Bytes) : Prop := ∃ name, dir = some name ∧ ch '\n' ∉ name

/-- A job that fits on a line. -/
structure OneLineJob (j : QueueJob) : Prop where
  cmd : ch '\n' ∉ j.cmd
  pwd : Named j.pwd
  lpwd : Named j.lpwd

structure OneLiners (s : Session) : Prop where
  cwd : Named s.cwd
  lcwd : Named s.lcwd
  jobs : ∀ j ∈ s.jobs, OneLineJob j

theorem builtinQueue_oneLiners {args : List Bytes} (hArgs : ∀ arg ∈ args, ch '\n' ∉ arg)
    (env : Env) {s : Session} (h : OneLiners s) : OneLiners (builtinQueue env args s) := by
  have hKept : ∀ (code : Int) (jobs : List QueueJob), (∀ j ∈ jobs, j ∈ s.jobs) →
      OneLiners { s with exitCode := code, jobs := jobs } :=
    fun code jobs hJobs => ⟨h.cwd, h.lcwd, fun j hj => h.jobs j (hJobs j hj)⟩
  unfold builtinQueue
  dsimp only
  split
  · exact h
  · split
    · exact hKept 0 s.jobs fun _ => id
    split
    · exact hKept 0 s.jobs fun _ => id
    · refine ⟨h.cwd, h.lcwd, fun j hj => ?_⟩
      have hOperands : ∀ arg ∈ (queueOptions.getopt args).2, ch '\n' ∉ arg :=
        fun arg ha => hArgs arg (OptionTable.mem_of_mem_operands ha)
      have hCmd := newline_notMem_combineCmd hOperands
      rcases mem_insertJobs hj with hj | hj
      · have hLast : (combineCmd (queueOptions.getopt args).2).getLast? ≠ some (ch '\n') :=
          fun hLast => hCmd (List.mem_of_getLast? hLast)
        rw [if_neg hLast] at hj
        rw [List.mem_singleton.mp hj]
        exact ⟨hCmd, h.cwd, h.lcwd⟩
      · exact h.jobs j hj
  · split
    · exact hKept _ _ fun _ => mem_delJob
    split
    · exact hKept _ _ fun _ => mem_delJob
    · exact hKept _ _ fun _ hj => (List.mem_filter.mp hj).1
  · split
    · exact h
    split
    · exact hKept _ _ fun _ => mem_moveJob
    · exact hKept _ _ fun _ => mem_moveJobs

/-! ## A well-behaved environment -/

/-- Every directory is where its name says, and the other commands do nothing. -/
def plainEnv : Env where
  aliases := []
  findCmd name :=
    if name = bytes "cd" then some .cd
    else if name = bytes "lcd" then some .lcd
    else if name = bytes "queue" then some .queue
    else some (.other name)
  cd _ _ dir := some dir
  lcd _ dir := some (some dir)
  fnmatch pattern name := pattern = name
  other _ _ s := s
  findCmd_cd := rfl
  findCmd_lcd := rfl
  findCmd_queue := rfl
  notAlias := ⟨rfl, rfl, rfl⟩

theorem builtinCd_oneLiners {args : List Bytes} (hArgs : ∀ arg ∈ args, ch '\n' ∉ arg)
    (background : Bool) {s : Session} (h : OneLiners s) :
    OneLiners (builtinCd plainEnv background args s) := by
  unfold builtinCd
  dsimp only [plainEnv]
  split
  · exact ⟨⟨_, rfl, by decide⟩, h.lcwd, h.jobs⟩
  · exact ⟨⟨_, rfl, hArgs _ List.mem_cons_self⟩, h.lcwd, h.jobs⟩
  · exact h

theorem builtinLcd_oneLiners {args : List Bytes} (hArgs : ∀ arg ∈ args, ch '\n' ∉ arg)
    {s : Session} (h : OneLiners s) : OneLiners (builtinLcd plainEnv args s) := by
  unfold builtinLcd
  dsimp only [plainEnv]
  split
  · exact ⟨h.cwd, ⟨_, rfl, by decide⟩, h.jobs⟩
  · exact ⟨h.cwd, ⟨_, rfl, hArgs _ List.mem_cons_self⟩, h.jobs⟩
  · exact h

theorem execParsedCommand_oneLiners {e : CmdExec} (he : OneLine e) {s : Session}
    (h : OneLiners s) : OneLiners (execParsedCommand plainEnv e s) := by
  have hFailed : OneLiners { s with exitCode := 1 } := ⟨h.cwd, h.lcwd, h.jobs⟩
  unfold execParsedCommand
  split
  · exact h
  dsimp only
  split
  · exact hFailed
  rename_i name args hName
  have hArgs : name ≠ bytes "!" → name ≠ bytes "(" → ∀ arg ∈ args, ch '\n' ∉ arg := by
    intro hShell hGroup
    rcases he with he | he | he
    · intro arg hArg
      exact he arg (hName ▸ List.mem_cons_of_mem name hArg)
    · rw [hName] at he
      exact absurd (Option.some.inj he) hShell
    · rw [hName] at he
      exact absurd (Option.some.inj he) hGroup
  by_cases hCd : name = bytes "cd"
  · rw [hCd] at hArgs ⊢
    rw [plainEnv.findCmd_cd]
    exact builtinCd_oneLiners (hArgs (by decide) (by decide)) _ hFailed
  by_cases hLcd : name = bytes "lcd"
  · rw [hLcd] at hArgs ⊢
    rw [plainEnv.findCmd_lcd]
    exact builtinLcd_oneLiners (hArgs (by decide) (by decide)) hFailed
  by_cases hQueue : name = bytes "queue"
  · rw [hQueue] at hArgs ⊢
    rw [plainEnv.findCmd_queue]
    exact builtinQueue_oneLiners (hArgs (by decide) (by decide)) plainEnv hFailed
  · have hFind : plainEnv.findCmd name = some (.other name) := by
      simp only [plainEnv, if_neg hCd, if_neg hLcd, if_neg hQueue]
    rw [hFind]
    exact hFailed

theorem Next.oneLiners {s t : Shell} (h : Next plainEnv s () t) (hs : OneLiners s.session) :
    OneLiners t.session := by
  obtain ⟨fuel, ⟨result, e⟩, hRun, hTake⟩ := h
  have hLine : OneLine (pastAliases e) := by
    have hArgs : (pastAliases e).args = e.args := by
      unfold pastAliases
      split
      · rfl
      · rfl
    have he := parseOneCmd_oneLine hRun
    unfold OneLine at he ⊢
    rw [hArgs]
    exact he
  cases result with
  | again => cases hTake
  | err message =>
      cases hTake
      exact hs
  | ok =>
      cases hTake
      dsimp only
      split
      · exact hs
      · exact execParsedCommand_oneLiners hLine hs

/-! ## Which dumps recreate their queue -/

/-- The recorded directories are reached from anywhere by their names. -/
def Env.Reaches (env : Env) (jobs : List QueueJob) : Prop :=
  ∀ j ∈ jobs, (∀ dir ∈ j.pwd, ∀ background cwd, env.cd background cwd dir = some dir)
    ∧ ∀ dir ∈ j.lpwd, ∀ lcwd, env.lcd lcwd dir = some (some dir)

/-- The dump of the jobs, run against an empty queue, ends with the same jobs. -/
def Recreates (env : Env) (e : CmdExec) (session : Session) (jobs : List QueueJob) : Prop :=
  ∃ s, Reach (· = ⟨{ e with cmdBuf := formatStatus jobs }, { session with jobs := [] }⟩)
      (Next env) s ∧ s.exec.cmdBuf = [] ∧ s.session.jobs = jobs

/-- The members of a job are strings of C. -/
def CStrings (jobs : List QueueJob) : Prop :=
  ∀ j ∈ jobs, 0 ∉ j.cmd ∧ (∀ dir ∈ j.pwd, 0 ∉ dir) ∧ ∀ dir ∈ j.lpwd, 0 ∉ dir

/-- What `cd` and `lcd` can be told to go to. -/
def Reachable (dir : Option Bytes) : Prop := ∃ name, dir = some name ∧ name ≠ [] ∧ ch '\n' ∉ name

/-- A job whose lines in the dump are read back. -/
structure Requeueable (j : QueueJob) : Prop where
  cmd : Queueable j.cmd
  survives : Survives [j.cmd]
  pwd : Reachable j.pwd
  lpwd : Reachable j.lpwd

/-- The directory that `cd` and `lcd` make of what stands before the `&`. -/
def target (dir : Bytes) : Bytes := if dir = [] then bytes "~" else dir

theorem run_cd {env : Env} {dir : Bytes} (s : Session)
    (h : env.cd true s.cwd (target dir) = some (target dir)) :
    Line.run env s (.cd dir) = { s with exitCode := 0, cwd := some (target dir) } := by
  unfold Line.run dirArgs target builtinCd at *
  by_cases hDir : dir = []
  · simp only [if_pos hDir] at h ⊢
    rw [h]
  · simp only [if_neg hDir] at h ⊢
    rw [h]

theorem run_lcd {env : Env} {dir : Bytes} (s : Session)
    (h : env.lcd s.lcwd (target dir) = some (some (target dir))) :
    Line.run env s (.lcd dir) = { s with exitCode := 0, lcwd := some (target dir) } := by
  unfold Line.run dirArgs target builtinLcd at *
  by_cases hDir : dir = []
  · simp only [if_pos hDir] at h ⊢
    rw [h]
  · simp only [if_neg hDir] at h ⊢
    rw [h]

/-- The queue lines add one job after another. -/
theorem run_queue {env : Env} {cmd word : Bytes} (hBack : readBack [cmd] = [word])
    (hQueueable : Queueable word) (hNewline : ch '\n' ∉ word) (n : Nat) (s : Session) :
    ((List.replicate n (Line.queue cmd)).foldl (Line.run env) s).jobs
      = s.jobs ++ List.replicate n ⟨word, s.cwd, s.lcwd⟩ := by
  induction n generalizing s with
  | zero => exact (List.append_nil _).symm
  | succ n ih =>
      have hRun : Line.run env s (.queue cmd)
          = { s with exitCode := 0, jobs := s.jobs ++ [⟨word, s.cwd, s.lcwd⟩] } := by
        rw [Line.run, hBack, builtinQueue_queueable hQueueable hNewline]
      rw [List.replicate_succ, List.foldl_cons, hRun, ih, List.replicate_succ]
      simp

/-- Lines that add nothing leave the queue empty. -/
theorem run_queue_empty {env : Env} {cmd : Bytes}
    (hBack : readBack [cmd] = [] ∨ ∃ word, readBack [cmd] = [word] ∧ ¬ Queueable word) (n : Nat)
    {s : Session} (hJobs : s.jobs = []) :
    ((List.replicate n (Line.queue cmd)).foldl (Line.run env) s).jobs = [] := by
  induction n generalizing s with
  | zero => exact hJobs
  | succ n ih =>
      rw [List.replicate_succ, List.foldl_cons]
      exact ih (builtinQueue_empty hBack env hJobs)

theorem run_dump {env : Env} {pwd lpwd : Bytes}
    (hCd : ∀ cwd, env.cd true cwd (target pwd) = some (target pwd))
    (hLcd : ∀ lcwd, env.lcd lcwd (target lpwd) = some (some (target lpwd))) (cmd : Bytes)
    (n : Nat) (s : Session) :
    (dumpLines ⟨cmd, some pwd, some lpwd⟩ n).foldl (Line.run env) s
      = (List.replicate n (Line.queue cmd)).foldl (Line.run env)
          { s with exitCode := 0, cwd := some (target pwd), lcwd := some (target lpwd) } := by
  rw [dumpLines, List.foldl_append, List.foldl_append]
  show (List.replicate n (Line.queue cmd)).foldl (Line.run env)
      (Line.run env (Line.run env s (.cd pwd)) (.lcd lpwd)) = _
  rw [run_cd s (hCd _), run_lcd _ (hLcd _)]

theorem clean_dumpLines {job : QueueJob} (hStrings : CStrings [job]) (hLine : OneLineJob job)
    (n : Nat) : ∀ line ∈ dumpLines job n, line.Clean := by
  obtain ⟨hCmd, hPwd, hLpwd⟩ := hStrings job List.mem_cons_self
  obtain ⟨pwd, hPwdEq, hPwdLine⟩ := hLine.pwd
  obtain ⟨lpwd, hLpwdEq, hLpwdLine⟩ := hLine.lpwd
  intro line hMem
  rw [dumpLines, hPwdEq, hLpwdEq] at hMem
  rcases List.mem_append.mp hMem with hMem | hMem
  · rcases List.mem_append.mp hMem with hMem | hMem
    · rcases List.mem_cons.mp hMem with rfl | hMem
      · exact ⟨hPwd pwd hPwdEq, hPwdLine⟩
      · rw [List.mem_singleton.mp hMem]
        trivial
    · rcases List.mem_cons.mp hMem with rfl | hMem
      · exact ⟨hLpwd lpwd hLpwdEq, hLpwdLine⟩
      · rw [List.mem_singleton.mp hMem]
        trivial
  · rw [List.eq_of_mem_replicate hMem]
    exact ⟨hCmd, hLine.cmd⟩

theorem readBack_singleton {cmd : Bytes} (hNewline : ch '\n' ∉ cmd) :
    readBack [cmd] = [] ∨ ∃ word, readBack [cmd] = [word] ∧ ch '\n' ∉ word := by
  have hDrop : ch '\n' ∉ dropCr cmd := by
    unfold dropCr
    split
    · exact fun h => hNewline (List.dropLast_subset cmd h)
    · exact hNewline
  obtain ⟨word, hTrim, hWord⟩ : ∃ word, trimLast [cmd] = [word] ∧ ch '\n' ∉ word := by
    refine ⟨_, rfl, ?_⟩
    split
    · exact hNewline
    · exact hDrop
  rw [readBack, hTrim, List.filter_cons]
  split
  · exact .inr ⟨word, rfl, hWord⟩
  · exact .inl rfl

theorem head_formatStatus {job : QueueJob} {jobs : List QueueJob} (hLine : OneLineJob job)
    (hStrings : CStrings (job :: jobs)) (env : Env) (e : CmdExec) (session : Session) :
    Recreates env e session (job :: jobs)
      ↔ ((dumpLines job (jobs.length + 1)).foldl (Line.run env)
          { session with jobs := [] }).jobs = job :: jobs := by
  have hClean := clean_dumpLines (fun j hj => hStrings j (List.mem_singleton.mp hj ▸
    List.mem_cons_self)) hLine (jobs.length + 1)
  have hRun := run_lines env e { session with jobs := [] } hClean fun s => s.jobs = job :: jobs
  rw [← formatStatus_eq] at hRun
  exact hRun

theorem Requeueable.oneLine {j : QueueJob} (h : Requeueable j) : OneLineJob j := by
  obtain ⟨pwd, hPwd, -, hPwdLine⟩ := h.pwd
  obtain ⟨lpwd, hLpwd, -, hLpwdLine⟩ := h.lpwd
  exact ⟨(h.survives.1 j.cmd List.mem_cons_self).2, ⟨pwd, hPwd, hPwdLine⟩,
    ⟨lpwd, hLpwd, hLpwdLine⟩⟩

/-- Copies of one requeueable job come back. -/
theorem recreates_of_requeueable {job : QueueJob} {jobs : List QueueJob}
    (hStrings : CStrings (job :: jobs)) (hSame : ∀ j ∈ job :: jobs, j = job)
    (hJob : Requeueable job) {env : Env} (hReaches : env.Reaches (job :: jobs)) (e : CmdExec)
    (session : Session) : Recreates env e session (job :: jobs) := by
  rw [head_formatStatus hJob.oneLine hStrings]
  obtain ⟨cmd, pwd, lpwd⟩ := job
  obtain ⟨pwd, rfl, hPwd, -⟩ := hJob.pwd
  obtain ⟨lpwd, rfl, hLpwd, -⟩ := hJob.lpwd
  obtain ⟨hCd, hLcd⟩ := hReaches _ List.mem_cons_self
  have hTarget : target pwd = pwd := if_neg hPwd
  have hTarget' : target lpwd = lpwd := if_neg hLpwd
  have hNewline := (hJob.survives.1 cmd List.mem_cons_self).2
  have hBack : readBack [cmd] = [cmd] :=
    (readBack_eq_iff fun arg h => List.mem_singleton.mp h ▸ hNewline).mpr hJob.survives
  have hAll : jobs = List.replicate jobs.length ⟨cmd, some pwd, some lpwd⟩ :=
    List.eq_replicate_iff.mpr ⟨rfl, fun j hj => hSame j (List.mem_cons_of_mem _ hj)⟩
  rw [run_dump (by rw [hTarget]; exact hCd pwd rfl true) (by rw [hTarget']; exact hLcd lpwd rfl),
    run_queue hBack hJob.cmd hNewline, List.replicate_succ, hTarget, hTarget', ← hAll]
  rfl

/-- An interpreter without input in a session with an empty queue. -/
def startExec : CmdExec := ⟨[], [], none, false, .any, 0, []⟩

def startSession : Session := ⟨0, some (bytes "/"), some (bytes "/"), []⟩

/-- What is recreated in the well-behaved environment fits on lines. -/
theorem oneLine_of_recreates {jobs : List QueueJob}
    (h : Recreates plainEnv startExec startSession jobs) : ∀ j ∈ jobs, OneLineJob j := by
  obtain ⟨s, hReach, -, hJobs⟩ := h
  have hStart : OneLiners startSession :=
    ⟨⟨_, rfl, by decide⟩, ⟨_, rfl, by decide⟩, fun j hj => by cases hj⟩
  have hLines : OneLiners s.session :=
    hReach.invariant (I := fun s => OneLiners s.session) (fun _ hs => hs ▸ hStart)
      fun _ _ _ hs hNext => hNext.oneLiners hs
  rw [← hJobs]
  exact hLines.jobs

/-- Jobs that come back in the well-behaved environment are copies of one. -/
theorem requeueable_of_recreates {job : QueueJob} {jobs : List QueueJob}
    (hStrings : CStrings (job :: jobs))
    (h : Recreates plainEnv startExec startSession (job :: jobs)) :
    (∀ j ∈ job :: jobs, j = job) ∧ Requeueable job := by
  have hLine := oneLine_of_recreates h job List.mem_cons_self
  rw [head_formatStatus hLine hStrings] at h
  obtain ⟨cmd, pwd, lpwd⟩ := job
  obtain ⟨pwd, rfl, hPwd⟩ := hLine.pwd
  obtain ⟨lpwd, rfl, hLpwd⟩ := hLine.lpwd
  rw [run_dump (fun _ => rfl) (fun _ => rfl)] at h
  by_cases hAdds : ∃ word, readBack [cmd] = [word] ∧ ch '\n' ∉ word ∧ Queueable word
  · obtain ⟨word, hBack, hNewline, hQueueable⟩ := hAdds
    rw [run_queue hBack hQueueable hNewline] at h
    have hAll : ∀ j ∈ ⟨cmd, some pwd, some lpwd⟩ :: jobs,
        j = ⟨word, some (target pwd), some (target lpwd)⟩ := by
      intro j hj
      rw [← h] at hj
      exact List.eq_of_mem_replicate hj
    have hFirst := hAll _ List.mem_cons_self
    rw [QueueJob.mk.injEq, Option.some.injEq, Option.some.injEq] at hFirst
    obtain ⟨rfl, hPwdEq, hLpwdEq⟩ := hFirst
    have hKnown : ∀ dir, dir = target dir → dir ≠ [] := by
      rintro dir hDir rfl
      cases hDir
    refine ⟨fun j hj => ?_, hQueueable, ?_, ⟨pwd, rfl, hKnown pwd hPwdEq, hPwd⟩,
      ⟨lpwd, rfl, hKnown lpwd hLpwdEq, hLpwd⟩⟩
    · rw [hAll j hj, ← hPwdEq, ← hLpwdEq]
    · exact (readBack_eq_iff fun arg h => List.mem_singleton.mp h ▸ hLine.cmd).mp hBack
  · have hNone : readBack [cmd] = [] ∨ ∃ word, readBack [cmd] = [word] ∧ ¬ Queueable word := by
      rcases readBack_singleton hLine.cmd with hBack | ⟨word, hBack, hNewline⟩
      · exact .inl hBack
      · exact .inr ⟨word, hBack, fun hQueueable => hAdds ⟨word, hBack, hNewline, hQueueable⟩⟩
    rw [run_queue_empty hNone _ rfl] at h
    cases h

/-- A dump recreates its queue exactly when the jobs are copies of the first one,
and the lines of that one are read back. -/
theorem dump_recreates_iff (jobs : List QueueJob) (hStrings : CStrings jobs) :
    (∀ env e session, env.Reaches jobs → Recreates env e session jobs)
      ↔ ∀ job ∈ jobs.head?, (∀ j ∈ jobs, j = job) ∧ Requeueable job := by
  cases jobs with
  | nil =>
      constructor
      · exact fun _ => nofun
      · intro _ env e session _
        exact ⟨_, .start rfl, rfl, rfl⟩
  | cons job jobs =>
      constructor
      · rintro h _ ⟨⟩
        apply requeueable_of_recreates hStrings
        apply h
        exact fun j _ => ⟨fun _ _ _ _ => rfl, fun _ _ _ => rfl⟩
      · intro h env e session hReaches
        obtain ⟨hSame, hJob⟩ := h job rfl
        exact recreates_of_requeueable hStrings hSame hJob hReaches e session

theorem dump_recreates_get : Recreates plainEnv startExec startSession
    [⟨bytes "get a", some (bytes "/r"), some (bytes "/l")⟩] := by
  have hStrings : CStrings [⟨bytes "get a", some (bytes "/r"), some (bytes "/l")⟩] := by
    intro j hj
    rw [List.mem_singleton.mp hj]
    exact ⟨by decide, by rintro _ ⟨⟩; decide, by rintro _ ⟨⟩; decide⟩
  apply (dump_recreates_iff _ hStrings).mpr
  · rintro _ ⟨⟩
    refine ⟨fun j hj => List.mem_singleton.mp hj, ⟨by decide, by decide, by decide⟩,
      ⟨by decide, ?_⟩, ⟨_, rfl, by decide, by decide⟩, ⟨_, rfl, by decide, by decide⟩⟩
    rintro _ ⟨⟩
    exact .inl (by decide)
  · exact fun j _ => ⟨fun _ _ _ _ => rfl, fun _ _ _ => rfl⟩

/-- The second command is lost: the first one is queued twice. -/
theorem not_recreated :
    let jobs := [QueueJob.mk (bytes "get a") (some (bytes "/r")) (some (bytes "/l")),
      ⟨bytes "get b", some (bytes "/s"), some (bytes "/l")⟩]
    CStrings jobs ∧ plainEnv.Reaches jobs ∧ ¬ Recreates plainEnv startExec startSession jobs := by
  intro jobs
  have hStrings : CStrings jobs := by
    intro j hj
    rcases List.mem_cons.mp hj with rfl | hj
    · exact ⟨by decide, by rintro _ ⟨⟩; decide, by rintro _ ⟨⟩; decide⟩
    · rw [List.mem_singleton.mp hj]
      exact ⟨by decide, by rintro _ ⟨⟩; decide, by rintro _ ⟨⟩; decide⟩
  refine ⟨hStrings, fun j _ => ⟨fun _ _ _ _ => rfl, fun _ _ _ => rfl⟩, fun h => ?_⟩
  have hSame := (requeueable_of_recreates hStrings h).1 ⟨bytes "get b", some (bytes "/s"),
    some (bytes "/l")⟩ (List.mem_cons_of_mem _ List.mem_cons_self)
  exact absurd hSame (by decide)

end Lftp.Ports.QueueFeeder
