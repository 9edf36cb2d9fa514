import Lftp.Verified.Decimal
import Lftp.Verified.Loop

/-!
# Command quoting and the command parser

A translation of `CmdExec::parse_one_cmd` and `skip_cmd`, of the alias lookup it
makes, and of `ArgV::CombineQuotedTo` with `needs_quotation` and `append_quoted`.
The text a pointer `line` points at is the list of the bytes from there on; the
end of the list is the terminating NUL. Distances between pointers are
differences of lengths.

* `parse_combineQuoted` is what the parser makes of quoted arguments without
  newlines, and `newline_not_parsed` why a newline cannot be among them.
* `quoting_undone_iff` says which argument lists survive.
-/

namespace Lftp.Ports.ParseCmd

open Lftp.Verified

/-! ## Quoting -/

/-- `CmdExec::needs_quotation`. -/
def needsQuotation (str : Bytes) : Bool :=
  str.any fun c => c = ch ' ' || c = ch '\t' || (bytes "\"'\\&|>;").contains c

/-- The loop of `append_quoted`. -/
def escape : Bytes → Bytes
  | [] => []
  | c :: str =>
    if c = ch '"' || c = ch '\\' then ch '\\' :: c :: escape str else c :: escape str

/-- What `xstring::append_quoted` appends. -/
def quoted (str : Bytes) : Bytes :=
  if needsQuotation str then ch '"' :: (escape str ++ [ch '"']) else str

/-- `ArgV::CombineQuotedTo`, from the first argument on. -/
def combineQuoted : List Bytes → Bytes
  | [] => []
  | [arg] => quoted arg
  | arg :: args => quoted arg ++ ch ' ' :: combineQuoted args

/-! ## Aliases -/

/-- `tolower` of the C locale. -/
def toLower (c : UInt8) : Nat :=
  if 65 ≤ c.toNat && c.toNat ≤ 90 then c.toNat + 32 else c.toNat

/-- `strcasecmp`. -/
def strcasecmp : Bytes → Bytes → Int
  | [], [] => 0
  | [], b :: _ => 0 - toLower b
  | a :: _, [] => toLower a
  | a :: as, b :: bs =>
    if toLower a = toLower b then strcasecmp as bs else (toLower a : Int) - toLower b

/-- `Alias::Find`; the chain holds pairs of an alias and its value. -/
def aliasFind : List (Bytes × Bytes) → Bytes → Option Bytes
  | [], _ => none
  | (name, value) :: scan, word =>
    if strcasecmp name word = 0 then some value
    else if 0 < strcasecmp name word then none
    else aliasFind scan word

/-! ## The parser -/

inductive Condition where
  | any | and | or
deriving DecidableEq

/-- The stream that `output` is set to. -/
inductive Output where
  | filter (command : Bytes)
  | file (name : Bytes) (append : Bool)
deriving DecidableEq

inductive ParseResult where
  | ok | again
  | err (message : String)
deriving DecidableEq

/-- The members of `CmdExec` that the parser works on. -/
structure CmdExec where
  cmdBuf : Bytes
  args : List Bytes
  output : Option Output
  background : Bool
  condition : Condition
  aliasField : Int
  usedAliases : List Bytes
deriving DecidableEq

def isSpace (c : UInt8) : Bool := c = ch ' ' || c = ch '\t'

def isQuote (c : UInt8) : Bool := c = ch '"' || c = ch '\''

def quotable (c inQuotes : UInt8) : Bool :=
  if c = 0 then false
  else if c = ch '\\' || c = ch '!' || c = inQuotes then true
  else if inQuotes ≠ 0 then false
  else (bytes "\"' \t>|;&").contains c

def skipSpace (line : Bytes) : Bytes := line.dropWhile isSpace

def freeUsedAliases (e : CmdExec) : CmdExec := { e with usedAliases := [], aliasField := 0 }

def skipCmd (len : Nat) (e : CmdExec) : CmdExec :=
  let e := { e with cmdBuf := e.cmdBuf.drop len, aliasField := e.aliasField - len }
  if e.aliasField ≤ 0 then freeUsedAliases e else e

/-- `line-line_begin`. -/
def offset (e : CmdExec) (line : Bytes) : Nat := e.cmdBuf.length - line.length

/-- What a turn of the loop for one word does: the text ends, the word ends (`cr`
tells of a carriage return before the end of the line), or one or two bytes are
consumed and `out` is appended. -/
inductive WordTurn where
  | ends
  | stop (cr : Bool)
  | one (inQuotes : UInt8) (out : Bytes)
  | two (out : Bytes)

/-- A turn at the byte `c`, with `d` after it; the loop for arguments sets `cr`. -/
def wordTurn (cr : Bool) (stops : UInt8 → UInt8 → Bool) (inQuotes c d : UInt8) : WordTurn :=
  if c = ch '\\' && d = ch '\n' then .two []
  else if cr && c = ch '\r' && d = ch '\n' then .stop true
  else if c = ch '\\' && quotable d inQuotes then .two [d]
  else if c = 0 then .ends
  else if stops inQuotes c then .stop false
  else if inQuotes = 0 && isQuote c then .one c []
  else if inQuotes ≠ 0 && c = inQuotes then .one 0 []
  else .one inQuotes [c]

/-- The loop over the bytes of one word: the word and the line where it stops,
`none` where the text ends first. -/
def wordLoop (cr : Bool) (stops : UInt8 → UInt8 → Bool) :
    UInt8 → Bytes → Bytes → Option (Bytes × Bytes)
  | _, _, [] => none
  | inQuotes, nextarg, c :: line =>
    match wordTurn cr stops inQuotes c (line.headD 0) with
    | .ends => none
    | .stop cr => some (nextarg, if cr then line else c :: line)
    | .one inQuotes out => wordLoop cr stops inQuotes (nextarg ++ out) line
    | .two out =>
      match line with
      | [] => none
      | _ :: line => wordLoop cr stops inQuotes (nextarg ++ out) line

/-- Where an argument ends. -/
def argStops (inQuotes c : UInt8) : Bool :=
  c = ch '\n' || (inQuotes = 0
    && (isSpace c || c = ch '>' || c = ch '|' || c = ch ';' || c = ch '&'))

/-- Where a redirection's file name ends, or a filter command. -/
def redirStops (pipe : Bool) (inQuotes c : UInt8) : Bool :=
  c = ch '\n' || (inQuotes = 0 && ((!pipe && isSpace c) || c = ch ';' || c = ch '&'))

/-- The text of a shell command, up to the end of the line. -/
def shellLoop : Bytes → Bytes → Option (Bytes × Bytes)
  | _, [] => none
  | nextarg, c :: line =>
    if c = 0 then none
    else if c = ch '\n' then some (nextarg, c :: line)
    else
      let unescaped := shellLoop (nextarg ++ [c]) line
      match line with
      | [] => unescaped
      | d :: line => if c = ch '\\' && d = ch '\n' then shellLoop nextarg line else unescaped

/-- The text of a group, up to the parenthesis that closes it. -/
def groupLoop : Nat → UInt8 → Bytes → Bytes → Option (Bytes × Bytes)
  | _, _, _, [] => none
  | level, inQuotes, nextarg, c :: line =>
    let unescaped :=
      if c = 0 then none
      else if inQuotes = 0 && c = ch ')' && level = 1 then some (nextarg, c :: line)
      else
        let level :=
          if inQuotes = 0 && c = ch ')' then level - 1
          else if inQuotes = 0 && c = ch '(' then level + 1
          else level
        let inQuotes :=
          if inQuotes ≠ 0 && c = inQuotes then 0
          else if inQuotes = 0 && isQuote c then c
          else inQuotes
        groupLoop level inQuotes (nextarg ++ [c]) line
    match line with
    | [] => unescaped
    | d :: line =>
      if c = ch '\\' && (d = ch '"' || d = ch '\\' || (level = 1 && d = ch ')')) then
        groupLoop level inQuotes (nextarg ++ [c, d]) line
      else unescaped

/-- How the loop for all arguments is left. -/
inductive Exit where
  | again (e : CmdExec)
  | ok (e : CmdExec)
  | cmdEnd (e : CmdExec) (line : Bytes)
  | operator (e : CmdExec) (line : Bytes)

/-- What becomes of an argument that is read up to `line`: the first one may be
an alias, and then the text starts anew. -/
def takeArg (aliases : List (Bytes × Bytes)) (e : CmdExec) (nextarg line : Bytes) :
    CmdExec × Bytes :=
  match (if e.args.isEmpty then aliasFind aliases nextarg else none) with
  | none => ({ e with args := e.args ++ [nextarg] }, line)
  | some value =>
    let e := if e.aliasField < offset e line then freeUsedAliases e else e
    if e.usedAliases.contains value then ({ e with args := e.args ++ [nextarg] }, line)
    else
      let e := skipCmd (offset e line) e
      let e := { e with
        usedAliases := value :: e.usedAliases
        cmdBuf := value ++ e.cmdBuf
        aliasField := e.aliasField + value.length }
      (e, e.cmdBuf)

/-- A turn of the loop for all arguments. -/
def argTurn (aliases : List (Bytes × Bytes)) : CmdExec × Bytes → (CmdExec × Bytes) ⊕ Exit
  | (e, line) =>
    let line := skipSpace line
    if (bytes "\\\n").isPrefixOf line then .inl (e, line.drop 2)
    else
      match (if (bytes "\r\n").isPrefixOf line then line.drop 1 else line) with
      | [] => .inr (.again e)
      | c :: line =>
        if c = 0 then .inr (.again e)
        else if c = ch '\n' || c = ch '|' || c = ch '>' || c = ch ';' || c = ch '&' then
          .inr (.operator e (c :: line))
        else if e.args.isEmpty && c = ch '#' then
          match line.dropWhile fun c => c ≠ ch '\n' && c ≠ 0 with
          | [] => .inr (.again e)
          | d :: line =>
            if d = 0 then .inr (.again e) else .inr (.ok (skipCmd (offset e line) e))
        else if e.args.isEmpty && c = ch '!' then
          let e := { e with args := [bytes "!"] }
          match shellLoop [] (skipSpace line) with
          | none => .inr (.again e)
          | some (nextarg, line) =>
            let e := skipCmd (offset e (line.drop 1)) e
            .inr (.ok { e with args := e.args ++ (if nextarg = [] then [] else [nextarg]) })
        else if e.args.isEmpty && c = ch '(' then
          let e := { e with args := [bytes "("] }
          match groupLoop 1 0 [] line with
          | none => .inr (.again e)
          | some (nextarg, line) =>
            .inr (.cmdEnd { e with args := e.args ++ [nextarg] } (skipSpace (line.drop 1)))
        else if e.args.isEmpty && c = ch '?' then .inl ({ e with args := [bytes "?"] }, line)
        else
          match wordLoop true argStops 0 [] (c :: line) with
          | none => .inr (.again e)
          | some (nextarg, line) => .inl (takeArg aliases e nextarg line)

/-- `&&` or `||` follows. -/
def atConjunction (line : Bytes) : Bool :=
  (bytes "&&").isPrefixOf line || (bytes "||").isPrefixOf line

/-- From the label `cmd_end` on. -/
def cmdEnd (output : Option Output) (e : CmdExec) (line : Bytes) : ParseResult × CmdExec :=
  match line with
  | [] => (.ok, { skipCmd (offset e line) e with output := output })
  | c :: rest =>
    if !atConjunction line && (c = ch ';' || c = ch '&' || c = ch '\n') then
      let e := { e with background := e.background || c = ch '&' }
      (.ok, { skipCmd (offset e rest) e with output := output })
    else (.ok, { skipCmd (offset e line) e with output := output })

/-- From a `>` or `|` on; `pipe` and `append` are `redir_type`. -/
def redirection (pipe append : Bool) (e : CmdExec) (line : Bytes) : ParseResult × CmdExec :=
  match skipSpace line with
  | [] => (.again, e)
  | c :: line =>
    if c = 0 then (.again, e)
    else if c = ch '\n' || c = ch ';' || c = ch '&' then
      (.err (if pipe then "parse: missing filter command\n"
        else "parse: missing redirection filename\n"), skipCmd (offset e line) e)
    else
      match wordLoop false (redirStops pipe) 0 [] (c :: line) with
      | none => (.again, e)
      | some (nextarg, line) =>
        cmdEnd (some (if pipe then .filter nextarg else .file nextarg append)) e (skipSpace line)

/-- What follows the loop for all arguments. -/
def finish : Exit → ParseResult × CmdExec
  | .again e => (.again, e)
  | .ok e => (.ok, e)
  | .cmdEnd e line => cmdEnd none e line
  | .operator e line =>
    if atConjunction line then (.ok, skipCmd (offset e line) e)
    else
      match line with
      | [] => (.again, e)
      | c :: rest =>
        if c = ch '>' || c = ch '|' then
          -- a second `>` means append, also after a `|`
          if (bytes ">").isPrefixOf rest then redirection false true e (rest.drop 1)
          else redirection (c = ch '|') false e rest
        else cmdEnd none e line

/-- The operator that the command starts with. -/
def startCondition (line : Bytes) : Condition × Bytes :=
  if (bytes "&&").isPrefixOf line then (.and, line.drop 2)
  else if (bytes "||").isPrefixOf line then (.or, line.drop 2)
  else (.any, line)

/-- `CmdExec::parse_one_cmd`, with a bound on the turns of its main loop. -/
def parseOneCmd (aliases : List (Bytes × Bytes)) (fuel : Nat) (e : CmdExec) :
    Option (ParseResult × CmdExec) :=
  let e := { e with args := [], output := none, background := false }
  match e.cmdBuf with
  | [] => some (.ok, e)
  | c :: _ =>
    if c = 0 then some (.ok, e)
    else
      let (condition, line) := startCondition e.cmdBuf
      (loop (argTurn aliases) fuel ({ e with condition := condition }, line)).map finish

example :
    (parseOneCmd [] 4 ⟨bytes "get  'a b' \"c\\\"\"&\nls\n", [], none, false, .or, 0, []⟩)
      = some (.ok, ⟨bytes "\nls\n", [bytes "get", bytes "a b", bytes "c\""], none, true, .any,
          0, []⟩) := by
  decide

/-! ## Words -/

/-- A byte that needs no quotation and does not end a line. -/
def Bare (c : UInt8) : Prop := needsQuotation [c] = false ∧ c ≠ 0 ∧ c ≠ ch '\n'

theorem wordTurn_bare {c d : UInt8} (hBare : Bare c) (hCr : c = ch '\r' → d ≠ ch '\n') :
    wordTurn true argStops 0 c d = .one 0 [c] := by
  obtain ⟨hQuote, hNul, hNewline⟩ := hBare
  simp [needsQuotation, bytes] at hQuote
  simp [wordTurn, argStops, isSpace, isQuote, hQuote, hNul, hNewline]
  exact hCr

theorem wordTurn_open (d : UInt8) : wordTurn true argStops 0 (ch '"') d = .one (ch '"') [] := by
  rfl

theorem wordTurn_close (d : UInt8) : wordTurn true argStops (ch '"') (ch '"') d = .one 0 [] := by
  rfl

theorem wordTurn_escaped {c : UInt8} (h : c = ch '"' ∨ c = ch '\\') :
    wordTurn true argStops (ch '"') (ch '\\') c = .two [c] := by
  rcases h with rfl | rfl <;> rfl

theorem wordTurn_inside {c d : UInt8} (hNul : c ≠ 0) (hNewline : c ≠ ch '\n')
    (hQuote : c ≠ ch '"') (hEscape : c ≠ ch '\\') (hCr : c = ch '\r' → d ≠ ch '\n') :
    wordTurn true argStops (ch '"') c d = .one (ch '"') [c] := by
  have hIn : ch '"' ≠ 0 := by decide
  simp [wordTurn, argStops, hNul, hNewline, hQuote, hEscape, hIn]
  exact hCr

theorem wordTurn_end {c : UInt8} (h : c = ch ' ' ∨ c = ch '\n') (d : UInt8) :
    wordTurn true argStops 0 c d = .stop false := by
  rcases h with rfl | rfl
  · rfl
  · rfl

/-- Bytes that need no quotation are taken as they stand. -/
theorem wordLoop_bare {arg line : Bytes} (hBare : ∀ c ∈ arg, Bare c)
    (hCr : line.headD 0 = ch '\n' → arg.getLast? ≠ some (ch '\r')) (nextarg : Bytes) :
    wordLoop true argStops 0 nextarg (arg ++ line)
      = wordLoop true argStops 0 (nextarg ++ arg) line := by
  induction arg generalizing nextarg with
  | nil => rw [List.append_nil, List.nil_append]
  | cons c arg ih =>
      have hTurn : wordTurn true argStops 0 c ((arg ++ line).headD 0) = .one 0 [c] := by
        apply wordTurn_bare (hBare c List.mem_cons_self)
        rintro rfl hNext
        cases arg with
        | nil => exact hCr hNext rfl
        | cons d arg => exact (hBare d (by simp)).2.2 hNext
      have hRest := ih (fun x hx => hBare x (List.mem_cons_of_mem c hx)) (fun hNext => by
        have hLast := hCr hNext
        cases arg with
        | nil => exact nofun
        | cons d arg => rwa [List.getLast?_cons_cons] at hLast) (nextarg ++ [c])
      rw [List.cons_append, wordLoop, hTurn]
      rw [List.append_assoc] at hRest
      exact hRest

theorem head_escape {arg : Bytes} (hNewline : ch '\n' ∉ arg) (line : Bytes) :
    (escape arg ++ ch '"' :: line).headD 0 ≠ ch '\n' := by
  cases arg with
  | nil =>
      show ch '"' ≠ ch '\n'
      decide
  | cons c arg =>
      unfold escape
      split
      · show ch '\\' ≠ ch '\n'
        decide
      · exact fun h => hNewline (h ▸ List.mem_cons_self)

/-- The quoted form of an argument is read back as the argument. -/
theorem wordLoop_escape {arg : Bytes} (hNul : 0 ∉ arg) (hNewline : ch '\n' ∉ arg)
    (nextarg line : Bytes) :
    wordLoop true argStops (ch '"') nextarg (escape arg ++ ch '"' :: line)
      = wordLoop true argStops 0 (nextarg ++ arg) line := by
  induction arg generalizing nextarg with
  | nil =>
      rw [escape, List.nil_append, wordLoop, wordTurn_close]
  | cons c arg ih =>
      rw [List.mem_cons, not_or] at hNul hNewline
      have hRest := ih hNul.2 hNewline.2 (nextarg ++ [c])
      rw [List.append_assoc] at hRest
      by_cases hSpecial : c = ch '"' ∨ c = ch '\\'
      · have hEscape : escape (c :: arg) = ch '\\' :: c :: escape arg := by
          simp only [escape, Bool.or_eq_true, decide_eq_true_eq, if_pos hSpecial]
        rw [hEscape, List.cons_append, wordLoop]
        simp only [List.cons_append, List.headD_cons, wordTurn_escaped hSpecial]
        exact hRest
      · have hEscape : escape (c :: arg) = c :: escape arg := by
          simp only [escape, Bool.or_eq_true, decide_eq_true_eq, if_neg hSpecial]
        rw [not_or] at hSpecial
        rw [hEscape, List.cons_append, wordLoop,
          wordTurn_inside (Ne.symm hNul.1) (Ne.symm hNewline.1) hSpecial.1 hSpecial.2
            (fun _ => head_escape hNewline.2 line)]
        exact hRest

theorem wordLoop_end {c : UInt8} (h : c = ch ' ' ∨ c = ch '\n') (nextarg line : Bytes) :
    wordLoop true argStops 0 nextarg (c :: line) = some (nextarg, c :: line) := by
  rw [wordLoop, wordTurn_end h]
  rfl

theorem bare_of_needsQuotation {arg : Bytes} (hQuote : needsQuotation arg = false)
    (hNul : 0 ∉ arg) (hNewline : ch '\n' ∉ arg) : ∀ c ∈ arg, Bare c := by
  intro c hc
  have hByte : needsQuotation [c] = false := by
    unfold needsQuotation at hQuote ⊢
    rw [List.any_eq_false] at hQuote ⊢
    intro x hx
    rw [List.mem_singleton.mp hx]
    exact hQuote c hc
  exact ⟨hByte, fun h => hNul (h ▸ hc), fun h => hNewline (h ▸ hc)⟩

/-! ## Arguments -/

/-- A byte that the loop for all arguments reads a word from; `first` says that
it would be the first one. -/
def StartsWord (first : Bool) (c : UInt8) : Prop :=
  isSpace c = false ∧ c ≠ ch '\\' ∧ c ≠ 0
    ∧ (c ≠ ch '\n' ∧ c ≠ ch '|' ∧ c ≠ ch '>' ∧ c ≠ ch ';' ∧ c ≠ ch '&')
    ∧ (first = true → c ≠ ch '#' ∧ c ≠ ch '!' ∧ c ≠ ch '(' ∧ c ≠ ch '?')

theorem isPrefixOf_pair (a b c : UInt8) (line : Bytes) :
    [a, b].isPrefixOf (c :: line) = true ↔ c = a ∧ line.head? = some b := by
  cases line with
  | nil => simp [List.isPrefixOf]
  | cons d line =>
      simp only [List.isPrefixOf, Bool.and_true, Bool.and_eq_true, beq_iff_eq, List.head?_cons,
        Option.some.injEq]
      exact and_congr eq_comm eq_comm

theorem argTurn_word {aliases : List (Bytes × Bytes)} {e : CmdExec} {c : UInt8}
    {line nextarg line' : Bytes} (hStart : StartsWord e.args.isEmpty c)
    (hCr : c = ch '\r' → line.head? ≠ some (ch '\n'))
    (hWord : wordLoop true argStops 0 [] (c :: line) = some (nextarg, line')) :
    argTurn aliases (e, c :: line) = .inl (takeArg aliases e nextarg line') := by
  obtain ⟨hSpace, hEscape, hNul, hOperator, hFirst⟩ := hStart
  have hSkip : skipSpace (c :: line) = c :: line :=
    List.dropWhile_cons_of_neg (by rw [hSpace]; nofun)
  have hContinued : (bytes "\\\n").isPrefixOf (c :: line) = false :=
    Bool.eq_false_iff.mpr fun h => hEscape ((isPrefixOf_pair _ _ _ _).mp h).1
  have hCrLf : (bytes "\r\n").isPrefixOf (c :: line) = false :=
    Bool.eq_false_iff.mpr fun h =>
      hCr ((isPrefixOf_pair _ _ _ _).mp h).1 ((isPrefixOf_pair _ _ _ _).mp h).2
  simp only [argTurn, hSkip, hContinued, hCrLf, Bool.false_eq_true, if_false, hNul, hOperator,
    decide_false, Bool.or_self, hWord]
  cases hEmpty : e.args.isEmpty with
  | false => simp only [Bool.false_and, Bool.false_eq_true, if_false]
  | true =>
      have hSpecial := hFirst hEmpty
      simp only [hSpecial, decide_false, Bool.and_false, Bool.false_eq_true, if_false]

theorem argTurn_space (aliases : List (Bytes × Bytes)) (e : CmdExec) (line : Bytes) :
    argTurn aliases (e, ch ' ' :: line) = argTurn aliases (e, line) := by
  have hSkip : skipSpace (ch ' ' :: line) = skipSpace line :=
    List.dropWhile_cons_of_pos rfl
  simp only [argTurn, hSkip]

theorem argTurn_newline (aliases : List (Bytes × Bytes)) (e : CmdExec) (line : Bytes) :
    argTurn aliases (e, ch '\n' :: line) = .inr (.operator e (ch '\n' :: line)) := rfl

theorem argTurn_crlf (aliases : List (Bytes × Bytes)) (e : CmdExec) (line : Bytes) :
    argTurn aliases (e, ch '\r' :: ch '\n' :: line) = .inr (.operator e (ch '\n' :: line)) := rfl

theorem takeArg_of_ne_nil {e : CmdExec} (h : e.args ≠ []) (aliases : List (Bytes × Bytes))
    (nextarg line : Bytes) :
    takeArg aliases e nextarg line = ({ e with args := e.args ++ [nextarg] }, line) := by
  have hEmpty : e.args.isEmpty = false := List.isEmpty_eq_false_iff.mpr h
  simp only [takeArg, hEmpty, Bool.false_eq_true, if_false]

theorem startsWord_of_bare {c : UInt8} (h : Bare c) : StartsWord false c := by
  obtain ⟨hQuote, hNul, hNewline⟩ := h
  simp [needsQuotation, bytes] at hQuote
  simp [StartsWord, isSpace, hQuote, hNul, hNewline]

/-! ## Combined arguments -/

/-- The arguments after the command word, as `CombineQuotedTo` writes them. -/
def argsText (args : List Bytes) : Bytes := args.flatMap fun arg => ch ' ' :: quoted arg

theorem combineQuoted_cons (word : Bytes) (args : List Bytes) :
    combineQuoted (word :: args) = quoted word ++ argsText args := by
  induction args generalizing word with
  | nil => simp [combineQuoted, argsText]
  | cons arg args ih =>
      rw [combineQuoted, ih arg]
      · simp [argsText]
      · nofun

def dropCr (arg : Bytes) : Bytes :=
  if arg.getLast? = some (ch '\r') then arg.dropLast else arg

/-- The last argument, when it stands unquoted before the newline, loses a
carriage return at its end. -/
def trimLast : List Bytes → List Bytes
  | [] => []
  | [arg] => [if needsQuotation arg then arg else dropCr arg]
  | arg :: args => arg :: trimLast args

/-- What the parser makes of the arguments after the command word. -/
def readBack (args : List Bytes) : List Bytes := (trimLast args).filter fun arg => arg ≠ []

theorem wordLoop_quoted {arg : Bytes} {c : UInt8} (hNul : 0 ∉ arg) (hNewline : ch '\n' ∉ arg)
    (hEnd : c = ch ' ' ∨ c = ch '\n')
    (hCr : c = ch '\n' → needsQuotation arg = true ∨ arg.getLast? ≠ some (ch '\r'))
    (line : Bytes) :
    wordLoop true argStops 0 [] (quoted arg ++ c :: line) = some (arg, c :: line) := by
  unfold quoted
  by_cases hQuote : needsQuotation arg = true
  · rw [if_pos hQuote, List.cons_append, List.append_assoc, wordLoop, wordTurn_open]
    show wordLoop true argStops (ch '"') [] (escape arg ++ ch '"' :: c :: line) = _
    rw [wordLoop_escape hNul hNewline, wordLoop_end hEnd, List.nil_append]
  · rw [if_neg hQuote]
    have hBare := bare_of_needsQuotation (Bool.eq_false_iff.mpr hQuote) hNul hNewline
    have hLoop := wordLoop_bare hBare
      (fun h : (c :: line).headD 0 = ch '\n' => (hCr h).resolve_left hQuote) []
    rw [hLoop, wordLoop_end hEnd, List.nil_append]

theorem argTurn_quoted {e : CmdExec} {arg : Bytes} {c : UInt8} (hArgs : e.args ≠ [])
    (hArg : arg ≠ []) (hNul : 0 ∉ arg) (hNewline : ch '\n' ∉ arg)
    (hEnd : c = ch ' ' ∨ c = ch '\n')
    (hCr : c = ch '\n' → needsQuotation arg = true ∨ arg.getLast? ≠ some (ch '\r'))
    (aliases : List (Bytes × Bytes)) (line : Bytes) :
    argTurn aliases (e, quoted arg ++ c :: line)
      = .inl ({ e with args := e.args ++ [arg] }, c :: line) := by
  have hEmpty : e.args.isEmpty = false := List.isEmpty_eq_false_iff.mpr hArgs
  have hWord := wordLoop_quoted hNul hNewline hEnd hCr line
  unfold quoted at hWord ⊢
  by_cases hQuote : needsQuotation arg = true
  · rw [if_pos hQuote] at hWord ⊢
    have hStart : StartsWord e.args.isEmpty (ch '"') := by
      rw [hEmpty]
      refine ⟨rfl, ?_, ?_, ?_, nofun⟩ <;> decide
    exact (argTurn_word hStart (fun h => absurd h (by decide)) hWord).trans
      (congrArg Sum.inl (takeArg_of_ne_nil hArgs aliases arg _))
  · rw [if_neg hQuote] at hWord ⊢
    have hBare := bare_of_needsQuotation (Bool.eq_false_iff.mpr hQuote) hNul hNewline
    cases arg with
    | nil => exact absurd rfl hArg
    | cons x arg =>
        have hNext : x = ch '\r' → (arg ++ c :: line).head? ≠ some (ch '\n') := by
          rintro rfl hHead
          cases arg with
          | nil => exact (hCr (Option.some.inj hHead)).elim hQuote fun h => h rfl
          | cons y arg => exact (hBare y (by simp)).2.2 (Option.some.inj hHead)
        have hStart : StartsWord e.args.isEmpty x := by
          rw [hEmpty]
          exact startsWord_of_bare (hBare x List.mem_cons_self)
        exact (argTurn_word hStart hNext hWord).trans
          (congrArg Sum.inl (takeArg_of_ne_nil hArgs aliases (x :: arg) _))

/-- An unquoted argument before the newline loses its carriage return. -/
theorem argTurn_dropCr {e : CmdExec} {arg : Bytes} (hArgs : e.args ≠ []) (hArg : arg ≠ [])
    (hBare : ∀ c ∈ arg, Bare c) (aliases : List (Bytes × Bytes)) (line : Bytes) :
    argTurn aliases (e, arg ++ ch '\r' :: ch '\n' :: line)
      = .inl ({ e with args := e.args ++ [arg] }, ch '\n' :: line) := by
  have hWord : wordLoop true argStops 0 [] (arg ++ ch '\r' :: ch '\n' :: line)
      = some (arg, ch '\n' :: line) := by
    have hLoop := wordLoop_bare hBare (fun h : (ch '\r' :: ch '\n' :: line).headD 0 = ch '\n' =>
      absurd h (by decide : ch '\r' ≠ ch '\n')) []
    rw [hLoop, List.nil_append]
    rfl
  cases arg with
  | nil => exact absurd rfl hArg
  | cons x arg =>
      have hStart : StartsWord e.args.isEmpty x := by
        rw [List.isEmpty_eq_false_iff.mpr hArgs]
        exact startsWord_of_bare (hBare x List.mem_cons_self)
      have hNext : x = ch '\r' →
          (arg ++ ch '\r' :: ch '\n' :: line).head? ≠ some (ch '\n') := by
        rintro - hHead
        cases arg with
        | nil => exact absurd (Option.some.inj hHead) (by decide)
        | cons y arg => exact (hBare y (by simp)).2.2 (Option.some.inj hHead)
      exact (argTurn_word hStart hNext hWord).trans
        (congrArg Sum.inl (takeArg_of_ne_nil hArgs aliases (x :: arg) _))

theorem argsText_head (args : List Bytes) (rest : Bytes) :
    ∃ c line, argsText args ++ ch '\n' :: rest = c :: line ∧ (c = ch ' ' ∨ c = ch '\n')
      ∧ (c = ch '\n' → args = []) := by
  cases args with
  | nil => exact ⟨ch '\n', rest, rfl, .inr rfl, fun _ => rfl⟩
  | cons arg args =>
      exact ⟨ch ' ', _, rfl, .inl rfl, fun h => absurd h (by decide)⟩

theorem readBack_cons {arg : Bytes} {args : List Bytes}
    (h : args = [] → needsQuotation arg = true ∨ arg.getLast? ≠ some (ch '\r')) :
    readBack (arg :: args) = (if arg = [] then [] else [arg]) ++ readBack args := by
  have hTrim : trimLast (arg :: args) = arg :: trimLast args := by
    cases args with
    | nil =>
        rcases h rfl with hQuote | hLast
        · simp only [trimLast, hQuote, if_true]
        · simp only [trimLast, dropCr, hLast, if_false, ite_self]
    | cons arg' args => rfl
  unfold readBack
  rw [hTrim, List.filter_cons]
  by_cases hArg : arg = [] <;> simp [hArg]

theorem readBack_dropCr {arg : Bytes} (hQuote : needsQuotation (arg ++ [ch '\r']) = false) :
    readBack [arg ++ [ch '\r']] = if arg = [] then [] else [arg] := by
  by_cases hArg : arg = []
  · rw [hArg, List.nil_append] at hQuote ⊢
    simp [readBack, trimLast, dropCr, hQuote]
  · simp [readBack, trimLast, dropCr, hQuote, hArg]

/-- The loop for all arguments, on the text of arguments without newlines. -/
theorem leaves_argsText {e : CmdExec} {args : List Bytes} (hArgs : e.args ≠ [])
    (hNul : ∀ arg ∈ args, 0 ∉ arg) (hNewline : ∀ arg ∈ args, ch '\n' ∉ arg)
    (aliases : List (Bytes × Bytes)) (rest : Bytes) :
    Leaves (argTurn aliases) (e, argsText args ++ ch '\n' :: rest)
      (.operator { e with args := e.args ++ readBack args } (ch '\n' :: rest)) := by
  induction args generalizing e with
  | nil =>
      apply Leaves.inr
      show argTurn aliases (e, ch '\n' :: rest) = _
      rw [argTurn_newline]
      simp [readBack, trimLast]
  | cons arg args ih =>
      have hNul' := fun a ha => hNul a (List.mem_cons_of_mem arg ha)
      have hNewline' := fun a ha => hNewline a (List.mem_cons_of_mem arg ha)
      have hText : argsText (arg :: args) ++ ch '\n' :: rest
          = ch ' ' :: (quoted arg ++ (argsText args ++ ch '\n' :: rest)) := by
        simp [argsText]
      rw [hText]
      apply Leaves.of_turn_eq (argTurn_space aliases e _)
      by_cases hKeep : args = [] → needsQuotation arg = true ∨ arg.getLast? ≠ some (ch '\r')
      · rw [readBack_cons hKeep]
        by_cases hArg : arg = []
        · rw [if_pos hArg, List.nil_append, hArg]
          exact ih hArgs hNul' hNewline'
        · obtain ⟨c, line, hTail, hEnd, hLast⟩ := argsText_head args rest
          have hTurn := argTurn_quoted hArgs hArg (hNul arg List.mem_cons_self)
            (hNewline arg List.mem_cons_self) hEnd (fun h => hKeep (hLast h)) aliases line
          rw [← hTail] at hTurn
          have hRest := ih (e := { e with args := e.args ++ [arg] }) (by simp) hNul' hNewline'
          rw [List.append_assoc] at hRest
          rw [if_neg hArg]
          exact .inl hTurn hRest
      · obtain ⟨rfl, hQuote⟩ := Classical.not_imp.mp hKeep
        rw [not_or, not_not, Bool.not_eq_true] at hQuote
        obtain ⟨hQuote, hLast⟩ := hQuote
        obtain ⟨arg, rfl⟩ := List.getLast?_eq_some_iff.mp hLast
        have hBare := bare_of_needsQuotation hQuote (hNul _ List.mem_cons_self)
          (hNewline _ List.mem_cons_self)
        rw [readBack_dropCr hQuote, quoted, hQuote, if_neg Bool.false_ne_true, List.append_assoc]
        by_cases hArg : arg = []
        · rw [hArg, if_pos rfl, List.append_nil]
          exact .inr (argTurn_crlf aliases e rest)
        · rw [if_neg hArg]
          have hTurn := argTurn_dropCr hArgs hArg
            (fun c hc => hBare c (List.mem_append_left _ hc)) aliases rest
          exact .inl hTurn (.inr (argTurn_newline aliases _ rest))

/-! ## Newlines -/

theorem wordTurn_one {inQuotes c d inQuotes' : UInt8} {out : Bytes} (hIn : inQuotes ≠ ch '\n')
    (h : wordTurn true argStops inQuotes c d = .one inQuotes' out) :
    inQuotes' ≠ ch '\n' ∧ ch '\n' ∉ out := by
  unfold wordTurn at h
  split at h
  · cases h
  split at h
  · cases h
  split at h
  · cases h
  split at h
  · cases h
  split at h
  · cases h
  rename_i hStop
  have hNewline : c ≠ ch '\n' := by
    rintro rfl
    exact hStop rfl
  split at h
  · cases h
    exact ⟨hNewline, nofun⟩
  split at h
  · cases h
    exact ⟨by decide, nofun⟩
  · cases h
    exact ⟨hIn, fun hMem => hNewline (List.mem_singleton.mp hMem).symm⟩

theorem quotable_newline {inQuotes : UInt8} (h : inQuotes ≠ ch '\n') :
    quotable (ch '\n') inQuotes = false := by
  have hSame : decide (ch '\n' = inQuotes) = false := decide_eq_false (Ne.symm h)
  unfold quotable
  rw [if_neg (by decide), hSame]
  by_cases hOut : inQuotes = 0
  · rw [hOut]
    rfl
  · rw [if_pos hOut]
    rfl

theorem wordTurn_two {inQuotes c d : UInt8} {out : Bytes} (hIn : inQuotes ≠ ch '\n')
    (h : wordTurn true argStops inQuotes c d = .two out) : ch '\n' ∉ out := by
  unfold wordTurn at h
  split at h
  · cases h
    nofun
  split at h
  · cases h
  split at h
  · rename_i hQuotable
    cases h
    intro hMem
    rw [Bool.and_eq_true] at hQuotable
    have hd := hQuotable.2
    rw [← List.mem_singleton.mp hMem, quotable_newline hIn] at hd
    cases hd
  all_goals
    repeat' split at h
    all_goals cases h

/-- No word of the loop for arguments has a newline. -/
theorem newline_not_parsed {inQuotes : UInt8} {nextarg line word line' : Bytes}
    (hIn : inQuotes ≠ ch '\n') (hArg : ch '\n' ∉ nextarg)
    (h : wordLoop true argStops inQuotes nextarg line = some (word, line')) :
    ch '\n' ∉ word := by
  fun_induction wordLoop true argStops inQuotes nextarg line with
  | case1 => cases h
  | case2 => cases h
  | case3 inQuotes nextarg c line cr hTurn =>
      cases h
      exact hArg
  | case4 inQuotes nextarg c line inQuotes' out hTurn ih =>
      have hOut := wordTurn_one hIn hTurn
      apply ih hOut.1 _ h
      rw [List.mem_append, not_or]
      exact ⟨hArg, hOut.2⟩
  | case5 => cases h
  | case6 inQuotes nextarg c out d line hTurn ih =>
      apply ih hIn _ h
      rw [List.mem_append, not_or]
      exact ⟨hArg, wordTurn_two hIn hTurn⟩

def Exit.state : Exit → CmdExec
  | .again e | .ok e | .cmdEnd e _ | .operator e _ => e

@[simp] theorem skipCmd_args (len : Nat) (e : CmdExec) : (skipCmd len e).args = e.args := by
  unfold skipCmd
  dsimp only
  split <;> rfl

@[simp] theorem cmdEnd_args (output : Option Output) (e : CmdExec) (line : Bytes) :
    (cmdEnd output e line).2.args = e.args := by
  unfold cmdEnd
  split
  · simp
  · split <;> simp

@[simp] theorem redirection_args (pipe append : Bool) (e : CmdExec) (line : Bytes) :
    (redirection pipe append e line).2.args = e.args := by
  unfold redirection
  split
  · rfl
  split
  · rfl
  split
  · simp
  split
  · rfl
  · simp

/-- What follows the loop leaves the arguments alone. -/
theorem finish_args (x : Exit) : (finish x).2.args = x.state.args := by
  cases x with
  | again e => rfl
  | ok e => rfl
  | cmdEnd e line => exact cmdEnd_args none e line
  | operator e line =>
      unfold finish
      dsimp only
      split
      · exact skipCmd_args _ e
      split
      · rfl
      split
      · split <;> exact redirection_args _ _ e _
      · exact cmdEnd_args none e _

/-- Arguments without a newline, the first of them read. -/
def Clean (e : CmdExec) : Prop := e.args ≠ [] ∧ ∀ arg ∈ e.args, ch '\n' ∉ arg

theorem Clean.append {e : CmdExec} (h : Clean e) {arg : Bytes} (hArg : ch '\n' ∉ arg) :
    Clean { e with args := e.args ++ [arg] } := by
  constructor
  · exact List.append_ne_nil_of_right_ne_nil _ (List.cons_ne_nil _ _)
  · intro a ha
    rcases List.mem_append.mp ha with ha | ha
    · exact h.2 a ha
    · rw [List.mem_singleton.mp ha]
      exact hArg

/-- A turn after the first argument keeps the arguments clean. -/
theorem argTurn_clean {aliases : List (Bytes × Bytes)} {e : CmdExec} {line : Bytes}
    (h : Clean e) :
    (∀ s, argTurn aliases (e, line) = .inl s → Clean s.1)
      ∧ (∀ x, argTurn aliases (e, line) = .inr x → Clean x.state) := by
  have hEmpty : e.args.isEmpty = false := List.isEmpty_eq_false_iff.mpr h.1
  simp only [argTurn, hEmpty, Bool.false_and, Bool.false_eq_true, if_false]
  split
  · exact ⟨by rintro _ ⟨⟩; exact h, nofun⟩
  split
  · exact ⟨nofun, by rintro _ ⟨⟩; exact h⟩
  split
  · exact ⟨nofun, by rintro _ ⟨⟩; exact h⟩
  split
  · exact ⟨nofun, by rintro _ ⟨⟩; exact h⟩
  split
  · exact ⟨nofun, by rintro _ ⟨⟩; exact h⟩
  · rename_i hWord
    rw [takeArg_of_ne_nil h.1]
    constructor
    · rintro _ ⟨⟩
      exact h.append (newline_not_parsed (by decide) List.not_mem_nil hWord)
    · nofun

/-- No argument has a newline, other than those of a shell command or a group. -/
def OneLine (e : CmdExec) : Prop :=
  (∀ arg ∈ e.args, ch '\n' ∉ arg) ∨ e.args.head? = some (bytes "!")
    ∨ e.args.head? = some (bytes "(")

theorem oneLine_nil {e : CmdExec} (h : e.args = []) : OneLine e :=
  .inl fun arg hArg => by rw [h] at hArg; cases hArg

theorem takeArg_clean {aliases : List (Bytes × Bytes)} {e : CmdExec} (h : e.args = [])
    {nextarg : Bytes} (hNewline : ch '\n' ∉ nextarg) (line : Bytes) :
    (takeArg aliases e nextarg line).1.args = [] ∨ Clean (takeArg aliases e nextarg line).1 := by
  have hClean : ∀ e' : CmdExec, e'.args = [] → Clean { e' with args := e'.args ++ [nextarg] } := by
    intro e' he'
    rw [he']
    exact ⟨List.cons_ne_nil _ _, fun arg hArg => List.mem_singleton.mp hArg ▸ hNewline⟩
  unfold takeArg
  split
  · exact .inr (hClean e h)
  · dsimp only
    split
    · split
      · exact .inr (hClean _ h)
      · exact .inl ((skipCmd_args _ _).trans h)
    · split
      · exact .inr (hClean _ h)
      · exact .inl ((skipCmd_args _ _).trans h)

/-- A turn before the first argument. -/
theorem argTurn_first_clean {aliases : List (Bytes × Bytes)} {e : CmdExec} {line : Bytes}
    (h : e.args = []) :
    (∀ s, argTurn aliases (e, line) = .inl s → s.1.args = [] ∨ Clean s.1)
      ∧ (∀ x, argTurn aliases (e, line) = .inr x → OneLine x.state) := by
  have hNil := oneLine_nil h
  simp only [argTurn, h, List.isEmpty_nil, Bool.true_and]
  split
  · exact ⟨by rintro _ ⟨⟩; exact .inl h, nofun⟩
  split
  · exact ⟨nofun, by rintro _ ⟨⟩; exact hNil⟩
  split
  · exact ⟨nofun, by rintro _ ⟨⟩; exact hNil⟩
  split
  · exact ⟨nofun, by rintro _ ⟨⟩; exact hNil⟩
  split
  · split
    · exact ⟨nofun, by rintro _ ⟨⟩; exact hNil⟩
    · split
      · exact ⟨nofun, by rintro _ ⟨⟩; exact hNil⟩
      · exact ⟨nofun, by rintro _ ⟨⟩; exact oneLine_nil ((skipCmd_args _ e).trans h)⟩
  split
  · split
    · exact ⟨nofun, by rintro _ ⟨⟩; exact .inr (.inl rfl)⟩
    · exact ⟨nofun, by
        rintro _ ⟨⟩
        refine .inr (.inl ?_)
        show ((skipCmd _ _).args ++ _).head? = _
        rw [skipCmd_args]
        rfl⟩
  split
  · split
    · exact ⟨nofun, by rintro _ ⟨⟩; exact .inr (.inr rfl)⟩
    · exact ⟨nofun, by rintro _ ⟨⟩; exact .inr (.inr rfl)⟩
  split
  · refine ⟨?_, nofun⟩
    rintro _ ⟨⟩
    exact .inr ⟨List.cons_ne_nil _ _, fun arg hArg => by
      rw [List.mem_singleton.mp hArg]
      decide⟩
  split
  · exact ⟨nofun, by rintro _ ⟨⟩; exact hNil⟩
  · rename_i hWord
    refine ⟨?_, nofun⟩
    rintro _ ⟨⟩
    exact takeArg_clean h (newline_not_parsed (by decide) List.not_mem_nil hWord) _

/-- Whatever the text is, a parsed command is on one line. -/
theorem parseOneCmd_oneLine {aliases : List (Bytes × Bytes)} {fuel : Nat} {e e' : CmdExec}
    {r : ParseResult} (h : parseOneCmd aliases fuel e = some (r, e')) : OneLine e' := by
  unfold parseOneCmd at h
  dsimp only at h
  split at h
  · cases h
    exact oneLine_nil rfl
  split at h
  · cases h
    exact oneLine_nil rfl
  · obtain ⟨x, hLoop, hx⟩ := Option.map_eq_some_iff.mp h
    have hState : OneLine x.state := by
      refine Leaves.rule (I := fun s => s.1.args = [] ∨ Clean s.1) (Q := fun x => OneLine x.state)
        ?_ ?_ ⟨fuel, hLoop⟩ (.inl rfl)
      · rintro ⟨e, line⟩ s' hs hTurn
        rcases hs with hs | hs
        · exact (argTurn_first_clean hs).1 s' hTurn
        · exact .inr ((argTurn_clean hs).1 s' hTurn)
      · rintro ⟨e, line⟩ x hs hTurn
        rcases hs with hs | hs
        · exact (argTurn_first_clean hs).2 x hTurn
        · exact .inl ((argTurn_clean hs).2 x hTurn).2
    have hArgs := finish_args x
    rw [hx] at hArgs
    unfold OneLine
    rw [hArgs]
    exact hState

/-! ## The round trip -/

/-- A word that names a command: nothing in it is special to the parser, and it
is not an alias. -/
structure PlainCommandWord (aliases : List (Bytes × Bytes)) (word : Bytes) : Prop where
  notEmpty : word ≠ []
  bare : ∀ c ∈ word, Bare c
  noCr : ch '\r' ∉ word
  notSpecial : ∀ c ∈ word.head?, c ≠ ch '#' ∧ c ≠ ch '!' ∧ c ≠ ch '(' ∧ c ≠ ch '?'
  notAlias : aliasFind aliases word = none

/-- `parse_one_cmd` undoes the quoting of `args`, and leaves what follows them. -/
def Undone (aliases : List (Bytes × Bytes)) (e : CmdExec) (args : List Bytes) (rest : Bytes) :
    Prop :=
  ∃ fuel e', parseOneCmd aliases fuel { e with cmdBuf := combineQuoted args ++ ch '\n' :: rest }
      = some (.ok, e')
    ∧ e'.args = args ∧ e'.output = none ∧ e'.background = false ∧ e'.cmdBuf = rest

/-- No argument is empty or has a newline, and a carriage return at the end of
the last one is inside quotes. -/
def Survives (args : List Bytes) : Prop :=
  (∀ arg ∈ args, arg ≠ [] ∧ ch '\n' ∉ arg)
    ∧ ∀ arg ∈ args.getLast?, needsQuotation arg = true ∨ arg.getLast? ≠ some (ch '\r')

/-- The state in which the loop for all arguments starts. -/
def started (e : CmdExec) : CmdExec :=
  { e with args := [], output := none, background := false, condition := .any }

theorem needsQuotation_of_bare {word : Bytes} (h : ∀ c ∈ word, Bare c) :
    needsQuotation word = false := by
  unfold needsQuotation
  rw [List.any_eq_false]
  intro c hc
  have hByte := (h c hc).1
  unfold needsQuotation at hByte
  rw [List.any_eq_false] at hByte
  exact hByte c List.mem_cons_self

theorem startCondition_of_starts {c : UInt8} (h : c ≠ ch '|' ∧ c ≠ ch '&') (line : Bytes) :
    startCondition (c :: line) = (.any, c :: line) := by
  have hAnd : (bytes "&&").isPrefixOf (c :: line) = false :=
    Bool.eq_false_iff.mpr fun hPrefix => h.2 ((isPrefixOf_pair _ _ _ _).mp hPrefix).1
  have hOr : (bytes "||").isPrefixOf (c :: line) = false :=
    Bool.eq_false_iff.mpr fun hPrefix => h.1 ((isPrefixOf_pair _ _ _ _).mp hPrefix).1
  simp only [startCondition, hAnd, hOr, Bool.false_eq_true, if_false]

/-- The first argument, and the state after it. -/
theorem argTurn_first {aliases : List (Bytes × Bytes)} {word : Bytes}
    (hWord : PlainCommandWord aliases word) {e : CmdExec} (hArgs : e.args = []) {c : UInt8}
    (hEnd : c = ch ' ' ∨ c = ch '\n') (line : Bytes) :
    argTurn aliases (e, word ++ c :: line) = .inl ({ e with args := [word] }, c :: line) := by
  have hLoop : wordLoop true argStops 0 [] (word ++ c :: line) = some (word, c :: line) := by
    have hBare := wordLoop_bare hWord.bare (fun _ : (c :: line).headD 0 = ch '\n' =>
      fun hLast => hWord.noCr (List.mem_of_getLast? hLast)) []
    rw [hBare, wordLoop_end hEnd, List.nil_append]
  cases word with
  | nil => exact absurd rfl hWord.notEmpty
  | cons x word =>
      have hStart : StartsWord e.args.isEmpty x := by
        obtain ⟨hSpace, hEscape, hNul, hOperator, -⟩ :=
          startsWord_of_bare (hWord.bare x List.mem_cons_self)
        exact ⟨hSpace, hEscape, hNul, hOperator, fun _ => hWord.notSpecial x rfl⟩
      have hTake : takeArg aliases e (x :: word) (c :: line)
          = ({ e with args := [x :: word] }, c :: line) := by
        simp only [takeArg, hArgs, List.isEmpty_nil, if_true, hWord.notAlias, List.nil_append]
      exact (argTurn_word hStart (fun h => absurd (h ▸ List.mem_cons_self) hWord.noCr) hLoop).trans
        (congrArg Sum.inl hTake)

/-- The parser on a command word runs its loop from the text after the word. -/
theorem parseOneCmd_word {aliases : List (Bytes × Bytes)} {word : Bytes}
    (hWord : PlainCommandWord aliases word) (e : CmdExec) {c : UInt8}
    (hEnd : c = ch ' ' ∨ c = ch '\n') (line : Bytes) (r : ParseResult × CmdExec) :
    (∃ fuel, parseOneCmd aliases fuel { e with cmdBuf := word ++ c :: line } = some r)
      ↔ ∃ x, Leaves (argTurn aliases)
          ({ started e with cmdBuf := word ++ c :: line, args := [word] }, c :: line) x
          ∧ finish x = r := by
  have hFirst := argTurn_first hWord (e := { started e with cmdBuf := word ++ c :: line }) rfl
    hEnd line
  have hParse : ∀ fuel, parseOneCmd aliases fuel { e with cmdBuf := word ++ c :: line }
      = (loop (argTurn aliases) fuel
          ({ started e with cmdBuf := word ++ c :: line }, word ++ c :: line)).map finish := by
    intro fuel
    cases word with
    | nil => exact absurd rfl hWord.notEmpty
    | cons x word =>
        obtain ⟨-, -, hNul, hOperator, -⟩ :=
          startsWord_of_bare (hWord.bare x List.mem_cons_self)
        simp only [parseOneCmd, List.cons_append, hNul, if_false,
          startCondition_of_starts ⟨hOperator.2.1, hOperator.2.2.2.2⟩, started]
  constructor
  · rintro ⟨fuel, h⟩
    rw [hParse, Option.map_eq_some_iff] at h
    obtain ⟨x, hLoop, hx⟩ := h
    cases fuel with
    | zero => cases hLoop
    | succ n => exact ⟨x, ⟨n, (loop_inl hFirst n).symm.trans hLoop⟩, hx⟩
  · rintro ⟨x, ⟨n, hLoop⟩, hx⟩
    refine ⟨n + 1, ?_⟩
    rw [hParse, loop_inl hFirst, hLoop, Option.map_some, hx]

theorem combineQuoted_word {word : Bytes} (h : ∀ c ∈ word, Bare c) (args : List Bytes) :
    combineQuoted (word :: args) = word ++ argsText args := by
  rw [combineQuoted_cons, quoted, needsQuotation_of_bare h, if_neg Bool.false_ne_true]

theorem parseOneCmd_combineQuoted {aliases : List (Bytes × Bytes)} {word : Bytes}
    (hWord : PlainCommandWord aliases word) (e : CmdExec) (args : List Bytes) (rest : Bytes)
    (r : ParseResult × CmdExec) :
    (∃ fuel, parseOneCmd aliases fuel
        { e with cmdBuf := combineQuoted (word :: args) ++ ch '\n' :: rest } = some r)
      ↔ ∃ x, Leaves (argTurn aliases)
          ({ started e with
              cmdBuf := combineQuoted (word :: args) ++ ch '\n' :: rest, args := [word] },
            argsText args ++ ch '\n' :: rest) x ∧ finish x = r := by
  obtain ⟨c, line, hTail, hEnd, -⟩ := argsText_head args rest
  rw [combineQuoted_word hWord.bare, List.append_assoc, hTail]
  exact parseOneCmd_word hWord e hEnd line r

theorem skipCmd_cmdBuf (len : Nat) (e : CmdExec) :
    (skipCmd len e).cmdBuf = e.cmdBuf.drop len := by
  unfold skipCmd
  dsimp only
  split <;> rfl

/-- The state after a command without a redirection. -/
structure Taken (e : CmdExec) (condition : Condition) (args : List Bytes) (background : Bool)
    (rest : Bytes) : Prop where
  condition_eq : e.condition = condition
  args_eq : e.args = args
  output_eq : e.output = none
  background_eq : e.background = background
  cmdBuf_eq : e.cmdBuf = rest

/-- A newline or a single `&` ends the command: what it leaves is the text after it. -/
theorem finish_end {e : CmdExec} {before rest : Bytes} {c : UInt8}
    (hEnd : c = ch '\n' ∨ c = ch '&' ∧ rest.head? ≠ some (ch '&'))
    (hBuf : e.cmdBuf = before ++ rest) :
    ∃ e', finish (.operator e (c :: rest)) = (.ok, e')
      ∧ Taken e' e.condition e.args (e.background || c = ch '&') rest := by
  have hAnd : (bytes "&&").isPrefixOf (c :: rest) = false := by
    apply Bool.eq_false_iff.mpr
    intro h
    obtain ⟨hc, hNext⟩ := (isPrefixOf_pair _ _ _ _).mp h
    rcases hEnd with rfl | ⟨-, hSingle⟩
    · exact absurd hc (by decide)
    · exact hSingle hNext
  have hOr : (bytes "||").isPrefixOf (c :: rest) = false := by
    apply Bool.eq_false_iff.mpr
    intro h
    have hc := ((isPrefixOf_pair _ _ _ _).mp h).1
    rcases hEnd with rfl | ⟨rfl, -⟩
    · exact absurd hc (by decide)
    · exact absurd hc (by decide)
  have hConjunction : atConjunction (c :: rest) = false := by rw [atConjunction, hAnd, hOr]; rfl
  have hFinish : finish (.operator e (c :: rest))
      = (.ok, { skipCmd (offset e rest) { e with background := e.background || c = ch '&' } with
          output := none }) := by
    rcases hEnd with rfl | ⟨rfl, -⟩
    · rfl
    · simp only [finish, cmdEnd, hConjunction]
      rfl
  have hSkip : ∀ (len : Nat) (e : CmdExec), (skipCmd len e).condition = e.condition
      ∧ (skipCmd len e).background = e.background := by
    intro len e
    unfold skipCmd
    dsimp only
    split
    · exact ⟨rfl, rfl⟩
    · exact ⟨rfl, rfl⟩
  refine ⟨_, hFinish, (hSkip _ _).1, skipCmd_args _ _, rfl, (hSkip _ _).2, ?_⟩
  show (skipCmd _ _).cmdBuf = rest
  rw [skipCmd_cmdBuf]
  show e.cmdBuf.drop (e.cmdBuf.length - rest.length) = rest
  rw [hBuf, List.length_append, Nat.add_sub_cancel, List.drop_left]

/-- What the parser makes of quoted arguments without newlines. -/
theorem parse_combineQuoted {aliases : List (Bytes × Bytes)} {word : Bytes} {args : List Bytes}
    (hWord : PlainCommandWord aliases word) (hNul : ∀ arg ∈ args, 0 ∉ arg)
    (hNewline : ∀ arg ∈ args, ch '\n' ∉ arg) (e : CmdExec) (rest : Bytes) :
    ∃ e', Taken e' .any (word :: readBack args) false rest
      ∧ ∀ r, (∃ fuel, parseOneCmd aliases fuel
          { e with cmdBuf := combineQuoted (word :: args) ++ ch '\n' :: rest } = some r)
        ↔ r = (.ok, e') := by
  generalize hText : combineQuoted (word :: args) ++ ch '\n' :: rest = text
  have hLeaves := leaves_argsText (e := { started e with cmdBuf := text, args := [word] })
    (List.cons_ne_nil _ _) hNul hNewline aliases rest
  have hBuf : text = (combineQuoted (word :: args) ++ [ch '\n']) ++ rest := by
    rw [← hText, List.append_assoc]
    rfl
  obtain ⟨e', hFinish, hTaken⟩ := finish_end
    (e := { started e with cmdBuf := text, args := [word] ++ readBack args }) (.inl rfl) hBuf
  refine ⟨e', hTaken, fun r => ?_⟩
  rw [← hText, parseOneCmd_combineQuoted hWord e args rest r, hText]
  constructor
  · rintro ⟨x, hx, rfl⟩
    rw [hx.unique hLeaves]
    exact hFinish
  · rintro rfl
    exact ⟨_, hLeaves, hFinish⟩

theorem length_readBack_le (args : List Bytes) : (readBack args).length ≤ args.length := by
  have hTrim : (trimLast args).length = args.length := by
    fun_induction trimLast args with
    | case1 => rfl
    | case2 => rfl
    | case3 arg args _ ih => rw [List.length_cons, List.length_cons, ih]
  rw [← hTrim]
  exact List.length_filter_le _ _

theorem survives_cons {arg : Bytes} {args : List Bytes} :
    Survives (arg :: args) ↔ (arg ≠ [] ∧ ch '\n' ∉ arg)
      ∧ (args = [] → needsQuotation arg = true ∨ arg.getLast? ≠ some (ch '\r'))
      ∧ Survives args := by
  unfold Survives
  rw [List.forall_mem_cons]
  cases args with
  | nil => simp
  | cons arg' args => simp [List.getLast?_cons_cons, and_assoc]

/-- All arguments come back exactly when they survive. -/
theorem readBack_eq_iff {args : List Bytes} (hNewline : ∀ arg ∈ args, ch '\n' ∉ arg) :
    readBack args = args ↔ Survives args := by
  induction args with
  | nil => simp [readBack, trimLast, Survives]
  | cons arg args ih =>
      have hIff := ih fun a ha => hNewline a (List.mem_cons_of_mem arg ha)
      rw [survives_cons]
      by_cases hKeep : args = [] → needsQuotation arg = true ∨ arg.getLast? ≠ some (ch '\r')
      · rw [readBack_cons hKeep]
        by_cases hArg : arg = []
        · rw [if_pos hArg, List.nil_append]
          constructor
          · intro h
            have hLength := length_readBack_le args
            rw [h, List.length_cons] at hLength
            omega
          · exact fun h => absurd hArg h.1.1
        · rw [if_neg hArg, List.singleton_append, List.cons.injEq, hIff]
          constructor
          · exact fun h => ⟨⟨hArg, hNewline arg List.mem_cons_self⟩, hKeep, h.2⟩
          · exact fun h => ⟨rfl, h.2.2⟩
      · have hLost := hKeep
        obtain ⟨rfl, hQuote⟩ := Classical.not_imp.mp hLost
        rw [not_or, not_not, Bool.not_eq_true] at hQuote
        obtain ⟨arg, rfl⟩ := List.getLast?_eq_some_iff.mp hQuote.2
        rw [readBack_dropCr hQuote.1]
        constructor
        · intro h
          by_cases hArg : arg = []
          · rw [if_pos hArg] at h
            cases h
          · rw [if_neg hArg] at h
            have hLength := congrArg List.length (List.cons.inj h).1
            rw [List.length_append, List.length_singleton] at hLength
            omega
        · exact fun h => absurd h.2.1 hKeep

/-- Quoting is undone exactly when every argument survives it: the quoter leaves
an empty argument without quotes, and has nothing for a newline. -/
theorem quoting_undone_iff (aliases : List (Bytes × Bytes)) (e : CmdExec) (word : Bytes)
    (args : List Bytes) (rest : Bytes) (hWord : PlainCommandWord aliases word)
    (hNul : ∀ arg ∈ args, 0 ∉ arg) :
    Undone aliases e (word :: args) rest ↔ Survives args := by
  by_cases hNewline : ∀ arg ∈ args, ch '\n' ∉ arg
  · obtain ⟨e', hTaken, hParse⟩ := parse_combineQuoted hWord hNul hNewline e rest
    have hArgs := hTaken.args_eq
    rw [← readBack_eq_iff hNewline]
    constructor
    · rintro ⟨fuel, e'', hRun, hBack, -⟩
      cases (hParse _).mp ⟨fuel, hRun⟩
      rw [hArgs] at hBack
      exact (List.cons.inj hBack).2
    · intro hBack
      obtain ⟨fuel, hRun⟩ := (hParse _).mpr rfl
      exact ⟨fuel, e', hRun, by rw [hArgs, hBack], hTaken.output_eq, hTaken.background_eq,
        hTaken.cmdBuf_eq⟩
  · constructor
    · rintro ⟨fuel, e', hRun, hBack, -⟩
      obtain ⟨x, hLeaves, hFinish⟩ :=
        (parseOneCmd_combineQuoted hWord e args rest _).mp ⟨fuel, hRun⟩
      have hStart : Clean { started e with
          cmdBuf := combineQuoted (word :: args) ++ ch '\n' :: rest, args := [word] } := by
        constructor
        · exact List.cons_ne_nil _ _
        · intro arg hArg hMem
          rw [List.mem_singleton.mp hArg] at hMem
          exact (hWord.bare _ hMem).2.2 rfl
      have hClean : Clean x.state :=
        Leaves.rule (I := fun s => Clean s.1) (Q := fun x => Clean x.state)
          (fun _ s' h hTurn => (argTurn_clean h).1 s' hTurn)
          (fun _ x h hTurn => (argTurn_clean h).2 x hTurn) hLeaves hStart
      have hArgs : x.state.args = word :: args := by
        rw [← finish_args, hFinish, hBack]
      have hLines := hClean.2
      rw [hArgs] at hLines
      exact absurd (fun arg hArg => hLines arg (List.mem_cons_of_mem word hArg)) hNewline
    · exact fun h => absurd (fun arg hArg => (h.1 arg hArg).2) hNewline

theorem quoting_undone_get : Undone [] ⟨[], [], none, false, .any, 0, []⟩
    [bytes "get", bytes "a b", bytes "#\r;\\"] [] := by
  have hWord : PlainCommandWord [] (bytes "get") :=
    ⟨by decide, bare_of_needsQuotation rfl (by decide) (by decide), by decide,
      by rintro _ ⟨⟩; decide, rfl⟩
  apply (quoting_undone_iff [] _ _ _ [] hWord (by decide)).mpr
  constructor
  · decide
  · rintro _ ⟨⟩
    decide

/-- An empty password is lost on the way. -/
theorem not_quoting_undone :
    PlainCommandWord [] (bytes "open")
      ∧ (∀ arg ∈ [bytes "--user", bytes "u", bytes "--password", [], bytes "host"], 0 ∉ arg)
      ∧ ¬ Undone [] ⟨[], [], none, false, .any, 0, []⟩
        [bytes "open", bytes "--user", bytes "u", bytes "--password", [], bytes "host"] [] := by
  have hWord : PlainCommandWord [] (bytes "open") :=
    ⟨by decide, bare_of_needsQuotation rfl (by decide) (by decide), by decide,
      by rintro _ ⟨⟩; decide, rfl⟩
  have hNul : ∀ arg ∈ [bytes "--user", bytes "u", bytes "--password", [], bytes "host"],
      0 ∉ arg := by
    decide
  refine ⟨hWord, hNul, ?_⟩
  rintro ⟨fuel, e', hRun, hBack, -⟩
  obtain ⟨e'', hTaken, hParse⟩ :=
    parse_combineQuoted hWord hNul (by decide) ⟨[], [], none, false, .any, 0, []⟩ []
  cases (hParse _).mp ⟨fuel, hRun⟩
  rw [hTaken.args_eq] at hBack
  exact absurd hBack (by decide)

end Lftp.Ports.ParseCmd
