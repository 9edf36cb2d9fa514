import Lftp.Ports.ParseCmd
import Lftp.Verified.Getopt
import Lftp.Verified.Segments

/-!
# Printed settings

A translation of `Resource::Format` and of what `cmd_set` takes from its
arguments. The printer puts quotes around a text with a blank or an operator in
it and escapes in either case; the parser of `Ports.ParseCmd` also takes a single
quote as a quote, and a carriage return before the newline as part of the line
end.

* `wordLoop_printed` is what the parser makes of a printed text, and
  `wordLoop_stray` what becomes of a single quote.
* `reads_iff` says which settings are read back.
-/

namespace Lftp.Ports.SetFormat

open Lftp.Verified Lftp.Ports.ParseCmd

/-! ## Settings -/

/-- A `Resource` of a registered type, whose name needs no quotation. -/
structure Resource where
  name : Bytes
  closure : Option Bytes
  value : Bytes
  name_ne : name ≠ []
  name_bare : ∀ c ∈ name, Bare c ∧ c ≠ ch '/' ∧ c ≠ ch '\r'
  name_operand : name.head? ≠ some (ch '-')
  closure_nul : ∀ s ∈ closure, 0 ∉ s
  value_nul : 0 ∉ value

/-- The scan with `strcspn`. -/
def needsPar (s : Bytes) : Bool := s.any fun c => (bytes " \t>|;&").contains c

/-- A text with its escapes, and in quotes when `par` is set. -/
def printed (par : Bool) (s : Bytes) : Bytes :=
  if par then ch '"' :: (escape s ++ [ch '"']) else escape s

/-- The quotes of the value: an empty one has them too. -/
def valuePar (s : Bytes) : Bool := s.isEmpty || needsPar s

def closureText : Option Bytes → Bytes
  | none => []
  | some s => ch '/' :: printed (needsPar s) s

namespace Resource

/-- `Resource::Format`. -/
def format (r : Resource) : Bytes :=
  bytes "set" ++ ch ' ' :: (r.name ++ closureText r.closure)
    ++ ch ' ' :: (printed (valuePar r.value) r.value ++ [ch '\n'])

end Resource

/-! ## The `set` command -/

def setOptions : OptionTable where
  short := [(ch 'a', false), (ch 'd', false)]
  long := []

/-- What `cmd_set` passes on to `FindVar` and to `ResMgr::Set`. -/
structure Setting where
  a : Bytes
  closure : Option Bytes
  val : Option Bytes
deriving DecidableEq

/-- `a`, cut at its first slash, and the arguments after it. -/
def setting (ac : Bytes) (args : List Bytes) : Setting where
  a := ac.takeWhile (· ≠ ch '/')
  closure := match ac.dropWhile (· ≠ ch '/') with
    | [] => none
    | _ :: closure => some closure
  val := match args with
    | [] => none
    | arg :: args => some (joinSep (ch ' ') arg args)

/-- `cmd_set`, up to the lookup of the variable; `none` after a bad option, and where
it lists the settings. -/
def cmdSet : List Bytes → Option Setting
  | [] => none
  | _ :: args =>
    let (opts, operands) := setOptions.getopt args
    if opts.contains .bad then none
    else
      match operands with
      | [] => none
      | ac :: args => some (setting ac args)

/-- The command parser makes a `set` command with the name, the closure and the
value of `r` from its line, and leaves what follows the line. -/
def Reads (aliases : List (Bytes × Bytes)) (e : CmdExec) (r : Resource) (rest : Bytes) : Prop :=
  ∃ fuel e', parseOneCmd aliases fuel { e with cmdBuf := r.format ++ rest } = some (.ok, e')
    ∧ e'.args.head? = some (bytes "set")
    ∧ cmdSet e'.args = some ⟨r.name, r.closure, some r.value⟩
    ∧ e'.output = none ∧ e'.background = false ∧ e'.cmdBuf = rest

/-- Nothing in the text is lost: no newline, and outside quotes no single quote. -/
def Kept (par : Bool) (s : Bytes) : Prop := ch '\n' ∉ s ∧ (par = true ∨ ch '\'' ∉ s)

instance (par : Bool) (s : Bytes) : Decidable (Kept par s) := by
  unfold Kept
  infer_instance

/-! ## Printed texts in the parser -/

/-- A byte that the parser takes from an unquoted text with escapes. -/
def Plain (c : UInt8) : Prop :=
  c ≠ 0 ∧ c ≠ ch '\n' ∧ c ≠ ch '\'' ∧ (bytes " \t>|;&").contains c = false

theorem bare_of_plain {c : UInt8} (h : Plain c) (hQuote : c ≠ ch '"') (hEscape : c ≠ ch '\\') :
    Bare c := by
  obtain ⟨hNul, hNewline, hSingle, hScan⟩ := h
  refine ⟨?_, hNul, hNewline⟩
  simp [bytes] at hScan
  simp [needsQuotation, bytes, hQuote, hEscape, hSingle, hScan]

theorem plain_of_kept {s : Bytes} (hNul : 0 ∉ s) (hKept : Kept false s)
    (hPar : needsPar s = false) : ∀ c ∈ s, Plain c := by
  intro c hc
  have hSingle : ch '\'' ∉ s := hKept.2.resolve_left nofun
  refine ⟨fun h => hNul (h ▸ hc), fun h => hKept.1 (h ▸ hc), fun h => hSingle (h ▸ hc), ?_⟩
  have hAny := List.any_eq_false.mp hPar c hc
  rwa [Bool.not_eq_true] at hAny

theorem escape_special {c : UInt8} (h : c = ch '"' ∨ c = ch '\\') (s : Bytes) :
    escape (c :: s) = ch '\\' :: c :: escape s := by
  simp only [escape, Bool.or_eq_true, decide_eq_true_eq, if_pos h]

theorem escape_ordinary {c : UInt8} (h : ¬ (c = ch '"' ∨ c = ch '\\')) (s : Bytes) :
    escape (c :: s) = c :: escape s := by
  simp only [escape, Bool.or_eq_true, decide_eq_true_eq, if_neg h]

theorem escape_append (s t : Bytes) : escape (s ++ t) = escape s ++ escape t := by
  induction s with
  | nil => rfl
  | cons c s ih =>
      by_cases hSpecial : c = ch '"' ∨ c = ch '\\'
      · rw [List.cons_append, escape_special hSpecial, escape_special hSpecial, ih]
        rfl
      · rw [List.cons_append, escape_ordinary hSpecial, escape_ordinary hSpecial, ih]
        rfl

theorem wordTurn_unquoted {c : UInt8} (h : c = ch '"' ∨ c = ch '\\') :
    wordTurn true argStops 0 (ch '\\') c = .two [c] := by
  rcases h with rfl | rfl <;> rfl

theorem headD_escape {s line : Bytes} (hNewline : ch '\n' ∉ s)
    (h : (escape s ++ line).headD 0 = ch '\n') : s = [] ∧ line.headD 0 = ch '\n' := by
  cases s with
  | nil => exact ⟨rfl, h⟩
  | cons c s =>
      by_cases hSpecial : c = ch '"' ∨ c = ch '\\'
      · rw [escape_special hSpecial] at h
        exact absurd h (by decide : ch '\\' ≠ ch '\n')
      · rw [escape_ordinary hSpecial] at h
        exact absurd (h ▸ List.mem_cons_self : ch '\n' ∈ c :: s) hNewline

/-- An unquoted text with its escapes is read back, up to a carriage return before a
newline. -/
theorem wordLoop_plain {s line : Bytes} (hPlain : ∀ c ∈ s, Plain c)
    (hCr : line.headD 0 = ch '\n' → s.getLast? ≠ some (ch '\r')) (nextarg : Bytes) :
    wordLoop true argStops 0 nextarg (escape s ++ line)
      = wordLoop true argStops 0 (nextarg ++ s) line := by
  induction s generalizing nextarg with
  | nil => rw [escape, List.nil_append, List.append_nil]
  | cons c s ih =>
      have hTail : ∀ x ∈ s, Plain x := fun x hx => hPlain x (List.mem_cons_of_mem c hx)
      have hNewline : ch '\n' ∉ s := fun h => (hTail _ h).2.1 rfl
      have hRest := ih hTail (fun hNext => by
        have hLast := hCr hNext
        cases s with
        | nil => rintro ⟨⟩
        | cons d s => rwa [List.getLast?_cons_cons] at hLast) (nextarg ++ [c])
      rw [List.append_assoc] at hRest
      by_cases hSpecial : c = ch '"' ∨ c = ch '\\'
      · rw [escape_special hSpecial, List.cons_append, wordLoop]
        simp only [List.cons_append, List.headD_cons, wordTurn_unquoted hSpecial]
        exact hRest
      · have hTurn : wordTurn true argStops 0 c ((escape s ++ line).headD 0) = .one 0 [c] := by
          rw [not_or] at hSpecial
          apply wordTurn_bare (bare_of_plain (hPlain c List.mem_cons_self) hSpecial.1 hSpecial.2)
          rintro rfl hNext
          obtain ⟨rfl, hLine⟩ := headD_escape hNewline hNext
          exact hCr hLine rfl
        rw [escape_ordinary hSpecial, List.cons_append, wordLoop, hTurn]
        exact hRest

/-- What the parser makes of a printed text. -/
theorem wordLoop_printed {par : Bool} {s line : Bytes} (hNul : 0 ∉ s) (hKept : Kept par s)
    (hPar : par = false → needsPar s = false)
    (hCr : line.headD 0 = ch '\n' → par = true ∨ s.getLast? ≠ some (ch '\r')) (nextarg : Bytes) :
    wordLoop true argStops 0 nextarg (printed par s ++ line)
      = wordLoop true argStops 0 (nextarg ++ s) line := by
  cases par with
  | true =>
      have hText : printed true s ++ line = ch '"' :: (escape s ++ ch '"' :: line) := by
        simp [printed]
      rw [hText, wordLoop, wordTurn_open]
      show wordLoop true argStops (ch '"') (nextarg ++ []) (escape s ++ ch '"' :: line) = _
      rw [List.append_nil, wordLoop_escape hNul hKept.1]
  | false =>
      exact wordLoop_plain (plain_of_kept hNul hKept (hPar rfl))
        (fun h => (hCr h).resolve_left (by rintro ⟨⟩)) nextarg

/-! ## A single quote outside quotes -/

/-- A carriage return before the newline is not part of an unquoted word. -/
theorem wordLoop_dropCr {s : Bytes} (hPlain : ∀ c ∈ s, Plain c) (nextarg rest : Bytes) :
    wordLoop true argStops 0 nextarg (escape (s ++ [ch '\r']) ++ ch '\n' :: rest)
      = some (nextarg ++ s, ch '\n' :: rest) := by
  have hNext : (ch '\r' :: ch '\n' :: rest).headD 0 = ch '\n' → s.getLast? ≠ some (ch '\r') :=
    fun h => absurd h (by decide : ch '\r' ≠ ch '\n')
  rw [escape_append, List.append_assoc]
  exact wordLoop_plain hPlain hNext nextarg

/-- A word only grows. -/
theorem wordLoop_extends {cr : Bool} {stops : UInt8 → UInt8 → Bool} {inQuotes : UInt8}
    {nextarg line word line' : Bytes}
    (h : wordLoop cr stops inQuotes nextarg line = some (word, line')) : nextarg <+: word := by
  fun_induction wordLoop cr stops inQuotes nextarg line with
  | case1 => cases h
  | case2 => cases h
  | case3 =>
      cases h
      exact List.prefix_rfl
  | case4 inQuotes nextarg c line inQuotes' out hTurn ih =>
      exact (List.prefix_append nextarg out).trans (ih h)
  | case5 => cases h
  | case6 inQuotes nextarg c out d line hTurn ih =>
      exact (List.prefix_append nextarg out).trans (ih h)

/-- The word stays as it is, or goes on with another byte than a single quote. -/
def Strays (nextarg word : Bytes) : Prop :=
  word = nextarg ∨ ∃ c, c ≠ ch '\'' ∧ nextarg ++ [c] <+: word

theorem wordTurn_single {inQuotes : UInt8} (h : inQuotes = 0 ∨ inQuotes = ch '\'') (d : UInt8) :
    ∃ inQuotes', (inQuotes' = 0 ∨ inQuotes' = ch '\'')
      ∧ wordTurn true argStops inQuotes (ch '\'') d = .one inQuotes' [] := by
  rcases h with rfl | rfl
  · exact ⟨ch '\'', .inr rfl, rfl⟩
  · exact ⟨0, .inl rfl, rfl⟩

/-- A turn at an ordinary byte ends the word or takes the byte. -/
theorem wordTurn_ordinary {inQuotes c : UInt8} (hIn : inQuotes = 0 ∨ inQuotes = ch '\'')
    (hSingle : c ≠ ch '\'') (hSpecial : ¬ (c = ch '"' ∨ c = ch '\\')) (d : UInt8) :
    wordTurn true argStops inQuotes c d = .ends
      ∨ (∃ cr, wordTurn true argStops inQuotes c d = .stop cr)
      ∨ wordTurn true argStops inQuotes c d = .one inQuotes [c] := by
  rw [not_or] at hSpecial
  have hQuote : isQuote c = false := by simp [isQuote, hSpecial.1, hSingle]
  have hClose : (decide (inQuotes ≠ 0) && decide (c = inQuotes)) = false := by
    rcases hIn with rfl | rfl
    · rfl
    · simp [hSingle]
  unfold wordTurn
  simp only [hSpecial.2, decide_false, Bool.false_and, Bool.false_eq_true, if_false, hQuote,
    Bool.and_false, hClose]
  split
  · exact .inr (.inl ⟨true, rfl⟩)
  split
  · exact .inl rfl
  split
  · exact .inr (.inl ⟨false, rfl⟩)
  · exact .inr (.inr rfl)

/-- A turn at an escape takes a byte that is no single quote. -/
theorem wordTurn_backslash {inQuotes c : UInt8} (hIn : inQuotes = 0 ∨ inQuotes = ch '\'')
    (hSpecial : c = ch '"' ∨ c = ch '\\') :
    wordTurn true argStops inQuotes (ch '\\') c = .two [c]
      ∨ wordTurn true argStops inQuotes (ch '\\') c = .one inQuotes [ch '\\'] := by
  rcases hIn with rfl | rfl <;> rcases hSpecial with rfl | rfl
  · exact .inl rfl
  · exact .inl rfl
  · exact .inr rfl
  · exact .inl rfl

/-- A word that goes on at an ordinary byte. -/
theorem wordLoop_ordinary {inQuotes c : UInt8} (hIn : inQuotes = 0 ∨ inQuotes = ch '\'')
    (hSingle : c ≠ ch '\'') (hSpecial : ¬ (c = ch '"' ∨ c = ch '\\'))
    {nextarg line word line' : Bytes}
    (h : wordLoop true argStops inQuotes nextarg (c :: line) = some (word, line')) :
    Strays nextarg word := by
  rw [wordLoop] at h
  rcases wordTurn_ordinary hIn hSingle hSpecial (line.headD 0) with hTurn | ⟨cr, hTurn⟩ | hTurn
  · rw [hTurn] at h
    cases h
  · rw [hTurn] at h
    cases h
    exact .inl rfl
  · rw [hTurn] at h
    exact .inr ⟨c, hSingle, wordLoop_extends h⟩

/-- After a single quote, what the parser reads up to the end of a printed text does
not start with the quote. -/
theorem wordLoop_stray {inQuotes : UInt8} (hIn : inQuotes = 0 ∨ inQuotes = ch '\'')
    {s : Bytes} {t : UInt8} (hEnd : t = ch ' ' ∨ t = ch '\n') {nextarg line word line' : Bytes}
    (h : wordLoop true argStops inQuotes nextarg (escape s ++ t :: line) = some (word, line')) :
    Strays nextarg word := by
  induction s generalizing inQuotes with
  | nil =>
      apply wordLoop_ordinary hIn _ _ h
      · rcases hEnd with rfl | rfl <;> decide
      · rcases hEnd with rfl | rfl <;> decide
  | cons c s ih =>
      by_cases hSpecial : c = ch '"' ∨ c = ch '\\'
      · have hSingle : c ≠ ch '\'' := by rcases hSpecial with rfl | rfl <;> decide
        rw [escape_special hSpecial, List.cons_append, wordLoop, List.cons_append,
          List.headD_cons] at h
        rcases wordTurn_backslash hIn hSpecial with hTurn | hTurn
        · rw [hTurn] at h
          exact .inr ⟨c, hSingle, wordLoop_extends h⟩
        · rw [hTurn] at h
          exact .inr ⟨ch '\\', by decide, wordLoop_extends h⟩
      · rw [escape_ordinary hSpecial, List.cons_append] at h
        by_cases hSingle : c = ch '\''
        · obtain ⟨inQuotes', hIn', hTurn⟩ := wordTurn_single hIn ((escape s ++ t :: line).headD 0)
          rw [hSingle, wordLoop, hTurn] at h
          dsimp only at h
          rw [List.append_nil] at h
          exact ih hIn' h
        · exact wordLoop_ordinary hIn hSingle hSpecial h

/-- Where a printed text has a single quote outside quotes, the parser's word is not
the text. -/
theorem wordLoop_lost {s : Bytes} (hNul : 0 ∉ s) (hNewline : ch '\n' ∉ s)
    (hPar : needsPar s = false) (hSingle : ch '\'' ∈ s) {t : UInt8}
    (hEnd : t = ch ' ' ∨ t = ch '\n') {nextarg line word line' : Bytes}
    (h : wordLoop true argStops 0 nextarg (escape s ++ t :: line) = some (word, line')) :
    ∃ pre post, s = pre ++ ch '\'' :: post ∧ Strays (nextarg ++ pre) word := by
  obtain ⟨pre, post, rfl, hPre⟩ := List.eq_append_cons_of_mem hSingle
  refine ⟨pre, post, rfl, ?_⟩
  rw [List.mem_append, not_or] at hNul hNewline
  have hPlain : ∀ c ∈ pre, Plain c := by
    apply plain_of_kept hNul.1 ⟨hNewline.1, .inr hPre⟩
    rw [needsPar, List.any_append, Bool.or_eq_false_iff] at hPar
    exact hPar.1
  have hNext : (ch '\'' :: (escape post ++ t :: line)).headD 0 = ch '\n' →
      pre.getLast? ≠ some (ch '\r') :=
    fun h => absurd h (by decide : ch '\'' ≠ ch '\n')
  obtain ⟨inQuotes, hIn, hTurn⟩ := wordTurn_single (.inl rfl) ((escape post ++ t :: line).headD 0)
  rw [escape_append, escape_ordinary (by decide), List.append_assoc, List.cons_append,
    wordLoop_plain hPlain hNext, wordLoop, hTurn] at h
  dsimp only at h
  rw [List.append_nil] at h
  exact wordLoop_stray hIn hEnd h

/-! ## Arguments of a printed line -/

/-- A turn for a word after the first. -/
theorem argTurn_more {aliases : List (Bytes × Bytes)} {e : CmdExec} (hArgs : e.args ≠ [])
    {c : UInt8} {line : Bytes} (hNul : c ≠ 0) (hNewline : c ≠ ch '\n')
    (hScan : (bytes " \t>|;&").contains c = false)
    (hEscape : c = ch '\\' → line.head? ≠ some (ch '\n'))
    (hCr : c = ch '\r' → line.head? ≠ some (ch '\n')) :
    argTurn aliases (e, c :: line)
      = match wordLoop true argStops 0 [] (c :: line) with
        | none => .inr (.again e)
        | some (nextarg, line') => .inl ({ e with args := e.args ++ [nextarg] }, line') := by
  simp [bytes] at hScan
  have hSpace : ParseCmd.isSpace c = false := by simp [ParseCmd.isSpace, hScan]
  have hOperator : c ≠ ch '|' ∧ c ≠ ch '>' ∧ c ≠ ch ';' ∧ c ≠ ch '&' := by simp [hScan]
  have hSkip : ParseCmd.skipSpace (c :: line) = c :: line :=
    List.dropWhile_cons_of_neg (by rw [hSpace]; rintro ⟨⟩)
  have hContinued : (bytes "\\\n").isPrefixOf (c :: line) = false :=
    Bool.eq_false_iff.mpr fun h =>
      hEscape ((isPrefixOf_pair _ _ _ _).mp h).1 ((isPrefixOf_pair _ _ _ _).mp h).2
  have hCrLf : (bytes "\r\n").isPrefixOf (c :: line) = false :=
    Bool.eq_false_iff.mpr fun h =>
      hCr ((isPrefixOf_pair _ _ _ _).mp h).1 ((isPrefixOf_pair _ _ _ _).mp h).2
  have hEmpty : e.args.isEmpty = false := List.isEmpty_eq_false_iff.mpr hArgs
  simp only [argTurn, hSkip, hContinued, hCrLf, Bool.false_eq_true, if_false, hNul, hNewline,
    hOperator, decide_false, Bool.or_self, hEmpty, Bool.false_and, takeArg_of_ne_nil hArgs]
  all_goals rfl

/-- The turn for a printed value, which may lose a carriage return but is not only that. -/
theorem argTurn_value (aliases : List (Bytes × Bytes)) {e : CmdExec} (hArgs : e.args ≠ [])
    {s : Bytes} (hNul : 0 ∉ s) (hNewline : ch '\n' ∉ s)
    (hCr : valuePar s = true ∨ s ≠ [ch '\r']) (rest : Bytes) :
    argTurn aliases (e, printed (valuePar s) s ++ ch '\n' :: rest)
      = match wordLoop true argStops 0 [] (printed (valuePar s) s ++ ch '\n' :: rest) with
        | none => .inr (.again e)
        | some (nextarg, line') => .inl ({ e with args := e.args ++ [nextarg] }, line') := by
  cases hPar : valuePar s with
  | true =>
      exact argTurn_more hArgs (by decide) (by decide) rfl (fun h => absurd h (by decide))
        fun h => absurd h (by decide)
  | false =>
      rw [hPar] at hCr
      rw [valuePar, Bool.or_eq_false_iff] at hPar
      cases s with
      | nil => exact absurd hPar.1 (by decide)
      | cons c s =>
          rw [List.mem_cons, not_or] at hNul hNewline
          show argTurn aliases (e, escape (c :: s) ++ ch '\n' :: rest)
            = match wordLoop true argStops 0 [] (escape (c :: s) ++ ch '\n' :: rest) with
              | none => .inr (.again e)
              | some (nextarg, line') => .inl ({ e with args := e.args ++ [nextarg] }, line')
          by_cases hSpecial : c = ch '"' ∨ c = ch '\\'
          · rw [escape_special hSpecial]
            apply argTurn_more hArgs (by decide) (by decide) rfl _ fun h => absurd h (by decide)
            rintro - h
            exact hNewline.1 (Option.some.inj h).symm
          · rw [escape_ordinary hSpecial]
            rw [needsPar, List.any_cons, Bool.or_eq_false_iff] at hPar
            apply argTurn_more hArgs (Ne.symm hNul.1) (Ne.symm hNewline.1) hPar.2.1
            · exact fun h => absurd (.inr h) hSpecial
            · rintro rfl h
              have hHead : (escape s ++ ch '\n' :: rest).headD 0 = ch '\n' := by
                rw [List.headD_eq_head?_getD]
                exact congrArg (Option.getD · 0) h
              obtain ⟨rfl, -⟩ := headD_escape hNewline.2 hHead
              exact hCr.resolve_left nofun rfl

/-- What follows the name in the first argument. -/
def closureArg : Option Bytes → Bytes
  | none => []
  | some s => ch '/' :: s

/-- The turn for the name, up to the closure. -/
theorem argTurn_name (aliases : List (Bytes × Bytes)) {e : CmdExec} (hArgs : e.args ≠ [])
    (r : Resource) {line : Bytes} (hNext : line.headD 0 ≠ ch '\n') :
    argTurn aliases (e, r.name ++ line)
      = match wordLoop true argStops 0 r.name line with
        | none => .inr (.again e)
        | some (nextarg, line') => .inl ({ e with args := e.args ++ [nextarg] }, line') := by
  have hBare : ∀ c ∈ r.name, Bare c := fun c hc => (r.name_bare c hc).1
  have hLoop := wordLoop_bare hBare (fun h : line.headD 0 = ch '\n' => absurd h hNext) []
  rw [List.nil_append] at hLoop
  rw [← hLoop]
  cases hName : r.name with
  | nil => exact absurd hName r.name_ne
  | cons x name =>
      have hx : x ∈ r.name := hName ▸ List.mem_cons_self
      obtain ⟨⟨hQuote, hNul, hNewline⟩, -, hCr⟩ := r.name_bare x hx
      simp [needsQuotation, bytes] at hQuote
      exact argTurn_more hArgs hNul hNewline (by simp [bytes, hQuote])
        (fun h => absurd h (by simp [hQuote])) fun h => absurd h hCr

theorem headD_closureText (closure : Option Bytes) (line : Bytes) :
    (closureText closure ++ ch ' ' :: line).headD 0 ≠ ch '\n' := by
  cases closure with
  | none =>
      show ch ' ' ≠ ch '\n'
      decide
  | some s =>
      show ch '/' ≠ ch '\n'
      decide

/-- The slash before a closure is part of the word. -/
theorem wordLoop_slash (nextarg line : Bytes) :
    wordLoop true argStops 0 nextarg (ch '/' :: line)
      = wordLoop true argStops 0 (nextarg ++ [ch '/']) line := by
  have hSlash : ∀ c ∈ [ch '/'], Bare c := by
    intro c hc
    rw [List.mem_singleton.mp hc]
    exact ⟨rfl, by decide, by decide⟩
  exact wordLoop_bare hSlash (fun _ : line.headD 0 = ch '\n' => by decide) nextarg

/-- The argument of the name and of a closure in which nothing is lost. -/
theorem argTurn_closure (aliases : List (Bytes × Bytes)) {e : CmdExec} (hArgs : e.args ≠ [])
    {r : Resource} (hKept : ∀ s ∈ r.closure, Kept (needsPar s) s) (line : Bytes) :
    argTurn aliases (e, r.name ++ (closureText r.closure ++ ch ' ' :: line))
      = .inl ({ e with args := e.args ++ [r.name ++ closureArg r.closure] }, ch ' ' :: line) := by
  rw [argTurn_name aliases hArgs r (headD_closureText r.closure line)]
  cases hClosure : r.closure with
  | none =>
      rw [closureText, List.nil_append, wordLoop_end (.inl rfl), closureArg, List.append_nil]
  | some s =>
      have hPrinted := wordLoop_printed (r.closure_nul s hClosure) (hKept s hClosure) id
        (fun h : (ch ' ' :: line).headD 0 = ch '\n' => absurd h (by decide : ch ' ' ≠ ch '\n'))
        (r.name ++ [ch '/'])
      rw [closureText, List.cons_append, wordLoop_slash, hPrinted, wordLoop_end (.inl rfl),
        List.append_assoc]
      rfl

/-! ## The arguments of `set` -/

theorem setting_closureArg {name : Bytes} (hSlash : ch '/' ∉ name) (closure : Option Bytes)
    (arg : Bytes) (args : List Bytes) :
    setting (name ++ closureArg closure) (arg :: args)
      = ⟨name, closure, some (joinSep (ch ' ') arg args)⟩ := by
  have hName : ∀ c ∈ name, decide (c ≠ ch '/') = true := by
    intro c hc
    rw [decide_eq_true_eq]
    rintro rfl
    exact hSlash hc
  unfold setting
  rw [List.takeWhile_append_of_pos hName, List.dropWhile_append_of_pos hName]
  cases closure with
  | none => simp [closureArg]
  | some s => simp [closureArg]

theorem of_setting {ac name : Bytes} {args : List Bytes} {closure : Option Bytes}
    {val : Option Bytes} (h : setting ac args = ⟨name, closure, val⟩) :
    ac = name ++ closureArg closure := by
  injection h with hName hClosure hVal
  rw [← hName, ← hClosure]
  have hCut := List.takeWhile_append_dropWhile (p := fun c => decide (c ≠ ch '/')) (l := ac)
  cases hDrop : ac.dropWhile fun c => decide (c ≠ ch '/') with
  | nil =>
      rw [hDrop] at hCut
      exact hCut.symm
  | cons c s =>
      have hHead := List.head?_dropWhile_not (fun c => decide (c ≠ ch '/')) ac
      rw [hDrop] at hHead hCut
      have hSlash : c = ch '/' := by simpa using hHead
      rw [hSlash] at hCut
      exact hCut.symm

/-- A first argument that is no option. -/
theorem cmdSet_operand {cmd ac : Bytes} (h : ac.head? ≠ some (ch '-')) (args : List Bytes) :
    cmdSet (cmd :: ac :: args) = some (setting ac args) := by
  have hOption : isOption ac = false := by
    rcases ac with _ | ⟨c, _ | ⟨d, ac⟩⟩
    · rfl
    · rfl
    · simpa [isOption] using h
  rw [cmdSet, OptionTable.getopt_operand hOption]
  rfl

theorem not_strays (nextarg post : Bytes) : ¬ Strays nextarg (nextarg ++ ch '\'' :: post) := by
  rintro (h | ⟨c, hc, hPrefix⟩)
  · rw [List.append_right_eq_self] at h
    cases h
  · rw [List.prefix_append_right_inj, List.cons_prefix_cons] at hPrefix
    exact hc hPrefix.1

/-- Arguments that are joined to a word leave its beginning alone. -/
theorem Strays.join {nextarg word : Bytes} (h : Strays nextarg word) (args : List Bytes) :
    Strays nextarg (joinSep (ch ' ') word args) := by
  unfold joinSep
  rcases h with rfl | ⟨c, hc, hPrefix⟩
  · cases args with
    | nil => exact .inl (List.append_nil word)
    | cons arg args =>
        refine .inr ⟨ch ' ', by decide, ?_⟩
        rw [List.prefix_append_right_inj]
        exact ⟨_, rfl⟩
  · exact .inr ⟨c, hc, hPrefix.trans (List.prefix_append _ _)⟩

/-- A turn after the first argument only adds arguments. -/
theorem argTurn_grows {aliases : List (Bytes × Bytes)} {e : CmdExec} {line : Bytes}
    (h : e.args ≠ []) :
    (∀ s, argTurn aliases (e, line) = .inl s → e.args <+: s.1.args)
      ∧ (∀ x, argTurn aliases (e, line) = .inr x → x.state.args = e.args) := by
  have hEmpty : e.args.isEmpty = false := List.isEmpty_eq_false_iff.mpr h
  simp only [argTurn, hEmpty, Bool.false_and, Bool.false_eq_true, if_false]
  split
  · exact ⟨by rintro _ ⟨⟩; exact List.prefix_rfl, by rintro _ ⟨⟩⟩
  split
  · exact ⟨by rintro _ ⟨⟩, by rintro _ ⟨⟩; rfl⟩
  split
  · exact ⟨by rintro _ ⟨⟩, by rintro _ ⟨⟩; rfl⟩
  split
  · exact ⟨by rintro _ ⟨⟩, by rintro _ ⟨⟩; rfl⟩
  split
  · exact ⟨by rintro _ ⟨⟩, by rintro _ ⟨⟩; rfl⟩
  · rw [takeArg_of_ne_nil h]
    exact ⟨by rintro _ ⟨⟩; exact List.prefix_append _ _, by rintro _ ⟨⟩⟩

theorem leaves_args_prefix {aliases : List (Bytes × Bytes)} {e : CmdExec} {line : Bytes}
    {x : Exit} (hArgs : e.args ≠ []) (h : Leaves (argTurn aliases) (e, line) x) :
    e.args <+: x.state.args := by
  refine Leaves.rule (I := fun s => s.1.args ≠ [] ∧ e.args <+: s.1.args)
    (Q := fun x => e.args <+: x.state.args) ?_ ?_ h ⟨hArgs, List.prefix_rfl⟩
  · rintro ⟨e', line'⟩ s' ⟨hNe, hPrefix⟩ hTurn
    have hGrows := (argTurn_grows hNe).1 s' hTurn
    exact ⟨hGrows.ne_nil hNe, hPrefix.trans hGrows⟩
  · rintro ⟨e', line'⟩ x ⟨hNe, hPrefix⟩ hTurn
    rwa [(argTurn_grows hNe).2 x hTurn]

/-- The loop goes on after a turn for a word, unless it asks for more text. -/
theorem leaves_taken {aliases : List (Bytes × Bytes)} {e : CmdExec} {line : Bytes}
    {o : Option (Bytes × Bytes)} {x : Exit}
    (hTurn : argTurn aliases (e, line) = match o with
      | none => .inr (.again e)
      | some (nextarg, line') => .inl ({ e with args := e.args ++ [nextarg] }, line'))
    (h : Leaves (argTurn aliases) (e, line) x) (hOk : (finish x).1 = .ok) :
    ∃ word line', o = some (word, line')
      ∧ Leaves (argTurn aliases) ({ e with args := e.args ++ [word] }, line') x := by
  rcases o with _ | ⟨word, line'⟩
  · rw [← h.last hTurn] at hOk
    cases hOk
  · exact ⟨word, line', rfl, h.next hTurn⟩

/-! ## Reading back -/

theorem Resource.name_slash (r : Resource) : ch '/' ∉ r.name :=
  fun hc => (r.name_bare _ hc).2.1 rfl

theorem Resource.head_name (r : Resource) (text : Bytes) :
    (r.name ++ text).head? ≠ some (ch '-') := by
  have hOperand := r.name_operand
  cases hName : r.name with
  | nil => exact absurd hName r.name_ne
  | cons c name => rwa [hName] at hOperand

/-- The value is kept, and a carriage return at its end is inside quotes. -/
def Resource.Survives (r : Resource) : Prop :=
  (∀ s ∈ r.closure, Kept (needsPar s) s) ∧ Kept (valuePar r.value) r.value
    ∧ (valuePar r.value = true ∨ r.value.getLast? ≠ some (ch '\r'))

theorem plainCommandWord_set {aliases : List (Bytes × Bytes)}
    (hAlias : aliasFind aliases (bytes "set") = none) :
    PlainCommandWord aliases (bytes "set") :=
  ⟨by decide, bare_of_needsQuotation rfl (by decide) (by decide), by decide,
    by rintro _ ⟨⟩; decide, hAlias⟩

theorem needsPar_of_valuePar {s : Bytes} (h : valuePar s = false) : needsPar s = false :=
  (Bool.or_eq_false_iff.mp h).2

/-- The state after `set` and the name with its closure. -/
def named (e : CmdExec) (text : Bytes) (r : Resource) : CmdExec :=
  { started e with cmdBuf := text, args := [bytes "set", r.name ++ closureArg r.closure] }

/-- The parser on the line of a setting, after `set`. -/
theorem parseOneCmd_format {aliases : List (Bytes × Bytes)}
    (hAlias : aliasFind aliases (bytes "set") = none) (e : CmdExec) (r : Resource) (rest : Bytes)
    (result : ParseResult × CmdExec) :
    (∃ fuel, parseOneCmd aliases fuel { e with cmdBuf := r.format ++ rest } = some result)
      ↔ ∃ x, Leaves (argTurn aliases)
          ({ started e with cmdBuf := r.format ++ rest, args := [bytes "set"] },
            r.name ++ (closureText r.closure
              ++ ch ' ' :: (printed (valuePar r.value) r.value ++ ch '\n' :: rest))) x
          ∧ finish x = result := by
  have hText : r.format ++ rest = bytes "set" ++ ch ' ' :: (r.name ++ (closureText r.closure
      ++ ch ' ' :: (printed (valuePar r.value) r.value ++ ch '\n' :: rest))) := by
    simp [Resource.format]
  have hWord := parseOneCmd_word (plainCommandWord_set hAlias) e (.inl rfl : ch ' ' = ch ' ' ∨ _)
    (r.name ++ (closureText r.closure
      ++ ch ' ' :: (printed (valuePar r.value) r.value ++ ch '\n' :: rest))) result
  rw [← hText] at hWord
  rw [hWord]
  constructor
  · rintro ⟨x, hx, rfl⟩
    exact ⟨x, Leaves.of_turn_eq (argTurn_space aliases _ _).symm hx, rfl⟩
  · rintro ⟨x, hx, rfl⟩
    exact ⟨x, Leaves.of_turn_eq (argTurn_space aliases _ _) hx, rfl⟩

/-- A setting that survives is read back. -/
theorem reads_of_survives {aliases : List (Bytes × Bytes)}
    (hAlias : aliasFind aliases (bytes "set") = none) (e : CmdExec) {r : Resource} (rest : Bytes)
    (h : r.Survives) : Reads aliases e r rest := by
  obtain ⟨hClosure, hValue, hCr⟩ := h
  have hName := argTurn_closure aliases
    (e := { started e with cmdBuf := r.format ++ rest, args := [bytes "set"] })
    (List.cons_ne_nil _ _) hClosure (printed (valuePar r.value) r.value ++ ch '\n' :: rest)
  have hLoop := wordLoop_printed r.value_nul hValue needsPar_of_valuePar
    (fun _ : (ch '\n' :: rest).headD 0 = ch '\n' => hCr) []
  have hTurn := argTurn_value aliases (e := named e (r.format ++ rest) r)
    (List.cons_ne_nil _ _) r.value_nul hValue.1 (hCr.imp_right fun h hOnly => h (hOnly ▸ rfl)) rest
  rw [hLoop, wordLoop_end (.inr rfl), List.nil_append] at hTurn
  obtain ⟨e', hFinish, hTaken⟩ := finish_end
    (e := { named e (r.format ++ rest) r with
      args := [bytes "set", r.name ++ closureArg r.closure, r.value] })
    (.inl rfl) (show r.format ++ rest = r.format ++ rest from rfl)
  obtain ⟨fuel, hRun⟩ := (parseOneCmd_format hAlias e r rest (.ok, e')).mpr
    ⟨_, .inl hName (Leaves.of_turn_eq (argTurn_space aliases _ _)
      (.inl hTurn (.inr (argTurn_newline aliases _ rest)))), hFinish⟩
  refine ⟨fuel, e', hRun, by rw [hTaken.args_eq]; rfl, ?_, hTaken.output_eq,
    hTaken.background_eq, hTaken.cmdBuf_eq⟩
  rw [hTaken.args_eq, cmdSet_operand (r.head_name _), setting_closureArg r.name_slash, joinSep,
    List.flatMap_nil, List.append_nil]

theorem args_of_cmdSet {r : Resource} {cmd word : Bytes} {args : List Bytes}
    (hName : r.name <+: word)
    (h : cmdSet (cmd :: word :: args) = some ⟨r.name, r.closure, some r.value⟩) :
    word = r.name ++ closureArg r.closure
      ∧ ∃ arg args', args = arg :: args' ∧ joinSep (ch ' ') arg args' = r.value := by
  have hHead : word.head? ≠ some (ch '-') := by
    obtain ⟨text, rfl⟩ := hName
    exact r.head_name text
  rw [cmdSet_operand hHead] at h
  have hSetting := Option.some.inj h
  refine ⟨of_setting hSetting, ?_⟩
  have hVal := congrArg Setting.val hSetting
  cases args with
  | nil => cases hVal
  | cons arg args => exact ⟨arg, args, rfl, Option.some.inj hVal⟩

/-- A closure that is read back is kept. -/
theorem kept_closure {r : Resource} {line line' : Bytes}
    (hNewline : ch '\n' ∉ r.name ++ closureArg r.closure)
    (hLoop : wordLoop true argStops 0 r.name (closureText r.closure ++ ch ' ' :: line)
      = some (r.name ++ closureArg r.closure, line')) :
    ∀ s ∈ r.closure, Kept (needsPar s) s := by
  intro s hs
  have hClosure : r.closure = some s := hs
  rw [hClosure] at hNewline hLoop
  have hLine : ch '\n' ∉ s := fun h =>
    hNewline (List.mem_append_right _ (List.mem_cons_of_mem _ h))
  refine ⟨hLine, ?_⟩
  by_contra hLost
  rw [not_or, Bool.not_eq_true, not_not] at hLost
  rw [closureText, hLost.1, List.cons_append, wordLoop_slash] at hLoop
  obtain ⟨pre, post, rfl, hStrays⟩ :=
    wordLoop_lost (r.closure_nul s hs) hLine hLost.1 hLost.2 (.inl rfl) hLoop
  apply not_strays (r.name ++ [ch '/'] ++ pre) post
  simpa [closureArg] using hStrays

/-- A value that is read back survives. -/
theorem kept_value {aliases : List (Bytes × Bytes)} {e : CmdExec} {r : Resource} {rest : Bytes}
    {x : Exit} {arg : Bytes} {args : List Bytes}
    (hNewline : ch '\n' ∉ r.value) (hArgs : e.args ≠ []) (hOk : (finish x).1 = .ok)
    (hLeaves : Leaves (argTurn aliases)
      (e, printed (valuePar r.value) r.value ++ ch '\n' :: rest) x)
    (hState : x.state.args = e.args ++ arg :: args)
    (hValue : joinSep (ch ' ') arg args = r.value) :
    Kept (valuePar r.value) r.value
      ∧ (valuePar r.value = true ∨ r.value.getLast? ≠ some (ch '\r')) := by
  cases hPar : valuePar r.value with
  | true => exact ⟨⟨hNewline, .inl rfl⟩, .inl rfl⟩
  | false =>
      rw [hPar] at hLeaves
      by_cases hOnly : r.value = [ch '\r']
      · rw [hOnly] at hLeaves
        have hExit := hLeaves.last (argTurn_crlf aliases e rest)
        rw [← hExit, Exit.state] at hState
        simp at hState
      · have hTurn := argTurn_value aliases hArgs r.value_nul hNewline (.inr hOnly) rest
        rw [hPar] at hTurn
        obtain ⟨word, line', hLoop, hNext⟩ := leaves_taken hTurn hLeaves hOk
        have hPrefix := leaves_args_prefix (by simp) hNext
        rw [hState, List.prefix_append_right_inj, List.cons_prefix_cons] at hPrefix
        obtain ⟨rfl, -⟩ := hPrefix
        have hSingle : ch '\'' ∉ r.value := by
          intro hMem
          obtain ⟨pre, post, hSplit, hStrays⟩ := wordLoop_lost r.value_nul hNewline
            (needsPar_of_valuePar hPar) hMem (.inr rfl) hLoop
          have hJoin := hStrays.join args
          rw [hValue, hSplit] at hJoin
          exact not_strays pre post hJoin
        refine ⟨⟨hNewline, .inr hSingle⟩, .inr fun hLast => ?_⟩
        obtain ⟨text, hText⟩ := List.getLast?_eq_some_iff.mp hLast
        have hPlain := plain_of_kept r.value_nul ⟨hNewline, .inr hSingle⟩
          (needsPar_of_valuePar hPar)
        have hDrop := wordLoop_dropCr
          (fun c hc => hPlain c (hText ▸ List.mem_append_left _ hc)) [] rest
        rw [← hText] at hDrop
        obtain ⟨rfl, rfl⟩ := Prod.mk.inj (Option.some.inj (hLoop.symm.trans hDrop))
        have hExit := hNext.last (argTurn_newline aliases _ rest)
        rw [← hExit, Exit.state, List.append_cancel_left_eq, List.cons.injEq] at hState
        rw [← hState.2, joinSep, List.flatMap_nil, List.append_nil, hText] at hValue
        exact List.cons_ne_nil _ _ (List.append_right_eq_self.mp hValue.symm)

/-- A setting that is read back survives. -/
theorem survives_of_reads {aliases : List (Bytes × Bytes)}
    (hAlias : aliasFind aliases (bytes "set") = none) {e : CmdExec} {r : Resource} {rest : Bytes}
    (h : Reads aliases e r rest) : r.Survives := by
  obtain ⟨fuel, e', hRun, hHead, hSet, -⟩ := h
  obtain ⟨x, hLeaves, hFinish⟩ := (parseOneCmd_format hAlias e r rest _).mp ⟨fuel, hRun⟩
  have hOk : (finish x).1 = .ok := by rw [hFinish]
  have hState : x.state.args = e'.args := by rw [← finish_args, hFinish]
  have hLine : ∀ arg ∈ e'.args, ch '\n' ∉ arg := by
    rcases parseOneCmd_oneLine hRun with h | h | h
    · exact h
    · rw [hHead] at h
      cases h
    · rw [hHead] at h
      cases h
  generalize hAfter : printed (valuePar r.value) r.value ++ ch '\n' :: rest = after at hLeaves
  have hTurn := argTurn_name aliases
    (e := { started e with cmdBuf := r.format ++ rest, args := [bytes "set"] })
    (List.cons_ne_nil _ _) r (headD_closureText r.closure after)
  obtain ⟨word, line', hLoop, hNext⟩ := leaves_taken hTurn hLeaves hOk
  have hPrefix := leaves_args_prefix (List.append_ne_nil_of_left_ne_nil (List.cons_ne_nil _ _) _)
    hNext
  rw [hState] at hPrefix
  obtain ⟨args, hArgs⟩ := hPrefix
  rw [← hArgs] at hSet hLine
  obtain ⟨rfl, arg, args, rfl, hValue⟩ := args_of_cmdSet (wordLoop_extends hLoop) hSet
  have hName : ch '\n' ∉ r.name ++ closureArg r.closure := hLine _ (by simp)
  have hNewline : ch '\n' ∉ r.value := by
    rw [← hValue, joinSep, List.mem_append, List.mem_flatMap, not_or]
    refine ⟨hLine arg (by simp), ?_⟩
    rintro ⟨a, ha, hMem⟩
    rcases List.mem_cons.mp hMem with hSpace | hMem
    · exact absurd hSpace (by decide)
    · exact hLine a (by simp [ha]) hMem
  have hKept := kept_closure hName hLoop
  have hClosure := argTurn_closure aliases
    (e := { started e with cmdBuf := r.format ++ rest, args := [bytes "set"] })
    (List.cons_ne_nil _ _) hKept after
  have hLeft := Leaves.of_turn_eq (argTurn_space aliases _ _).symm (hLeaves.next hClosure)
  rw [← hAfter] at hLeft
  exact ⟨hKept, kept_value hNewline (by simp) hOk hLeft (hState.trans hArgs.symm) hValue⟩

/-- Exactly the settings that survive are read back: the printer leaves single quotes
and a carriage return at the end alone unless something else asks for quotes, and has
nothing for a newline. -/
theorem reads_iff (aliases : List (Bytes × Bytes)) (e : CmdExec) (r : Resource) (rest : Bytes)
    (hAlias : aliasFind aliases (bytes "set") = none) :
    Reads aliases e r rest ↔ r.Survives :=
  ⟨survives_of_reads hAlias, reads_of_survives hAlias e rest⟩

/-- The password that an anonymous login sends. -/
def anonPass (value : Bytes) (hNul : 0 ∉ value) : Resource where
  name := bytes "ftp:anon-pass"
  closure := some (bytes "*.org")
  value := value
  name_ne := by decide
  name_bare := by
    intro c hc
    have hQuote : needsQuotation (bytes "ftp:anon-pass") = false := rfl
    have hOther : ((bytes "ftp:anon-pass").all fun c => c ≠ ch '/' ∧ c ≠ ch '\r') = true := by decide
    exact ⟨bare_of_needsQuotation hQuote (by decide) (by decide) c hc,
      forall_of_all hOther c hc⟩
  name_operand := by decide
  closure_nul := by rintro _ ⟨⟩; decide
  value_nul := hNul

theorem reads_anonPass : Reads [] ⟨[], [], none, false, .any, 0, []⟩
    (anonPass (bytes "it's; \"so\"") (by decide)) [] := by
  apply (reads_iff [] _ _ _ rfl).mpr
  refine ⟨?_, by decide, by decide⟩
  rintro _ ⟨⟩
  decide

/-- A single quote in a value without blanks is lost. -/
theorem not_reads_quote : aliasFind [] (bytes "set") = none
    ∧ ¬ Reads [] ⟨[], [], none, false, .any, 0, []⟩ (anonPass (bytes "it's") (by decide)) [] := by
  refine ⟨rfl, fun h => ?_⟩
  have hKept := (survives_of_reads rfl h).2.1
  exact absurd hKept (by decide)

end Lftp.Ports.SetFormat
