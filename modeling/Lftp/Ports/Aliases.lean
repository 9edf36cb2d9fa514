import Mathlib.Dynamics.FixedPoints.Basic
import Lftp.Ports.ParseCmd

/-!
# Aliases and the end of the parser's loop

`parse_one_cmd` puts the text of an alias in place of the first word of a command and starts anew.
`used_aliases` are the texts that are not put in again, and `alias_field` says how much of the text
in the buffer they are the reason for. `skip_cmd` forgets them when it has passed that much, also
when the next alias ends exactly where the text of the last one does.

* `parse_returns`: the parser returns, when this is not so of any alias on its way.
* `parse_words_iff`: where all aliases stand for plain words, it returns exactly when they come to a
  word that has no alias or stands for itself.
-/

namespace Lftp.Ports.Aliases

open Lftp.Verified
open Lftp.Ports.ParseCmd

/-! ## The turns of the loop -/

/-- The word that a turn reads, if it reads one, and what follows. -/
def wordAt (line : Bytes) : Option (Bytes × Bytes) :=
  wordLoop true argStops 0 []
    (if (bytes "\r\n").isPrefixOf (skipSpace line) then (skipSpace line).drop 1 else skipSpace line)

theorem wordLoop_length_le {cr : Bool} {stops : UInt8 → UInt8 → Bool} {inQuotes : UInt8}
    {nextarg line word rest : Bytes}
    (h : wordLoop cr stops inQuotes nextarg line = some (word, rest)) :
    rest.length ≤ line.length := by
  fun_induction wordLoop cr stops inQuotes nextarg line with
  | case1 => cases h
  | case2 => cases h
  | case3 inQuotes nextarg c line atCr hTurn =>
      cases h
      cases atCr
      · exact Nat.le_refl _
      · exact Nat.le_succ _
  | case4 inQuotes nextarg c line inQuotes' out hTurn ih =>
      exact Nat.le_succ_of_le (ih h)
  | case5 => cases h
  | case6 inQuotes nextarg c out d line hTurn ih =>
      exact Nat.le_succ_of_le (Nat.le_succ_of_le (ih h))

/-- A byte that does not end a command begins a word. -/
theorem wordLoop_length_lt {c : UInt8} {line word rest : Bytes} (hSpace : isSpace c = false)
    (hOther : ¬(c = ch '\n' ∨ c = ch '|' ∨ c = ch '>' ∨ c = ch ';' ∨ c = ch '&'))
    (h : wordLoop true argStops 0 [] (c :: line) = some (word, rest)) :
    rest.length < (c :: line).length := by
  have hStops : argStops 0 c = false := by
    simp only [not_or] at hOther
    simp [argStops, hSpace, hOther]
  rw [wordLoop] at h
  cases hTurn : wordTurn true argStops 0 c (line.headD 0) with
  | ends =>
      rw [hTurn] at h
      cases h
  | stop cr =>
      rw [hTurn] at h
      have hCr : cr = true := by
        unfold wordTurn at hTurn
        split at hTurn
        · cases hTurn
        split at hTurn
        · cases hTurn
          rfl
        split at hTurn
        · cases hTurn
        split at hTurn
        · cases hTurn
        · rw [hStops] at hTurn
          simp only [Bool.false_eq_true, if_false] at hTurn
          repeat' split at hTurn
          all_goals cases hTurn
      subst hCr
      cases h
      exact Nat.lt_succ_self _
  | one inQuotes out =>
      rw [hTurn] at h
      exact Nat.lt_succ_of_le (wordLoop_length_le h)
  | two out =>
      rw [hTurn] at h
      cases line with
      | nil => cases h
      | cons d line => exact Nat.lt_succ_of_le (Nat.le_succ_of_le (wordLoop_length_le h))

/-- What a turn does that goes on: it passes by text, takes a `?`, or reads a word. -/
theorem argTurn_inl {aliases : List (Bytes × Bytes)} {e : CmdExec} {line : Bytes}
    {s : CmdExec × Bytes} (h : argTurn aliases (e, line) = .inl s) :
    (s.1 = e ∧ s.2.length < line.length) ∨
      (s.1 = { e with args := [bytes "?"] } ∧ s.2.length < line.length) ∨
      ∃ word rest, wordAt line = some (word, rest) ∧ rest.length < line.length ∧
        s = takeArg aliases e word rest := by
  have hSkip : (skipSpace line).length ≤ line.length := (List.dropWhile_sublist _).length_le
  unfold wordAt
  simp only [argTurn] at h
  have hHead : ∀ c l, skipSpace line = c :: l → isSpace c = false := by
    intro c l hl
    have hNot := List.head?_dropWhile_not isSpace line
    unfold skipSpace at hl
    rw [hl] at hNot
    simpa using hNot
  generalize skipSpace line = t at h hSkip hHead ⊢
  by_cases hCont : (bytes "\\\n").isPrefixOf t
  · rw [if_pos hCont] at h
    obtain rfl := Sum.inl.inj h
    refine .inl ⟨rfl, ?_⟩
    have hTwo := (List.isPrefixOf_iff_prefix.mp hCont).length_le
    have hLength : (bytes "\\\n").length = 2 := rfl
    show (t.drop 2).length < line.length
    rw [List.length_drop]
    omega
  · rw [if_neg hCont] at h
    have hText : (if (bytes "\r\n").isPrefixOf t then t.drop 1 else t).length ≤ t.length := by
      split
      · exact (List.drop_sublist 1 t).length_le
      · exact Nat.le_refl _
    have hSpace : ∀ c l, (if (bytes "\r\n").isPrefixOf t then t.drop 1 else t) = c :: l →
        isSpace c = false := by
      intro c l hl
      split at hl
      · rename_i hCr
        obtain ⟨u, rfl⟩ := List.isPrefixOf_iff_prefix.mp hCr
        obtain ⟨rfl, -⟩ := List.cons.inj hl
        rfl
      · exact hHead c l hl
    generalize (if (bytes "\r\n").isPrefixOf t then t.drop 1 else t) = u at h hText hSpace ⊢
    cases u with
    | nil => cases h
    | cons c u =>
        dsimp only at h
        split at h
        · cases h
        split at h
        · cases h
        rename_i hOther
        split at h
        · split at h
          · cases h
          · split at h <;> cases h
        split at h
        · split at h <;> cases h
        split at h
        · split at h <;> cases h
        split at h
        · obtain rfl := Sum.inl.inj h
          refine .inr (.inl ⟨rfl, ?_⟩)
          show u.length < line.length
          rw [List.length_cons] at hText
          omega
        split at h
        · cases h
        · rename_i word rest hWord
          obtain rfl := Sum.inl.inj h
          have hLess :=
            wordLoop_length_lt (hSpace c u rfl) (by simpa [and_assoc] using hOther) hWord
          exact .inr (.inr ⟨word, rest, hWord, by omega, rfl⟩)

/-! ## Expansion -/

theorem aliasFind_mem {aliases : List (Bytes × Bytes)} {word value : Bytes}
    (h : aliasFind aliases word = some value) : value ∈ aliases.map Prod.snd := by
  induction aliases with
  | nil => cases h
  | cons a aliases ih =>
      obtain ⟨name, value'⟩ := a
      rw [aliasFind] at h
      split at h
      · exact Option.some.inj h ▸ List.mem_cons_self
      split at h
      · cases h
      · exact List.mem_cons_of_mem _ (ih h)

theorem skipCmd_of_le {len : Nat} {e : CmdExec} (h : e.aliasField ≤ len) :
    skipCmd len e = { e with cmdBuf := e.cmdBuf.drop len, aliasField := 0, usedAliases := [] } := by
  unfold skipCmd
  dsimp only
  rw [if_pos (by omega)]
  rfl

theorem skipCmd_of_gt {len : Nat} {e : CmdExec} (h : len < e.aliasField) :
    skipCmd len e = { e with cmdBuf := e.cmdBuf.drop len, aliasField := e.aliasField - len } := by
  unfold skipCmd
  dsimp only
  rw [if_neg (by omega)]

/-- The text `value` is put in place of the command up to `rest`, and `used` is what is touched. -/
structure Expanded (e : CmdExec) (rest value : Bytes) (used : List Bytes) (aliasField : Int)
    (s : CmdExec × Bytes) : Prop where
  args : s.1.args = []
  cmdBuf : s.1.cmdBuf = value ++ e.cmdBuf.drop (offset e rest)
  used : s.1.usedAliases = value :: used
  aliasField : s.1.aliasField = aliasField + value.length
  line : s.2 = s.1.cmdBuf

/-- What becomes of the first word: it is taken, or its text is put in. The touched aliases are
forgotten where the last text does not go on behind the word. -/
theorem takeArg_first (aliases : List (Bytes × Bytes)) {e : CmdExec} (hArgs : e.args = [])
    (word rest : Bytes) :
    ((takeArg aliases e word rest).1.args = [word] ∧ ∀ value, aliasFind aliases word = some value →
        value ∈ e.usedAliases ∧ offset e rest ≤ e.aliasField) ∨
      ∃ value, aliasFind aliases word = some value ∧
        ((e.aliasField < offset e rest ∧
            Expanded e rest value [] 0 (takeArg aliases e word rest)) ∨
          (e.aliasField = offset e rest ∧ value ∉ e.usedAliases ∧
            Expanded e rest value [] 0 (takeArg aliases e word rest)) ∨
          (offset e rest < e.aliasField ∧ value ∉ e.usedAliases ∧
            Expanded e rest value e.usedAliases (e.aliasField - offset e rest)
              (takeArg aliases e word rest))) := by
  unfold takeArg
  rw [hArgs]
  cases hFind : aliasFind aliases word with
  | none => exact .inl ⟨rfl, nofun⟩
  | some value =>
      simp only [List.isEmpty_nil, if_true]
      by_cases hLess : e.aliasField < offset e rest
      · rw [if_pos hLess, if_neg nofun]
        have hSkip : skipCmd (offset (freeUsedAliases e) rest) (freeUsedAliases e) = _ :=
          skipCmd_of_le (Int.natCast_nonneg _)
        rw [hSkip]
        exact .inr ⟨value, rfl, .inl ⟨hLess, hArgs, rfl, rfl, rfl, rfl⟩⟩
      · rw [if_neg hLess]
        by_cases hUsed : value ∈ e.usedAliases
        · rw [if_pos (List.contains_iff_mem.mpr hUsed)]
          refine .inl ⟨by simp [hArgs], fun _ hValue => ?_⟩
          exact Option.some.inj hValue ▸ ⟨hUsed, Int.not_lt.mp hLess⟩
        · rw [if_neg (mt List.contains_iff_mem.mp hUsed)]
          by_cases hEqual : e.aliasField = offset e rest
          · rw [skipCmd_of_le (Int.le_of_eq hEqual)]
            exact .inr ⟨value, rfl, .inr (.inl ⟨hEqual, hUsed, hArgs, rfl, rfl, rfl, rfl⟩)⟩
          · have hMore : offset e rest < e.aliasField := by omega
            rw [skipCmd_of_gt hMore]
            exact .inr ⟨value, rfl, .inr (.inr ⟨hMore, hUsed, hArgs, rfl, rfl, rfl, rfl⟩)⟩

/-- A word is read there, it is an alias that is not touched, and the text of the last alias ends
where the word does. -/
def endsWithText (aliases : List (Bytes × Bytes)) : CmdExec × Bytes → Bool
  | (e, line) => e.args.isEmpty && (wordAt line).any fun (word, rest) =>
      (aliasFind aliases word).any fun value =>
        !e.usedAliases.contains value && e.aliasField == offset e rest

/-! ## The parser returns -/

/-- With an argument there is no expansion any more. -/
theorem leaves_of_args (aliases : List (Bytes × Bytes)) {s : CmdExec × Bytes}
    (h : s.1.args ≠ []) : ∃ x, Leaves (argTurn aliases) s x := by
  have hLoop := loop_total (f := argTurn aliases) (I := fun s => s.1.args ≠ []) (Q := fun _ => True)
    (fun s => s.2.length) ?_ h (Nat.lt_succ_self _)
  · obtain ⟨x, hx, -⟩ := hLoop
    exact ⟨x, _, hx⟩
  · rintro ⟨e, line⟩ hArgs
    cases hTurn : argTurn aliases (e, line) with
    | inr x => exact .inl ⟨x, rfl, trivial⟩
    | inl s' =>
        refine .inr ⟨s', rfl, ?_⟩
        rcases argTurn_inl hTurn with ⟨hSame, hLess⟩ | ⟨hHelp, hLess⟩ | ⟨word, rest, -, hLess, rfl⟩
        · exact ⟨hSame ▸ hArgs, hLess⟩
        · exact ⟨hHelp ▸ List.cons_ne_nil _ _, hLess⟩
        · rw [takeArg_of_ne_nil hArgs]
          exact ⟨List.append_ne_nil_of_left_ne_nil hArgs _, hLess⟩

/-- How much of the buffer is not the text of an alias. -/
def source (e : CmdExec) : Nat := ((e.cmdBuf.length : Int) - e.aliasField).toNat

/-- The texts that may be put in. -/
def untouched (texts used : List Bytes) : Nat := texts.countP fun value => !used.contains value

theorem untouched_cons_le (texts used : List Bytes) (value : Bytes) :
    untouched texts (value :: used) ≤ untouched texts used := by
  apply List.countP_mono_left
  intro text _ h
  simp only [List.contains_cons, Bool.not_or, Bool.and_eq_true] at h
  exact h.2

theorem untouched_cons_lt {texts used : List Bytes} {value : Bytes} (hMem : value ∈ texts)
    (hUsed : value ∉ used) : untouched texts (value :: used) < untouched texts used := by
  induction texts with
  | nil => cases hMem
  | cons text texts ih =>
      unfold untouched at ih ⊢
      by_cases hSame : text = value
      · have hLe := untouched_cons_le texts used value
        unfold untouched at hLe
        subst hSame
        rw [List.countP_cons_of_neg (by simp), List.countP_cons_of_pos (by simpa using hUsed)]
        exact Nat.lt_succ_of_le hLe
      · have hLess := ih ((List.mem_cons.mp hMem).resolve_left (Ne.symm hSame))
        by_cases hTouched : text ∈ used
        · rw [List.countP_cons_of_neg (by simp [hTouched]),
            List.countP_cons_of_neg (by simp [hTouched])]
          exact hLess
        · rw [List.countP_cons_of_pos (by simp [hTouched, hSame]),
            List.countP_cons_of_pos (by simp [hTouched])]
          exact Nat.succ_lt_succ hLess

theorem offset_le (e : CmdExec) (line : Bytes) : offset e line ≤ e.cmdBuf.length :=
  Nat.sub_le _ _

/-- The parser comes to an end, where no alias ends with the text of another one. -/
theorem leaves_of_along {aliases : List (Bytes × Bytes)} {s : CmdExec × Bytes}
    (h : ∀ n, Along (argTurn aliases) (fun s => endsWithText aliases s = false) n s) :
    ∃ x, Leaves (argTurn aliases) s x := by
  have hWf : WellFounded
      (Prod.Lex (· < ·) (Prod.Lex (· < ·) (· < ·)) : Nat × Nat × Nat → _ → Prop) :=
    WellFounded.prod_lex Nat.lt_wfRel.wf (WellFounded.prod_lex Nat.lt_wfRel.wf Nat.lt_wfRel.wf)
  refine leaves_of_wf hWf
    (fun s => (source s.1, untouched (aliases.map Prod.snd) s.1.usedAliases, s.2.length))
    (I := fun s => ∀ n, Along (argTurn aliases) (fun s => endsWithText aliases s = false) n s) ?_ h
  rintro ⟨e, line⟩ hAlong
  by_cases hArgs : e.args = []
  · cases hTurn : argTurn aliases (e, line) with
    | inr x => exact .inl ⟨x, .inr hTurn⟩
    | inl s' =>
        have hAlong' := fun n => Along.next hTurn hAlong n
        rcases argTurn_inl hTurn with ⟨hSame, hLess⟩ | ⟨hHelp, -⟩ | ⟨word, rest, hWord, -, rfl⟩
        · refine .inr ⟨s', rfl, hAlong', ?_⟩
          rw [hSame]
          exact .right _ (.right _ hLess)
        · obtain ⟨x, hx⟩ := leaves_of_args aliases
            (hHelp ▸ List.cons_ne_nil _ _ : s'.1.args ≠ [])
          exact .inl ⟨x, hx.inl hTurn⟩
        · have hNot : endsWithText aliases (e, line) = false := (hAlong 1).1
          rcases takeArg_first aliases hArgs word rest with ⟨hTaken, -⟩ | ⟨value, hFind, hCases⟩
          · obtain ⟨x, hx⟩ := leaves_of_args aliases
              (hTaken ▸ List.cons_ne_nil word [] : (takeArg aliases e word rest).1.args ≠ [])
            exact .inl ⟨x, hx.inl hTurn⟩
          · refine .inr ⟨_, rfl, hAlong', ?_⟩
            have hOffset := offset_le e rest
            rcases hCases with ⟨hLess, hPut⟩ | ⟨hEqual, hUsed, -⟩ | ⟨hMore, hUsed, hPut⟩
            · apply Prod.Lex.left
              show source _ < source e
              unfold source
              rw [hPut.cmdBuf, hPut.aliasField, List.length_append, List.length_drop]
              omega
            · simp [endsWithText, hArgs, hWord, hFind, hUsed, hEqual] at hNot
            · have hSource : source (takeArg aliases e word rest).1 = source e := by
                unfold source
                rw [hPut.cmdBuf, hPut.aliasField, List.length_append, List.length_drop]
                omega
              rw [hSource, hPut.used]
              exact .right _ (.left _ _ (untouched_cons_lt (aliasFind_mem hFind) hUsed))
  · exact .inl (leaves_of_args aliases hArgs)

/-- Where the loop for all arguments of a command begins. -/
def begun (e : CmdExec) : CmdExec × Bytes :=
  ({ e with
      args := []
      output := none
      background := false
      condition := (startCondition e.cmdBuf).1 }, (startCondition e.cmdBuf).2)

theorem parseOneCmd_returns {aliases : List (Bytes × Bytes)} {e : CmdExec} :
    (∃ fuel r, parseOneCmd aliases fuel e = some r) ↔
      e.cmdBuf.headD 0 = 0 ∨ ∃ x, Leaves (argTurn aliases) (begun e) x := by
  unfold parseOneCmd begun
  dsimp only
  cases hBuf : e.cmdBuf with
  | nil => exact ⟨fun _ => .inl rfl, fun _ => ⟨0, _, rfl⟩⟩
  | cons c text =>
      by_cases hNul : c = 0
      · simp [hNul]
      · simp only [hNul, if_false, List.headD_cons, false_or, Option.map_eq_some_iff]
        constructor
        · rintro ⟨fuel, -, x, hLoop, -⟩
          exact ⟨x, fuel, hLoop⟩
        · rintro ⟨x, fuel, hLoop⟩
          exact ⟨fuel, _, x, hLoop, rfl⟩

/-- The parser returns, unless alias after alias ends with the text of the one before. -/
theorem parse_returns {aliases : List (Bytes × Bytes)} {e : CmdExec}
    (h : ∀ n, Along (argTurn aliases) (fun s => endsWithText aliases s = false) n (begun e)) :
    ∃ fuel r, parseOneCmd aliases fuel e = some r :=
  parseOneCmd_returns.mpr (.inr (leaves_of_along h))

/-- Two aliases for each other, with an argument behind the word. -/
theorem parse_returns_pair : ∃ fuel r, parseOneCmd
    [(bytes "a", bytes "b c"), (bytes "b", bytes "a d")] fuel
    ⟨bytes "a\n", [], none, false, .any, 0, []⟩ = some r :=
  parse_returns (Along.all (m := 8) (by decide) rfl)

/-! ## Aliases that stand for words -/

/-- Nothing in the word is special to the parser. -/
structure Word (word : Bytes) : Prop where
  notEmpty : word ≠ []
  bare : ∀ c ∈ word, Bare c
  noCr : ch '\r' ∉ word
  notSpecial : ∀ c ∈ word.head?, c ≠ ch '#' ∧ c ≠ ch '!' ∧ c ≠ ch '(' ∧ c ≠ ch '?'

/-- The word that an alias puts in place of `word`. -/
def instead (aliases : List (Bytes × Bytes)) (word : Bytes) : Bytes :=
  (aliasFind aliases word).getD word

section

variable {aliases : List (Bytes × Bytes)} {e : CmdExec} {word line : Bytes} {c : UInt8}

theorem argTurn_of_word (hWord : Word word) (hEnd : c = ch ' ' ∨ c = ch '\n') :
    argTurn aliases (e, word ++ c :: line) = .inl (takeArg aliases e word (c :: line)) := by
  have hLoop : wordLoop true argStops 0 [] (word ++ c :: line) = some (word, c :: line) := by
    have hBare := wordLoop_bare hWord.bare (fun _ : (c :: line).headD 0 = ch '\n' =>
      fun hLast => hWord.noCr (List.mem_of_getLast? hLast)) []
    rw [hBare, wordLoop_end hEnd, List.nil_append]
  cases word with
  | nil => exact absurd rfl hWord.notEmpty
  | cons x word =>
      have hStart : StartsWord e.args.isEmpty x := by
        obtain ⟨hSpace, hEscape, hNul, hOperator, -⟩ :=
          startsWord_of_bare (hWord.bare x List.mem_cons_self)
        exact ⟨hSpace, hEscape, hNul, hOperator, fun _ => hWord.notSpecial x rfl⟩
      exact argTurn_word hStart (fun h => absurd (h ▸ List.mem_cons_self) hWord.noCr) hLoop

/-- The parser is at the word, which is the text of the last alias. -/
structure At (word tail : Bytes) (s : CmdExec × Bytes) : Prop where
  args : s.1.args = []
  cmdBuf : s.1.cmdBuf = word ++ tail
  used : s.1.usedAliases = [word]
  aliasField : s.1.aliasField = word.length
  line : s.2 = s.1.cmdBuf

theorem offset_word {tail : Bytes} (hBuf : e.cmdBuf = word ++ tail) :
    offset e tail = word.length := by
  unfold offset
  rw [hBuf, List.length_append, Nat.add_sub_cancel]

theorem Expanded.at {tail value : Bytes} {s : CmdExec × Bytes} (hBuf : e.cmdBuf = word ++ tail)
    (h : Expanded e tail value [] 0 s) : At value tail s where
  args := h.args
  cmdBuf := by rw [h.cmdBuf, offset_word hBuf, hBuf, List.drop_left]
  used := h.used
  aliasField := by rw [h.aliasField, Int.zero_add]
  line := h.line

/-- At the text of an alias, the parser takes a word that stays as it is and goes on to another. -/
theorem At.turn (aliases : List (Bytes × Bytes)) {s : CmdExec × Bytes}
    (h : At word (c :: line) s) (hWord : Word word)
    (hEnd : c = ch ' ' ∨ c = ch '\n') : ∃ s', argTurn aliases s = .inl s' ∧
      ((instead aliases word = word ∧ s'.1.args = [word]) ∨
        (instead aliases word ≠ word ∧ At (instead aliases word) (c :: line) s')) := by
  obtain ⟨e, line'⟩ := s
  obtain ⟨hArgs, hBuf, hUsed, hField, hLine⟩ := h
  dsimp only at hArgs hBuf hUsed hField hLine
  subst hLine
  have hTurn : argTurn aliases (e, e.cmdBuf) = .inl (takeArg aliases e word (c :: line)) := by
    rw [hBuf]
    exact argTurn_of_word hWord hEnd
  have hOffset := offset_word hBuf
  refine ⟨_, hTurn, ?_⟩
  unfold instead
  rcases takeArg_first aliases hArgs word (c :: line) with
    ⟨hTaken, hTouched⟩ | ⟨value, hFind, hCases⟩
  · refine .inl ⟨?_, hTaken⟩
    cases hFind : aliasFind aliases word with
    | none => rfl
    | some value =>
        have hMem := (hTouched value hFind).1
        rw [hUsed] at hMem
        exact List.mem_singleton.mp hMem
  · rw [hFind]
    rcases hCases with ⟨hLess, -⟩ | ⟨-, hNot, hPut⟩ | ⟨hMore, -, -⟩
    · omega
    · refine .inr ⟨?_, hPut.at hBuf⟩
      rw [hUsed] at hNot
      exact fun hSame => hNot (List.mem_singleton.mpr hSame)
    · omega

theorem word_instead (hTable : ∀ p ∈ aliases, Word p.2) (hWord : Word word) :
    Word (instead aliases word) := by
  unfold instead
  cases hFind : aliasFind aliases word with
  | none => exact hWord
  | some value =>
      obtain ⟨p, hp, rfl⟩ := List.mem_map.mp (aliasFind_mem hFind)
      exact hTable p hp

theorem word_iterate (hTable : ∀ p ∈ aliases, Word p.2) (hWord : Word word) (n : Nat) :
    Word ((instead aliases)^[n] word) := by
  induction n generalizing word with
  | zero => exact hWord
  | succ n ih => exact ih (word_instead hTable hWord)

/-- From a word that comes to one that stays as it is, the parser goes on to the end. -/
theorem At.leaves (hTable : ∀ p ∈ aliases, Word p.2) (hEnd : c = ch ' ' ∨ c = ch '\n') (n : Nat)
    (hFixed : Function.IsFixedPt (instead aliases) ((instead aliases)^[n] word)) (hWord : Word word)
    {s : CmdExec × Bytes} (h : At word (c :: line) s) : ∃ x, Leaves (argTurn aliases) s x := by
  induction n generalizing word s with
  | zero =>
      obtain ⟨s', hTurn, ⟨-, hTaken⟩ | ⟨hMoves, -⟩⟩ := h.turn aliases hWord hEnd
      · obtain ⟨x, hx⟩ :=
          leaves_of_args aliases (hTaken ▸ List.cons_ne_nil word [] : s'.1.args ≠ [])
        exact ⟨x, hx.inl hTurn⟩
      · exact absurd hFixed hMoves
  | succ n ih =>
      obtain ⟨s', hTurn, ⟨-, hTaken⟩ | ⟨-, hAt⟩⟩ := h.turn aliases hWord hEnd
      · obtain ⟨x, hx⟩ :=
          leaves_of_args aliases (hTaken ▸ List.cons_ne_nil word [] : s'.1.args ≠ [])
        exact ⟨x, hx.inl hTurn⟩
      · obtain ⟨x, hx⟩ := ih hFixed (word_instead hTable hWord) hAt
        exact ⟨x, hx.inl hTurn⟩

/-- Where no word on the way stays as it is, the parser does not come to an end. -/
theorem At.not_leaves (hTable : ∀ p ∈ aliases, Word p.2) (hEnd : c = ch ' ' ∨ c = ch '\n')
    (hMoves : ∀ n, ¬ Function.IsFixedPt (instead aliases) ((instead aliases)^[n] word))
    (hWord : Word word) {s : CmdExec × Bytes} (h : At word (c :: line) s) (x : Exit) :
    ¬ Leaves (argTurn aliases) s x := by
  intro hx
  have hStep (s : CmdExec × Bytes) (n : Nat) (hAt : At ((instead aliases)^[n] word) (c :: line) s) :
      ∃ s', argTurn aliases s = .inl s' ∧ At ((instead aliases)^[n + 1] word) (c :: line) s' := by
    obtain ⟨s', hTurn, ⟨hStays, -⟩ | ⟨-, hNext⟩⟩ := hAt.turn aliases
      (word_iterate hTable hWord n) hEnd
    · exact absurd hStays (hMoves n)
    · rw [Function.iterate_succ_apply']
      exact ⟨s', hTurn, hNext⟩
  refine Leaves.rule (I := fun s => ∃ n, At ((instead aliases)^[n] word) (c :: line) s)
    (Q := fun _ => False) ?_ ?_ hx ⟨0, h⟩
  · rintro s s' ⟨n, hAt⟩ hTurn
    obtain ⟨s'', hTurn', hNext⟩ := hStep s n hAt
    rw [hTurn] at hTurn'
    exact ⟨n + 1, Sum.inl.inj hTurn' ▸ hNext⟩
  · rintro s x ⟨n, hAt⟩ hTurn
    obtain ⟨s', hTurn', -⟩ := hStep s n hAt
    rw [hTurn] at hTurn'
    cases hTurn'

/-- Where all aliases stand for plain words, the parser returns exactly when going from word to word
comes to one that has no alias or stands for itself. -/
theorem parse_words_iff (hTable : ∀ p ∈ aliases, Word p.2) (hWord : Word word)
    (hField : e.aliasField ≤ 0) (hEnd : c = ch ' ' ∨ c = ch '\n') :
    (∃ fuel r, parseOneCmd aliases fuel { e with cmdBuf := word ++ c :: line } = some r) ↔
      ∃ n, Function.IsFixedPt (instead aliases) ((instead aliases)^[n] word) := by
  obtain ⟨x, rest, rfl⟩ := List.exists_cons_of_ne_nil hWord.notEmpty
  obtain ⟨-, -, hNul, hOperator, -⟩ := startsWord_of_bare (hWord.bare x List.mem_cons_self)
  have hStart : startCondition (x :: rest ++ c :: line) = (.any, x :: rest ++ c :: line) :=
    startCondition_of_starts ⟨hOperator.2.1, hOperator.2.2.2.2⟩ _
  have hBegun : begun { e with cmdBuf := x :: rest ++ c :: line } =
      ({ started e with cmdBuf := x :: rest ++ c :: line }, x :: rest ++ c :: line) := by
    unfold begun
    dsimp only
    rw [hStart]
    rfl
  rw [parseOneCmd_returns, hBegun]
  have hHead : ¬ (x :: rest ++ c :: line).headD 0 = 0 := hNul
  rw [or_iff_right hHead]
  generalize hBuf : x :: rest ++ c :: line = text
  generalize hWordEq : x :: rest = word at hWord hBuf ⊢
  generalize hNow : ({ started e with cmdBuf := text } : CmdExec) = e'
  have hTurn : argTurn aliases (e', text) = .inl (takeArg aliases e' word (c :: line)) := by
    rw [← hBuf]
    exact argTurn_of_word hWord hEnd
  have hBuf' : e'.cmdBuf = word ++ c :: line := by rw [← hNow, hBuf]
  have hLess : e'.aliasField < offset e' (c :: line) := by
    rw [offset_word hBuf', ← hNow, ← hWordEq]
    show e.aliasField < ((x :: rest).length : Int)
    rw [List.length_cons]
    omega
  have hArgs : e'.args = [] := hNow ▸ rfl
  rcases takeArg_first aliases hArgs word (c :: line) with
    ⟨hTaken, hTouched⟩ | ⟨value, hFind, hCases⟩
  · have hNone : aliasFind aliases word = none := by
      cases hFind : aliasFind aliases word with
      | none => rfl
      | some value => exact absurd (hTouched value hFind).2 (Int.not_le.mpr hLess)
    obtain ⟨exit, hExit⟩ := leaves_of_args aliases
      (hTaken ▸ List.cons_ne_nil word [] : (takeArg aliases e' word (c :: line)).1.args ≠ [])
    refine iff_of_true ⟨exit, hExit.inl hTurn⟩ ⟨0, ?_⟩
    show instead aliases word = word
    rw [instead, hNone]
    rfl
  · have hPut : Expanded e' (c :: line) value [] 0 (takeArg aliases e' word (c :: line)) := by
      rcases hCases with ⟨-, hPut⟩ | ⟨hEqual, -⟩ | ⟨hMore, -⟩
      · exact hPut
      · omega
      · omega
    have hAt := hPut.at hBuf'
    have hInstead : instead aliases word = value := by
      rw [instead, hFind]
      rfl
    have hValue : Word value := hInstead ▸ word_instead hTable hWord
    constructor
    · rintro ⟨exit, hExit⟩
      by_contra hNo
      refine hAt.not_leaves hTable hEnd (fun n hFixed => hNo ⟨n + 1, ?_⟩) hValue exit
        (hExit.next hTurn)
      rwa [Function.iterate_succ_apply, hInstead]
    · rintro ⟨n, hFixed⟩
      have hLater : ∃ n, Function.IsFixedPt (instead aliases) ((instead aliases)^[n] value) := by
        cases n with
        | zero =>
            have hSame : value = word := hInstead.symm.trans hFixed
            exact ⟨0, hSame ▸ hFixed⟩
        | succ n => exact ⟨n, by rwa [Function.iterate_succ_apply, hInstead] at hFixed⟩
      obtain ⟨m, hm⟩ := hLater
      obtain ⟨exit, hExit⟩ := hAt.leaves hTable hEnd m hm hValue
      exact ⟨exit, hExit.inl hTurn⟩

/-- With two aliases for each other the parser does not return. -/
theorem parse_words_two : ¬ ∃ fuel r, parseOneCmd
    [(bytes "a", bytes "b"), (bytes "b", bytes "a")] fuel
    ⟨bytes "a\n", [], none, false, .any, 0, []⟩ = some r := by
  have hWord : Word (bytes "a") ∧ Word (bytes "b") :=
    ⟨⟨nofun, List.forall_mem_singleton.mpr ⟨by decide, by decide, by decide⟩, by decide,
        by rintro _ ⟨⟩; decide⟩,
      nofun, List.forall_mem_singleton.mpr ⟨by decide, by decide, by decide⟩, by decide,
        by rintro _ ⟨⟩; decide⟩
  have hTable : ∀ p ∈ [(bytes "a", bytes "b"), (bytes "b", bytes "a")], Word p.2 := by
    intro p hp
    rcases List.mem_pair.mp hp with rfl | rfl
    · exact hWord.2
    · exact hWord.1
  intro hReturns
  let e : CmdExec := ⟨[], [], none, false, .any, 0, []⟩
  have hReturns : ∃ fuel r, parseOneCmd [(bytes "a", bytes "b"), (bytes "b", bytes "a")] fuel
      { e with cmdBuf := bytes "a" ++ ch '\n' :: [] } = some r := hReturns
  obtain ⟨n, hFixed⟩ := (parse_words_iff hTable hWord.1 (Int.le_refl 0) (.inr rfl)).mp hReturns
  have hOrbit : ∀ n, (instead [(bytes "a", bytes "b"), (bytes "b", bytes "a")])^[n] (bytes "a") ∈
      [bytes "a", bytes "b"] := by
    intro n
    induction n with
    | zero => exact List.mem_cons_self
    | succ n ih =>
        rw [Function.iterate_succ_apply']
        rcases List.mem_pair.mp ih with h | h <;> rw [h] <;> decide
  rcases List.mem_pair.mp (hOrbit n) with h | h
  all_goals
    rw [h] at hFixed
    exact absurd hFixed (by unfold Function.IsFixedPt; decide)

end

end Lftp.Ports.Aliases
