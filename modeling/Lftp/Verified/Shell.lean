import Lftp.Verified.Decimal
import Mathlib.Data.List.Basic

/-!
# How a shell reads a line

The tokens that a POSIX shell recognizes in a text, after the line continuations, and the fields
that its words become. A byte of a word is `plain` when it stands for itself and `active` when it
belongs to an expansion, of a parameter, a command, a pattern or a tilde. An operator is given byte
by byte, and a text with `$(` or `${` is not read at all.

* `foldl_escape` says how a text is read whose special bytes all follow a backslash.
* `fields_unwords` and `fields_unwords_of` say which fields come out of words put together.
-/

namespace Lftp.Verified.Shell

inductive Piece
  | plain (c : UInt8)
  | active (c : UInt8)
  deriving DecidableEq

abbrev Word := List Piece

inductive Token
  | word (w : Word)
  | operator (c : UInt8)
  | newline
  deriving DecidableEq

inductive Mode
  | bare
  | escape
  | single
  | double
  | doubleEscape
  | backquote
  | backquoteEscape
  | comment
  | beyond
  deriving DecidableEq

structure Reader where
  mode : Mode
  word : Option Word
  tokens : List Token

namespace Reader

def start : Reader := ⟨.bare, none, []⟩

def put (r : Reader) (p : Piece) : Reader := { r with word := some (r.word.getD [] ++ [p]) }

/-- Quoting starts, and with it a word. -/
def quote (r : Reader) (mode : Mode) : Reader := { r with mode, word := some (r.word.getD []) }

/-- The end of a word. -/
def cut (r : Reader) : Reader :=
  { r with word := none, tokens := r.tokens ++ (r.word.map Token.word).toList }

def push (r : Reader) (t : Token) : Reader := { r with tokens := r.tokens ++ [t] }

/-- The word ends in a `$` that isn't quoted. -/
def afterDollar (r : Reader) : Bool := (r.word.getD []).getLast? = some (.active (ch '$'))

/-- The bytes that have a meaning outside of quotes, besides a tilde. -/
def special : Bytes := bytes "\\'\"` \t\n|&;<>()\x7b#$*?["

/-- A byte outside of quotes. -/
def bare (r : Reader) (c : UInt8) : Reader :=
  if c = ch '\\' then { r with mode := .escape }
  else if c = ch '\'' then r.quote .single
  else if c = ch '"' then r.quote .double
  else if c = ch '`' then { r.put (.active c) with mode := .backquote }
  else if c ∈ bytes "(\x7b" ∧ r.afterDollar then { r with mode := .beyond }
  else if c ∈ bytes " \t" then r.cut
  else if c = ch '\n' then r.cut.push .newline
  else if c ∈ bytes "|&;<>()" then r.cut.push (.operator c)
  else if c = ch '#' ∧ r.word = none then { r with mode := .comment }
  else if c ∈ bytes "$*?[" ∨ (c = ch '~' ∧ r.word = none) then r.put (.active c)
  else r.put (.plain c)

/-- A byte in double quotes. -/
def double (r : Reader) (c : UInt8) : Reader :=
  if c = ch '"' then { r with mode := .bare }
  else if c = ch '\\' then { r with mode := .doubleEscape }
  else if c = ch '`' ∨ (c ∈ bytes "(\x7b" ∧ r.afterDollar) then { r with mode := .beyond }
  else if c = ch '$' then r.put (.active c)
  else r.put (.plain c)

def step (r : Reader) (c : UInt8) : Reader :=
  match r.mode with
  | .bare => r.bare c
  | .escape =>
    if c = ch '\n' then { r with mode := .bare } else { r.put (.plain c) with mode := .bare }
  | .single => if c = ch '\'' then { r with mode := .bare } else r.put (.plain c)
  | .double => r.double c
  | .doubleEscape =>
    if c = ch '\n' then { r with mode := .double }
    else if c ∈ bytes "$`\"\\" then { r.put (.plain c) with mode := .double }
    else { (r.put (.plain (ch '\\'))).put (.plain c) with mode := .double }
  | .backquote =>
    if c = ch '`' then { r.put (.active c) with mode := .bare }
    else if c = ch '\\' then { r.put (.active c) with mode := .backquoteEscape }
    else r.put (.active c)
  | .backquoteEscape => { r.put (.active c) with mode := .backquote }
  | .comment => if c = ch '\n' then { r.push .newline with mode := .bare } else r
  | .beyond => r

/-- The tokens at the end of the text, if no quoting is open. -/
def finish (r : Reader) : Option (List Token) :=
  match r.mode with
  | .bare => some r.cut.tokens
  | .comment => some r.tokens
  | .escape => some (r.put (.plain (ch '\\'))).cut.tokens
  | _ => none

end Reader

open Lftp.Verified.Shell.Reader

/-- The tokens of a text. -/
def read (text : Bytes) : Option (List Token) := (text.foldl step start).finish

/-- A word without expansions, after quote removal. -/
def Piece.literal : Piece → Option UInt8
  | .plain c => some c
  | .active _ => none

/-- The field of a word without expansions. -/
def Token.field : Token → Option Bytes
  | .word w => w.mapM Piece.literal
  | _ => none

/-- The fields of a text that is nothing but words, none of which is expanded. -/
def fields (text : Bytes) : Option (List Bytes) := (read text).bind fun ts => ts.mapM Token.field

/-! ## Escaped text -/

/-- A backslash before the bytes that `q` selects. -/
def escape (q : UInt8 → Bool) (s : Bytes) : Bytes :=
  s.flatMap fun c => if q c then [ch '\\', c] else [c]

/-- What remains when the continued lines are joined. -/
def joined (s : Bytes) : Bytes := s.filter (· ≠ ch '\n')

/-- The word that is read from escaped text. -/
def written (q : UInt8 → Bool) : Option Word → Bytes → Option Word
  | w, [] => w
  | w, c :: s =>
    if c = ch '\n' then written q w s
    else if c = ch '~' ∧ w = none ∧ q c = false then written q (some [.active c]) s
    else written q (some (w.getD [] ++ [.plain c])) s

variable {q : UInt8 → Bool}

theorem escape_append (s t : Bytes) : escape q (s ++ t) = escape q s ++ escape q t :=
  List.flatMap_append

theorem escape_eq_self {s : Bytes} (h : ∀ c ∈ s, q c = false) : escape q s = s := by
  induction s with
  | nil => rfl
  | cons c s ih =>
      have hHead := h c List.mem_cons_self
      have hTail := ih fun x hx => h x (List.mem_cons_of_mem c hx)
      unfold escape at hTail ⊢
      rw [List.flatMap_cons, hTail, hHead]
      rfl

/-- A byte without a meaning. -/
theorem step_inert {w : Option Word} {ts : List Token} {c : UInt8} (h : c ∉ special)
    (hTilde : ¬ (c = ch '~' ∧ w = none)) :
    step ⟨.bare, w, ts⟩ c = ⟨.bare, some (w.getD [] ++ [.plain c]), ts⟩ := by
  have hne : ∀ d ∈ special, c ≠ d := fun d hd hEq => h (hEq ▸ hd)
  have hNot : ∀ l : Bytes, (l.all fun d => d ∈ special) = true → c ∉ l :=
    fun l hl hc => h (forall_of_all hl c hc)
  show Reader.bare _ c = _
  rw [Reader.bare, if_neg (hne _ (by decide)), if_neg (hne _ (by decide)),
    if_neg (hne _ (by decide)), if_neg (hne _ (by decide)),
    if_neg (fun hc => hNot (bytes "(\x7b") (by decide) hc.1),
    if_neg (hNot _ (by decide)), if_neg (hne _ (by decide)),
    if_neg (hNot _ (by decide)),
    if_neg (fun hc => hne (ch '#') (by decide) hc.1), if_neg]
  · rfl
  · rintro (hc | hc)
    · exact hNot _ (by decide) hc
    · exact hTilde hc

theorem step_tilde {ts : List Token} :
    step ⟨.bare, none, ts⟩ (ch '~') = ⟨.bare, some [.active (ch '~')], ts⟩ := rfl

theorem step_escape (w : Option Word) (ts : List Token) (c : UInt8) :
    step (step ⟨.bare, w, ts⟩ (ch '\\')) c
      = ⟨.bare, if c = ch '\n' then w else some (w.getD [] ++ [.plain c]), ts⟩ := by
  by_cases hc : c = ch '\n'
  · subst hc
    rfl
  · have hFirst : step ⟨.bare, w, ts⟩ (ch '\\') = ⟨.escape, w, ts⟩ := rfl
    rw [hFirst, if_neg hc]
    show (if c = ch '\n' then _ else _) = _
    rw [if_neg hc]
    rfl

/-- Escaped text adds to the word. -/
theorem foldl_escape (hq : ∀ c ∈ special, q c = true) (s : Bytes) (w : Option Word)
    (ts : List Token) :
    (escape q s).foldl step ⟨.bare, w, ts⟩ = ⟨.bare, written q w s, ts⟩ := by
  induction s generalizing w with
  | nil => rfl
  | cons c s ih =>
      have hCons : escape q (c :: s) = (if q c then [ch '\\', c] else [c]) ++ escape q s := rfl
      rw [hCons, List.foldl_append, written]
      cases hc : q c with
      | true =>
          rw [if_pos rfl]
          show (escape q s).foldl step (step (step ⟨.bare, w, ts⟩ (ch '\\')) c) = _
          rw [step_escape, ih]
          by_cases hLine : c = ch '\n'
          · rw [if_pos hLine, if_pos hLine]
          · rw [if_neg hLine, if_neg hLine, if_neg (by simp)]
      | false =>
          have hInert : c ∉ special := fun hMem => by
            rw [hq c hMem] at hc
            cases hc
          have hLine : c ≠ ch '\n' := fun hEq => hInert (hEq ▸ by decide)
          rw [if_neg Bool.false_ne_true, if_neg hLine]
          show (escape q s).foldl step (step ⟨.bare, w, ts⟩ c) = _
          by_cases hTilde : c = ch '~' ∧ w = none
          · obtain ⟨rfl, rfl⟩ := hTilde
            rw [step_tilde, ih, if_pos ⟨rfl, rfl, rfl⟩]
          · rw [step_inert hInert hTilde, ih, if_neg (fun hAll => hTilde ⟨hAll.1, hAll.2.1⟩)]

/-- Only continued lines leave no word. -/
theorem written_eq_none {w : Option Word} {s : Bytes} (h : written q w s = none) :
    w = none ∧ joined s = [] := by
  induction s generalizing w with
  | nil => exact ⟨h, rfl⟩
  | cons c s ih =>
      rw [written] at h
      split_ifs at h with hLine hTilde
      · have hTail := ih h
        refine ⟨hTail.1, ?_⟩
        rw [joined, List.filter_cons_of_neg (by simpa using hLine)]
        exact hTail.2
      · cases (ih h).1
      · cases (ih h).1

theorem written_of_joined {w : Option Word} {s : Bytes} (h : joined s = []) :
    written q w s = w := by
  induction s with
  | nil => rfl
  | cons c s ih =>
      have hLine : c = ch '\n' := by
        have hAll := List.filter_eq_nil_iff.mp h c List.mem_cons_self
        simpa using hAll
      rw [joined, List.filter_cons_of_neg (by simpa using hLine)] at h
      rw [written, if_pos hLine, ih h]

/-- A word without expansions has all the bytes but the ends of lines. -/
theorem literal_of_written {w : Option Word} {s : Bytes} {v : Word} {t : Bytes}
    (h : written q w s = some v) (ht : v.mapM Piece.literal = some t) :
    ∃ t₀, (w.getD []).mapM Piece.literal = some t₀ ∧ t = t₀ ++ joined s := by
  induction s generalizing w with
  | nil =>
      rw [written] at h
      rw [h]
      exact ⟨t, ht, (List.append_nil t).symm⟩
  | cons c s ih =>
      rw [written] at h
      split_ifs at h with hLine hTilde
      · obtain ⟨t₀, hw, hText⟩ := ih h
        refine ⟨t₀, hw, ?_⟩
        rw [hText, joined, joined, List.filter_cons_of_neg (by simpa using hLine)]
      · obtain ⟨t₀, hw, -⟩ := ih h
        cases hw
      · obtain ⟨t₀, hw, hText⟩ := ih h
        rw [Option.getD_some, List.mapM_append] at hw
        cases hHead : (w.getD []).mapM Piece.literal with
        | none =>
            rw [hHead] at hw
            cases hw
        | some t₁ =>
            rw [hHead] at hw
            obtain rfl : t₁ ++ [c] = t₀ := by simpa [Piece.literal] using hw
            refine ⟨t₁, rfl, ?_⟩
            rw [hText, joined, joined, List.filter_cons_of_pos (by simpa using hLine)]
            simp

/-- A text that escaping keeps. -/
structure Plain (q : UInt8 → Bool) (s : Bytes) : Prop where
  ne_nil : s ≠ []
  one_line : ch '\n' ∉ s
  no_tilde : q (ch '~') = false → s.head? ≠ some (ch '~')

theorem written_some {w : Word} {s : Bytes} (h : ch '\n' ∉ s) :
    written q (some w) s = some (w ++ s.map .plain) := by
  induction s generalizing w with
  | nil => simp [written]
  | cons c s ih =>
      rw [List.mem_cons, not_or] at h
      rw [written, if_neg (Ne.symm h.1), if_neg (by simp), ih h.2]
      simp

theorem Plain.written {s : Bytes} (h : Plain q s) : written q none s = some (s.map .plain) := by
  cases s with
  | nil => exact absurd rfl h.ne_nil
  | cons c s =>
      have hLine := h.one_line
      rw [List.mem_cons, not_or] at hLine
      have hTilde : ¬ (c = ch '~' ∧ (none : Option Word) = none ∧ q c = false) := by
        rintro ⟨rfl, -, hq⟩
        exact h.no_tilde hq rfl
      rw [Shell.written, if_neg (Ne.symm hLine.1), if_neg hTilde, written_some hLine.2]
      rfl

/-! ## Words put together -/

/-- Escaped words with a blank between them. -/
def unwords (q : UInt8 → Bool) (args : List Bytes) : Bytes :=
  List.intercalate [ch ' '] (args.map (escape q))

theorem unwords_singleton (a : Bytes) : unwords q [a] = escape q a := by simp [unwords]

theorem unwords_cons_cons (a b : Bytes) (args : List Bytes) :
    unwords q (a :: b :: args) = escape q a ++ ch ' ' :: unwords q (b :: args) := by
  simp [unwords, List.intercalate]

/-- The token of an escaped word. -/
def tokenOf (q : UInt8 → Bool) (s : Bytes) : List Token :=
  ((written q none s).map Token.word).toList

theorem finish_unwords (hq : ∀ c ∈ special, q c = true) (args : List Bytes) (ts : List Token) :
    ((unwords q args).foldl step ⟨.bare, none, ts⟩).finish
      = some (ts ++ args.flatMap (tokenOf q)) := by
  induction args generalizing ts with
  | nil => simp [unwords, Reader.finish, Reader.cut]
  | cons a args ih =>
      cases args with
      | nil =>
          rw [unwords_singleton, foldl_escape hq]
          simp [Reader.finish, Reader.cut, tokenOf]
      | cons b args =>
          have hBlank : ∀ w, step ⟨.bare, w, ts⟩ (ch ' ')
              = ⟨.bare, none, ts ++ (w.map Token.word).toList⟩ := fun w => rfl
          rw [unwords_cons_cons, List.foldl_append, foldl_escape hq, List.foldl_cons, hBlank, ih,
            List.append_assoc]
          rfl

theorem read_unwords (hq : ∀ c ∈ special, q c = true) (args : List Bytes) :
    read (unwords q args) = some (args.flatMap (tokenOf q)) :=
  finish_unwords hq args []

/-- A tilde that isn't escaped is expanded. -/
theorem literal_of_tilde (hTilde : q (ch '~') = false) {s : Bytes} {v : Word}
    (h : written q none (ch '~' :: s) = some v) : v.mapM Piece.literal = none := by
  rw [written, if_neg (by decide), if_pos ⟨rfl, rfl, hTilde⟩] at h
  cases hText : v.mapM Piece.literal with
  | none => rfl
  | some t =>
      obtain ⟨t₀, hHead, -⟩ := literal_of_written h hText
      cases hHead

/-- What is known of the fields, if nothing is expanded. -/
theorem fields_unwords (hq : ∀ c ∈ special, q c = true) {args l : List Bytes}
    (h : fields (unwords q args) = some l) :
    l = (args.map joined).filter (· ≠ []) ∧
      ∀ a ∈ args, q (ch '~') = false → a.head? ≠ some (ch '~') := by
  rw [fields, read_unwords hq, Option.bind_some] at h
  induction args generalizing l with
  | nil => exact ⟨(Option.some.inj h).symm, fun a ha => nomatch ha⟩
  | cons a args ih =>
      rw [List.flatMap_cons, List.mapM_append] at h
      cases hRest : (args.flatMap (tokenOf q)).mapM Token.field with
      | none =>
          rw [hRest] at h
          cases hHead : (tokenOf q a).mapM Token.field <;> rw [hHead] at h <;> cases h
      | some rest =>
          obtain ⟨hTail, hTildes⟩ := ih hRest
          rw [hRest] at h
          rw [List.map_cons, List.forall_mem_cons]
          cases hWord : written q none a with
          | none =>
              have hNil := (written_eq_none hWord).2
              have hToken : tokenOf q a = [] := by rw [tokenOf, hWord]; rfl
              rw [hToken] at h
              rw [List.filter_cons_of_neg (by simpa using hNil), ← hTail]
              refine ⟨by simpa using h.symm, ?_, hTildes⟩
              rintro - hHead
              obtain ⟨s, rfl⟩ := List.head?_eq_some_iff.mp hHead
              rw [joined, List.filter_cons_of_pos (by decide)] at hNil
              cases hNil
          | some v =>
              have hToken : tokenOf q a = [.word v] := by rw [tokenOf, hWord]; rfl
              rw [hToken] at h
              cases hText : v.mapM Piece.literal with
              | none => simp [Token.field, hText] at h
              | some t =>
                  obtain ⟨t₀, hEmpty, hJoined⟩ := literal_of_written hWord hText
                  obtain rfl : [] = t₀ := by simpa using hEmpty
                  rw [List.nil_append] at hJoined
                  have hne : joined a ≠ [] := by
                    intro hNil
                    rw [written_of_joined hNil] at hWord
                    cases hWord
                  rw [List.filter_cons_of_pos (by simpa using hne), ← hTail, ← hJoined]
                  refine ⟨by simpa [Token.field, hText] using h.symm, ?_, hTildes⟩
                  intro hTilde hHead
                  obtain ⟨s, rfl⟩ := List.head?_eq_some_iff.mp hHead
                  rw [literal_of_tilde hTilde hWord] at hText
                  cases hText

theorem fields_unwords_of (hq : ∀ c ∈ special, q c = true) {args : List Bytes}
    (h : ∀ a ∈ args, Plain q a) : fields (unwords q args) = some args := by
  rw [fields, read_unwords hq, Option.bind_some]
  induction args with
  | nil => rfl
  | cons a args ih =>
      rw [List.forall_mem_cons] at h
      have hToken : tokenOf q a = [.word (a.map .plain)] := by rw [tokenOf, h.1.written]; rfl
      have hLiteral : (a.map Piece.plain).mapM Piece.literal = some a := by
        clear ih h hToken
        induction a with
        | nil => rfl
        | cons c a ih => simp [Piece.literal, ih]
      rw [List.flatMap_cons, List.mapM_append, ih h.2, hToken]
      simp [Token.field, hLiteral]

/-- Words that are all kept. -/
theorem fields_unwords_iff (hq : ∀ c ∈ special, q c = true) (args : List Bytes) :
    fields (unwords q args) = some args ↔ ∀ a ∈ args, Plain q a := by
  refine ⟨fun h => ?_, fields_unwords_of hq⟩
  obtain ⟨hArgs, hTildes⟩ := fields_unwords hq h
  have hFilter : (args.map joined).filter (· ≠ []) = args.map joined := by
    apply List.filter_sublist.eq_of_length
    rw [← hArgs, List.length_map]
  have hSame : args.map joined = args.map id := by rw [← hFilter, ← hArgs, List.map_id]
  have hJoined := List.map_inj_left.mp hSame
  have hNotNil := List.filter_eq_self.mp hFilter
  intro a ha
  refine ⟨?_, ?_, hTildes a ha⟩
  · have hNil := hNotNil _ (List.mem_map_of_mem ha)
    rw [hJoined a ha] at hNil
    simpa using hNil
  · rw [← show joined a = a from hJoined a ha]
    simp [joined]

end Lftp.Verified.Shell
