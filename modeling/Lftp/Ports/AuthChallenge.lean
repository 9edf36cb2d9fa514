import Lftp.Ports.PwdReply
import Lftp.Verified.Assoc

/-!
# Authentication challenges

`HttpAuth::Challenge` reads the value of a `WWW-Authenticate` header: a scheme, and parameters
whose values are tokens or quoted strings.

* `Written` is a challenge as it may be written, `Written.meaning` what it says.
* `loop_named`: the loop needs a `=` wherever it looks for a parameter.
* `extractQuotedValue_append`: what `append_quoted_value` writes is read back.
* `challenge_right_iff`: then, and only then, a challenge is read safely, and it is read right.
-/

namespace Lftp.Ports.AuthChallenge

open Lftp.Verified
open Lftp.Ports.Url (isAlpha)
open Lftp.Ports.PwdReply (toAsciiLower quote)

/-! ## Values -/

/-- Where a token ends. -/
def separators : Bytes := bytes "()<>@,;:\\\"/[]?=\x7b\x7d \t"

/-- The value in quotes, and what is behind it. -/
def quotedValue : Bytes → Bytes × Bytes
  | [] => ([], [])
  | c :: s =>
    if c = quote then ([], s)
    else if c = ch '\\' then
      match s with
      | [] => ([c], [])
      | d :: s => (d :: (quotedValue s).1, (quotedValue s).2)
    else (c :: (quotedValue s).1, (quotedValue s).2)

/-- `HttpHeader::extract_quoted_value` -/
def extractQuotedValue (value : Bytes) : Bytes × Bytes :=
  if value.head? = some quote then quotedValue value.tail
  else (value.takeWhile (· ∉ separators), value.dropWhile (· ∉ separators))

/-! ## Challenges -/

/-- `HttpAuth::scheme_t` -/
inductive Scheme
  | none
  | basic
  | digest
  deriving DecidableEq

/-- `HttpAuth::Challenge` -/
structure Challenge where
  schemeCode : Scheme
  scheme : Bytes
  param : List (Bytes × Bytes)
  deriving DecidableEq

/-- `c_toupper` -/
def toAsciiUpper (c : UInt8) : UInt8 := if 97 ≤ c.toNat ∧ c.toNat ≤ 122 then c - 32 else c

/-- `xstring::c_ucfirst` -/
def ucFirst : Bool → Bytes → Bytes
  | _, [] => []
  | first, c :: s =>
    if isAlpha c then (if first then toAsciiUpper c else toAsciiLower c) :: ucFirst false s
    else c :: ucFirst true s

def schemeCode (scheme : Bytes) : Scheme :=
  if scheme = bytes "Basic" then .basic else if scheme = bytes "Digest" then .digest else .none

/-- Blanks and commas. -/
def isPad (c : UInt8) : Bool := c = ch ' ' || c = ch ','

/-- A turn of the loop, with what is left and the parameters so far. Without a `=` the value is
looked for behind the null pointer. -/
def turn (w : Bytes × List (Bytes × Bytes)) :
    (Bytes × List (Bytes × Bytes)) ⊕ Option (List (Bytes × Bytes)) :=
  if w.1 = [] then .inr (some w.2)
  else
    match w.1.idxOf? (ch '=') with
    | none => .inr none
    | some eq =>
      let (value, rest) := extractQuotedValue (w.1.drop (eq + 1))
      .inl (rest.dropWhile isPad, Assoc.add ((w.1.take eq).map toAsciiLower) value w.2)

/-- `HttpAuth::Challenge::Challenge` -/
def challenge (chal : Bytes) : Option Challenge :=
  match chal.idxOf? (ch ' ') with
  | none => some ⟨.none, [], []⟩
  | some space =>
    if space = 0 then some ⟨.none, [], []⟩
    else
      let scheme := ucFirst true (chal.take space)
      (loop turn (chal.length + 1) (chal.drop (space + 1), [])).join.map fun param =>
        ⟨schemeCode scheme, scheme, param⟩

/-! ## How a challenge is written -/

/-- A token, and more than that: separators and NUL are all that it must not have. -/
def IsToken (s : Bytes) : Prop := s ≠ [] ∧ ∀ c ∈ s, c ∉ separators

/-- A value; a character of a quoted string may have a backslash. -/
inductive Value
  | token (s : Bytes)
  | quoted (q : List (Bool × UInt8))

namespace Value

def WellFormed : Value → Prop
  | token s => IsToken s
  | quoted q => ∀ e ∈ q, e.1 = false → e.2 ≠ quote ∧ e.2 ≠ ch '\\'

/-- The characters in quotes. -/
def inside (q : List (Bool × UInt8)) : Bytes :=
  q.flatMap fun e => if e.1 then [ch '\\', e.2] else [e.2]

def text : Value → Bytes
  | token s => s
  | quoted q => quote :: (inside q ++ [quote])

def meaning : Value → Bytes
  | token s => s
  | quoted q => q.map Prod.snd

end Value

structure Param where
  name : Bytes
  value : Value
  isToken : IsToken name
  wellFormed : value.WellFormed

namespace Param

def text (p : Param) : Bytes := p.name ++ ch '=' :: p.value.text

/-- It is stored under its name in lower case. -/
def store (d : List (Bytes × Bytes)) (p : Param) : List (Bytes × Bytes) :=
  Assoc.add (p.name.map toAsciiLower) p.value.meaning d

end Param

/-- A parameter with the commas and blanks before it. -/
structure Next where
  pad : Bytes
  param : Param
  isPad : ∀ c ∈ pad, isPad c = true
  comma : ch ',' ∈ pad

def Next.text (n : Next) : Bytes := n.pad ++ n.param.text

/-- A challenge as it is written. -/
structure Written where
  scheme : Bytes
  first : Param
  more : List Next
  tail : Bytes
  isToken : IsToken scheme
  isPad : ∀ c ∈ tail, isPad c = true

namespace Written

def text (w : Written) : Bytes :=
  w.scheme ++ ch ' ' :: (w.first.text ++ (w.more.flatMap Next.text ++ w.tail))

/-- What it says: the parameters, of which the last one of a name counts. -/
def meaning (w : Written) : Challenge :=
  ⟨schemeCode (ucFirst true w.scheme), ucFirst true w.scheme,
    (w.first :: w.more.map Next.param).foldl Param.store []⟩

end Written

/-! ## The condition -/

/-- What is behind a value and the blanks and commas that follow it. -/
def behindValue (s : Bytes) : Bytes := (extractQuotedValue s).2.dropWhile isPad

/-- There is a name with a `=`, and again behind each value, up to the end. -/
inductive Named : Bytes → Prop
  | done : Named []
  | next {name value : Bytes} (hName : ch '=' ∉ name) (h : Named (behindValue value)) :
      Named (name ++ ch '=' :: value)

/-- The string has no scheme, or parameters with names behind it. -/
def Fits (chal : Bytes) : Prop :=
  ∀ scheme params, scheme ≠ [] → ch ' ' ∉ scheme → chal = scheme ++ ch ' ' :: params → Named params

/-- The string is read, and read right if it is written as a challenge is. -/
def Right (chal : Bytes) : Prop :=
  (∃ c, challenge chal = some c) ∧ ∀ w : Written, w.text = chal → challenge chal = some w.meaning

/-! ## Reading a value -/

section
variable {rest : Bytes} {d : List (Bytes × Bytes)}

theorem quotedValue_inside {q : List (Bool × UInt8)} (h : (Value.quoted q).WellFormed) (rest : Bytes) :
    quotedValue (Value.inside q ++ quote :: rest) = (q.map Prod.snd, rest) := by
  induction q with
  | nil =>
      show quotedValue (quote :: rest) = ([], rest)
      rw [quotedValue.eq_def]
      exact if_pos rfl
  | cons e q ih =>
      obtain ⟨escaped, c⟩ := e
      have hRest := ih fun e he => h e (List.mem_cons_of_mem _ he)
      cases escaped with
      | true =>
          have hText : Value.inside ((true, c) :: q) ++ quote :: rest
              = ch '\\' :: c :: (Value.inside q ++ quote :: rest) := rfl
          have hNot : ch '\\' ≠ quote := by decide
          rw [hText, quotedValue.eq_def]
          dsimp only
          rw [if_neg hNot, if_pos rfl, hRest]
          rfl
      | false =>
          obtain ⟨hQuote, hSlash⟩ := h (false, c) List.mem_cons_self rfl
          have hText : Value.inside ((false, c) :: q) ++ quote :: rest
              = c :: (Value.inside q ++ quote :: rest) := rfl
          rw [hText, quotedValue.eq_def]
          dsimp only
          rw [if_neg hQuote, if_neg hSlash, hRest]
          rfl

/-- A quoted string is read up to its closing quote. -/
theorem extractQuotedValue_quoted {q : List (Bool × UInt8)} (h : (Value.quoted q).WellFormed)
    (rest : Bytes) : extractQuotedValue ((Value.quoted q).text ++ rest) = (q.map Prod.snd, rest) := by
  have hText : (Value.quoted q).text ++ rest = quote :: (Value.inside q ++ quote :: rest) := by
    simp [Value.text]
  rw [hText, extractQuotedValue, if_pos (by rfl), List.tail_cons, quotedValue_inside h]

/-- A value is read up to a separator or the end. -/
theorem extractQuotedValue_text {v : Value} (h : v.WellFormed) (hRest : ∀ c ∈ rest.head?, c ∈ separators) :
    extractQuotedValue (v.text ++ rest) = (v.meaning, rest) := by
  cases v with
  | quoted q => exact extractQuotedValue_quoted h rest
  | token s =>
      obtain ⟨c, s, rfl⟩ := List.exists_cons_of_ne_nil h.1
      have hQuote : quote ∈ separators := by decide
      have hFirst : ¬ ((c :: s) ++ rest).head? = some quote := by
        intro hEq
        rw [Option.some.inj hEq] at h
        exact h.2 quote List.mem_cons_self hQuote
      have hAll : ∀ x ∈ c :: s, decide (x ∉ separators) = true := fun x hx => decide_eq_true (h.2 x hx)
      have hStop : rest.takeWhile (· ∉ separators) = [] ∧ rest.dropWhile (· ∉ separators) = rest := by
        cases rest with
        | nil => exact ⟨rfl, rfl⟩
        | cons x rest =>
            have hx : ¬ decide (x ∉ separators) = true := by simpa using hRest x rfl
            exact ⟨List.takeWhile_cons_of_neg hx, List.dropWhile_cons_of_neg hx⟩
      show extractQuotedValue (c :: s ++ rest) = (c :: s, rest)
      rw [extractQuotedValue, if_neg hFirst, List.takeWhile_append_of_pos hAll,
        List.dropWhile_append_of_pos hAll, hStop.1, hStop.2, List.append_nil]

/-! ## Writing a value -/

/-- `HttpHeader::append_quoted_value`, of a C string. -/
def appendQuotedValue (s v : Bytes) : Bytes :=
  s ++ quote :: ((cstr v).flatMap fun c => if c = ch '\\' ∨ c = quote then [ch '\\', c] else [c])
    ++ [quote]

/-- The characters as they are written: with a backslash where one is needed. -/
def marked (v : Bytes) : List (Bool × UInt8) := v.map fun c => (decide (c = ch '\\' ∨ c = quote), c)

theorem appendQuotedValue_eq {v : Bytes} (h : 0 ∉ v) (s : Bytes) :
    appendQuotedValue s v = s ++ (Value.quoted (marked v)).text := by
  have hInside : Value.inside (marked v)
      = v.flatMap fun c => if c = ch '\\' ∨ c = quote then [ch '\\', c] else [c] := by
    unfold Value.inside marked
    rw [List.flatMap_map]
    simp only [decide_eq_true_eq]
  rw [appendQuotedValue, cstr_of_notMem h, ← hInside, List.append_assoc]
  rfl

theorem marked_wellFormed (v : Bytes) : (Value.quoted (marked v)).WellFormed := by
  intro e he hPlain
  obtain ⟨c, -, rfl⟩ := List.mem_map.mp he
  obtain ⟨hSlash, hQuote⟩ := not_or.mp (of_decide_eq_false hPlain)
  exact ⟨hQuote, hSlash⟩

theorem mem_inside {x : UInt8} {q : List (Bool × UInt8)} (h : x ∈ Value.inside q) :
    x = ch '\\' ∨ x ∈ q.map Prod.snd := by
  obtain ⟨e, he, hx⟩ := List.mem_flatMap.mp h
  have hOne : x = ch '\\' ∨ x = e.2 := by
    split at hx
    · simpa using hx
    · exact .inr (List.mem_singleton.mp hx)
  rcases hOne with hSlash | rfl
  · exact .inl hSlash
  · exact .inr (List.mem_map_of_mem he)

/-- A string comes back out of its quotes, and what follows them is left. -/
theorem extractQuotedValue_append (s v after : Bytes) (h : 0 ∉ v) :
    extractQuotedValue (cstr ((appendQuotedValue s v ++ after).drop s.length)) = (v, cstr after) := by
  have hMeaning : (marked v).map Prod.snd = v := by
    rw [marked, List.map_map]
    exact List.map_id v
  have hNul : 0 ∉ (Value.quoted (marked v)).text := by
    intro hMem
    rcases List.mem_cons.mp hMem with hZero | hMem
    · exact absurd hZero (by decide)
    · rcases List.mem_append.mp hMem with hIn | hEnd
      · rcases mem_inside hIn with hZero | hIn
        · exact absurd hZero (by decide)
        · exact h (hMeaning ▸ hIn)
      · exact absurd (List.mem_singleton.mp hEnd) (by decide)
  rw [appendQuotedValue_eq h, List.append_assoc, List.drop_left, cstr_append_of_notMem hNul,
    extractQuotedValue_quoted (marked_wellFormed v), hMeaning]

theorem extractQuotedValue_append_mixed :
    0 ∉ bytes "a\\\"" ∧ extractQuotedValue (cstr ((appendQuotedValue (bytes "x=") (bytes "a\\\"")
      ++ bytes ", b").drop 2)) = (bytes "a\\\"", bytes ", b") :=
  ⟨by decide, extractQuotedValue_append (bytes "x=") (bytes "a\\\"") (bytes ", b") (by decide)⟩

/-! ## The loop -/

theorem turn_eq {name value : Bytes} (hName : ch '=' ∉ name) (d : List (Bytes × Bytes)) :
    turn (name ++ ch '=' :: value, d)
      = .inl (behindValue value, Assoc.add (name.map toAsciiLower) (extractQuotedValue value).1 d) := by
  have hFind : (name ++ ch '=' :: value).idxOf? (ch '=') = some name.length := idxOf?_line hName value
  have hTake : (name ++ ch '=' :: value).take name.length = name := List.take_left
  have hDrop : (name ++ ch '=' :: value).drop (name.length + 1) = value := by
    rw [← List.drop_drop, List.drop_left]
    rfl
  unfold turn
  rw [if_neg (by simp)]
  dsimp only
  rw [hFind]
  dsimp only
  rw [hTake, hDrop]
  rfl

/-- A turn on a parameter. -/
theorem turn_param (p : Param) (hRest : ∀ c ∈ rest.head?, c ∈ separators) (d : List (Bytes × Bytes)) :
    turn (p.text ++ rest, d) = .inl (rest.dropWhile isPad, p.store d) := by
  have hName : ch '=' ∉ p.name := fun h => p.isToken.2 _ h (by decide)
  have hText : p.text ++ rest = p.name ++ ch '=' :: (p.value.text ++ rest) := by simp [Param.text]
  have hValue := extractQuotedValue_text p.wellFormed hRest
  rw [hText, turn_eq hName, behindValue, hValue]
  rfl

theorem isPad_separator {c : UInt8} (h : isPad c = true) : c ∈ separators := by
  unfold isPad at h
  rw [Bool.or_eq_true, decide_eq_true_eq, decide_eq_true_eq] at h
  rcases h with rfl | rfl
  · decide
  · decide

/-- Blanks and commas are skipped, no parameter begins with one. -/
theorem dropWhile_pad {pad : Bytes} (hPad : ∀ c ∈ pad, isPad c = true) (p : Param) (rest : Bytes) :
    (pad ++ (p.text ++ rest)).dropWhile isPad = p.text ++ rest := by
  obtain ⟨c, s, hName⟩ := List.exists_cons_of_ne_nil p.isToken.1
  have hFirst : ¬ isPad c = true := fun h =>
    p.isToken.2 c (hName ▸ List.mem_cons_self) (isPad_separator h)
  rw [List.dropWhile_append_of_pos hPad, Param.text, hName]
  exact List.dropWhile_cons_of_neg hFirst

theorem loop_params (p : Param) (more : List Next) {tail : Bytes} (hTail : ∀ c ∈ tail, isPad c = true)
    (d : List (Bytes × Bytes)) {n : Nat} (hn : more.length + 1 < n) :
    loop turn n (p.text ++ (more.flatMap Next.text ++ tail), d)
      = some (some ((p :: more.map Next.param).foldl Param.store d)) := by
  induction more generalizing p d n with
  | nil =>
      obtain ⟨n, rfl⟩ := Nat.exists_eq_add_of_le' (show 2 ≤ n from hn)
      have hRest : ∀ c ∈ ([].flatMap Next.text ++ tail).head?, c ∈ separators := fun c hc =>
        isPad_separator (hTail c (List.mem_of_mem_head? hc))
      have hEnd : ([].flatMap Next.text ++ tail).dropWhile isPad = [] :=
        List.dropWhile_eq_nil_iff.mpr hTail
      have hLeave : turn ([], p.store d) = .inr (some (p.store d)) := if_pos rfl
      rw [loop_inl (turn_param p hRest d), hEnd]
      exact loop_inr hLeave _
  | cons q more ih =>
      obtain ⟨n, rfl⟩ := Nat.exists_eq_add_of_le' (show 1 ≤ n by omega)
      have hText : (q :: more).flatMap Next.text ++ tail
          = q.pad ++ (q.param.text ++ (more.flatMap Next.text ++ tail)) := by
        simp [Next.text]
      have hRest : ∀ c ∈ ((q :: more).flatMap Next.text ++ tail).head?, c ∈ separators := by
        obtain ⟨x, pad, hPad⟩ := List.exists_cons_of_ne_nil (List.ne_nil_of_mem q.comma)
        rw [hText, hPad]
        rintro c hc
        obtain rfl := Option.some.inj hc
        exact isPad_separator (q.isPad x (hPad ▸ List.mem_cons_self))
      rw [loop_inl (turn_param p hRest d), hText, dropWhile_pad q.isPad, ih _ _ (Nat.lt_of_succ_lt_succ hn)]
      rfl

theorem length_quotedValue (s : Bytes) : (quotedValue s).2.length ≤ s.length := by
  fun_induction quotedValue s with
  | case1 => exact Nat.zero_le _
  | case2 s => exact Nat.le_succ _
  | case3 => exact Nat.zero_le _
  | case4 d s _ ih =>
      dsimp only [List.length_cons]
      omega
  | case5 c s _ _ ih =>
      dsimp only [List.length_cons]
      omega

theorem length_behindValue (s : Bytes) : (behindValue s).length ≤ s.length := by
  have hExtract : (extractQuotedValue s).2.length ≤ s.length := by
    unfold extractQuotedValue
    split
    · exact (length_quotedValue s.tail).trans (by rw [List.length_tail]; exact Nat.sub_le _ _)
    · exact List.length_dropWhile_le _ _
  exact (List.length_dropWhile_le _ _).trans hExtract

/-- The loop leaves with the parameters exactly when each has a name. -/
theorem loop_named {n : Nat} {s : Bytes} (hn : s.length < n) (d : List (Bytes × Bytes)) :
    ∃ r, loop turn n (s, d) = some r ∧ (r.isSome = true ↔ Named s) := by
  induction n generalizing s d with
  | zero => exact absurd hn (Nat.not_lt_zero _)
  | succ n ih =>
      by_cases hNil : s = []
      · subst hNil
        have hLeave : turn ([], d) = .inr (some d) := if_pos rfl
        exact ⟨some d, loop_inr hLeave n, iff_of_true rfl .done⟩
      cases hFind : s.idxOf? (ch '=') with
      | none =>
          have hLeave : turn (s, d) = .inr none := by
            unfold turn
            rw [if_neg hNil]
            dsimp only
            rw [hFind]
          refine ⟨none, loop_inr hLeave n, iff_of_false nofun fun hNamed => ?_⟩
          have hNot := List.idxOf?_eq_none_iff.mp hFind
          cases hNamed with
          | done => exact hNil rfl
          | next hName h => exact hNot (List.mem_append_right _ List.mem_cons_self)
      | some eq =>
          obtain ⟨name, value, rfl, hName, -⟩ := exists_line hFind
          have hShorter : (behindValue value).length < n := by
            have hLength := length_behindValue value
            rw [List.length_append, List.length_cons] at hn
            omega
          obtain ⟨r, hLoop, hr⟩ := ih hShorter
            (Assoc.add (name.map toAsciiLower) (extractQuotedValue value).1 d)
          refine ⟨r, (loop_inl (turn_eq hName d) n).trans hLoop, hr.trans ⟨.next hName, ?_⟩⟩
          intro hNamed
          generalize hText : name ++ ch '=' :: value = text at hNamed
          cases hNamed with
          | done => exact absurd hText (by simp)
          | next hName' h =>
              obtain ⟨-, rfl⟩ := line_inj hName hName' hText
              exact h

end

/-! ## Challenges -/

theorem challenge_eq {scheme params : Bytes} (hNe : scheme ≠ []) (hScheme : ch ' ' ∉ scheme) :
    challenge (scheme ++ ch ' ' :: params)
      = (loop turn ((scheme ++ ch ' ' :: params).length + 1) (params, [])).join.map fun param =>
          ⟨schemeCode (ucFirst true scheme), ucFirst true scheme, param⟩ := by
  have hFind : (scheme ++ ch ' ' :: params).idxOf? (ch ' ') = some scheme.length :=
    idxOf?_line hScheme params
  have hTake : (scheme ++ ch ' ' :: params).take scheme.length = scheme := List.take_left
  have hDrop : (scheme ++ ch ' ' :: params).drop (scheme.length + 1) = params := by
    rw [← List.drop_drop, List.drop_left]
    rfl
  have hPos : scheme.length ≠ 0 := Nat.ne_of_gt (List.length_pos_of_ne_nil hNe)
  unfold challenge
  rw [hFind]
  dsimp only
  rw [if_neg hPos, hTake, hDrop]

/-- A challenge is read without a fault exactly when its parameters have names. -/
theorem challenge_isSome_iff (chal : Bytes) : (∃ c, challenge chal = some c) ↔ Fits chal := by
  have hLoop {scheme params : Bytes} (hNe : scheme ≠ []) (hScheme : ch ' ' ∉ scheme) :
      (∃ c, challenge (scheme ++ ch ' ' :: params) = some c) ↔ Named params := by
    obtain ⟨r, hr, hNamed⟩ := loop_named (s := params)
      (n := (scheme ++ ch ' ' :: params).length + 1) (by simp; omega) []
    rw [challenge_eq hNe hScheme, hr, ← hNamed]
    cases r <;> simp
  constructor
  · rintro hSome scheme params hNe hScheme rfl
    exact (hLoop hNe hScheme).mp hSome
  · intro hFits
    cases hFind : chal.idxOf? (ch ' ') with
    | none => exact ⟨⟨.none, [], []⟩, by rw [challenge, hFind]⟩
    | some space =>
        obtain ⟨scheme, params, rfl, hScheme, rfl⟩ := exists_line hFind
        by_cases hNil : scheme = []
        · subst hNil
          exact ⟨⟨.none, [], []⟩, by rw [challenge, hFind]; rfl⟩
        · exact (hLoop hNil hScheme).mpr (hFits scheme params hNil hScheme rfl)

/-- What is written is read. -/
theorem challenge_text (w : Written) : challenge w.text = some w.meaning := by
  have hScheme : ch ' ' ∉ w.scheme := fun h => w.isToken.2 _ h (by decide)
  have hMore (more : List Next) : more.length ≤ (more.flatMap Next.text).length := by
    induction more with
    | nil => exact Nat.zero_le _
    | cons q more ih =>
        have hPos := List.length_pos_of_mem q.comma
        rw [List.flatMap_cons, List.length_append, Next.text, List.length_append, List.length_cons]
        omega
  have hFuel : w.more.length + 1 < w.text.length + 1 := by
    have hLength := hMore w.more
    simp only [Written.text, List.length_append, List.length_cons]
    omega
  rw [Written.text, challenge_eq w.isToken.1 hScheme, ← Written.text,
    loop_params w.first w.more w.isPad [] hFuel]
  rfl

/-- A challenge is read safely exactly when there is a name wherever one is looked for, and what
is written as it should be is read as it is. -/
theorem challenge_right_iff (chal : Bytes) : Right chal ↔ Fits chal := by
  refine ⟨fun h => (challenge_isSome_iff chal).mp h.1, fun h => ⟨(challenge_isSome_iff chal).mpr h, ?_⟩⟩
  rintro w rfl
  exact challenge_text w

/-- A parameter without a value. -/
theorem not_challenge_right : ¬ ∀ chal : Bytes, Right chal := by
  intro h
  obtain ⟨c, hc⟩ := (h (bytes "Negotiate YII")).1
  have hNone : challenge (bytes "Negotiate YII") = none := by decide
  rw [hNone] at hc
  cases hc

end Lftp.Ports.AuthChallenge
