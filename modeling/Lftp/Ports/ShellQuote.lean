import Lftp.Verified.Shell

/-!
# Words for a shell

`is_shell_special` and `shell_encode` of `misc.cc`, and `ArgV::CombineShellQuotedTo`. They put a
backslash before every special byte, also before a newline, where it is no escape but joins two
lines. An empty string becomes no word, and only `shell_encode` minds a leading tilde.

* `shell_encode_word_iff`: which strings stay one word.
* `CombineShellQuotedTo_words_iff`: which lists stay the same list of words.
-/

namespace Lftp.Ports.ShellQuote

open Lftp.Verified
open Lftp.Verified.Shell

/-! ## The code -/

/-- `is_shell_special`. -/
def is_shell_special (c : UInt8) : Bool :=
  decide (c ∈ bytes "'()!\x7b\x7d^$`*[?] \t\n\"\\|&;<>#")

/-- The loop over the bytes of a string, which both functions have. -/
def encodeLoop : Bytes → Bytes → Bytes
  | r, [] => r
  | r, c :: s =>
    encodeLoop ((if is_shell_special c then r ++ [ch '\\'] else r) ++ [c]) s

/-- `shell_encode`. -/
def shell_encode (string : Bytes) : Bytes :=
  let r :=
    if string.head? = some (ch '-') ∨ string.head? = some (ch '~') then bytes "./" else []
  encodeLoop r string

/-- The loop over the arguments. -/
def combineLoop : Bytes → List Bytes → Bytes
  | res, [] => res
  | res, [arg] => encodeLoop res arg
  | res, arg :: args => combineLoop (encodeLoop res arg ++ [ch ' ']) args

/-- `ArgV::CombineShellQuotedTo`. -/
def CombineShellQuotedTo (args : List Bytes) (start : Nat) : Bytes :=
  combineLoop [] (args.drop start)

/-! ## Escaped text -/

theorem special_shell_special : ∀ c ∈ Reader.special, is_shell_special c = true := by
  decide +kernel

theorem encodeLoop_eq (r s : Bytes) : encodeLoop r s = r ++ escape is_shell_special s := by
  induction s generalizing r with
  | nil => simp [encodeLoop, escape]
  | cons c s ih =>
      rw [encodeLoop, ih]
      unfold escape
      rw [List.flatMap_cons]
      cases is_shell_special c <;> simp

theorem combineLoop_eq (res : Bytes) (args : List Bytes) :
    combineLoop res args = res ++ unwords is_shell_special args := by
  induction args generalizing res with
  | nil => simp [combineLoop, unwords]
  | cons a args ih =>
      cases args with
      | nil => rw [combineLoop, encodeLoop_eq, unwords_singleton]
      | cons b args =>
          rw [combineLoop, ih, encodeLoop_eq, unwords_cons_cons]
          · simp
          · simp

/-- The string that is encoded, with what comes before it. -/
def lead (s : Bytes) : Bytes :=
  if s.head? = some (ch '-') ∨ s.head? = some (ch '~') then bytes "./" else []

theorem lead_cases (s : Bytes) :
    (lead s = bytes "./" ∧ ∃ c rest, s = c :: rest ∧ (c = ch '-' ∨ c = ch '~')) ∨ lead s = [] := by
  unfold lead
  split_ifs with hHead
  · refine Or.inl ⟨rfl, ?_⟩
    cases s with
    | nil => simp at hHead
    | cons c rest => exact ⟨c, rest, rfl, by simpa using hHead⟩
  · exact Or.inr rfl

theorem joined_lead (s : Bytes) : joined (lead s ++ s) = lead s ++ joined s := by
  have hLead : joined (lead s) = lead s := by
    rcases lead_cases s with ⟨hLead, -⟩ | hLead <;> rw [hLead] <;> decide
  rw [joined, List.filter_append]
  exact congrArg (· ++ joined s) hLead

theorem shell_encode_eq (s : Bytes) : shell_encode s = unwords is_shell_special [lead s ++ s] := by
  have hLead : escape is_shell_special (lead s) = lead s := by
    apply escape_eq_self
    unfold lead
    split_ifs
    · decide +kernel
    · intro c hc
      cases hc
  rw [unwords_singleton, escape_append, hLead]
  exact encodeLoop_eq _ _

theorem head?_lead (s : Bytes) : (lead s ++ s).head? ≠ some (ch '~') := by
  unfold lead
  split_ifs with hHead
  · show some (ch '.') ≠ some (ch '~')
    decide
  · rw [List.nil_append]
    exact fun hTilde => hHead (Or.inr hTilde)

/-! ## Which words are kept -/

/-- `shell_encode` makes one word of a string that is not empty and has one line. -/
theorem shell_encode_word_iff (s : Bytes) :
    (fields (shell_encode s) = some [s] ∨ fields (shell_encode s) = some [bytes "./" ++ s]) ↔
      s ≠ [] ∧ ch '\n' ∉ s := by
  rw [shell_encode_eq]
  constructor
  · intro h
    have hSome : ∃ t, (t = s ∨ t = bytes "./" ++ s) ∧
        fields (unwords is_shell_special [lead s ++ s]) = some [t] := by
      rcases h with h | h
      · exact ⟨_, Or.inl rfl, h⟩
      · exact ⟨_, Or.inr rfl, h⟩
    obtain ⟨t, hText, hFields⟩ := hSome
    obtain ⟨hOut, -⟩ := fields_unwords special_shell_special hFields
    obtain ⟨hNil, hJoined⟩ : lead s ++ joined s ≠ [] ∧ t = lead s ++ joined s := by
      have hMem : t ∈ ([lead s ++ s].map joined).filter (· ≠ []) := hOut ▸ List.mem_singleton_self t
      rw [List.mem_filter, List.map_singleton, List.mem_singleton, joined_lead] at hMem
      exact ⟨by rw [← hMem.1]; simpa using hMem.2, hMem.1⟩
    have hSame : s ≠ [] ∧ joined s = s := by
      have hLength : (joined s).length ≤ s.length := List.length_filter_le ..
      rcases lead_cases s with ⟨hLead, c, rest, hs, hc⟩ | hLead <;> rw [hLead] at hNil hJoined
      · refine ⟨by simp [hs], ?_⟩
        rcases hText with rfl | rfl
        · -- the string would begin with a dot
          rw [hs] at hJoined
          obtain ⟨rfl, -⟩ := List.cons.inj hJoined
          exact absurd hc (by decide)
        · exact (List.append_cancel_left hJoined).symm
      · rw [List.nil_append] at hNil hJoined
        rcases hText with rfl | rfl
        · exact ⟨fun hEmpty => hNil (by rw [hEmpty]; rfl), hJoined.symm⟩
        · have hBoth := congrArg List.length hJoined
          rw [List.length_append] at hBoth
          have hTwo : (bytes "./").length = 2 := by decide
          omega
    refine ⟨hSame.1, ?_⟩
    rw [← hSame.2]
    simp [joined]
  · rintro ⟨hNil, hLine⟩
    have hPlain : Plain is_shell_special (lead s ++ s) := by
      refine ⟨by simp [hNil], ?_, fun _ => head?_lead s⟩
      rw [List.mem_append, not_or]
      refine ⟨?_, hLine⟩
      unfold lead
      split_ifs <;> decide
    have hFields : fields (unwords is_shell_special [lead s ++ s]) = some [lead s ++ s] :=
      fields_unwords_of special_shell_special (by simpa using hPlain)
    rw [hFields]
    unfold lead
    split_ifs
    · exact Or.inr rfl
    · exact Or.inl rfl

/-- `CombineShellQuotedTo` keeps every argument that `shell_encode` keeps, but for a tilde. -/
theorem CombineShellQuotedTo_words_iff (args : List Bytes) (start : Nat) :
    fields (CombineShellQuotedTo args start) = some (args.drop start) ↔
      ∀ a ∈ args.drop start, a ≠ [] ∧ ch '\n' ∉ a ∧ a.head? ≠ some (ch '~') := by
  rw [CombineShellQuotedTo, combineLoop_eq, List.nil_append,
    fields_unwords_iff special_shell_special]
  refine forall₂_congr fun a _ => ⟨fun h => ?_, fun ⟨hNil, hLine, hTilde⟩ => ?_⟩
  · exact ⟨h.ne_nil, h.one_line, h.no_tilde (by decide)⟩
  · exact ⟨hNil, hLine, fun _ => hTilde⟩

/-- `shell_encode` gives a word, `s` or `./` and `s`. -/
def OneWord (s : Bytes) : Prop :=
  fields (shell_encode s) = some [s] ∨ fields (shell_encode s) = some [bytes "./" ++ s]

/-- `CombineShellQuotedTo` gives the list of words. -/
def SameWords (args : List Bytes) (start : Nat) : Prop :=
  fields (CombineShellQuotedTo args start) = some (args.drop start)

/-- What both functions are safe for. -/
theorem words_kept_iff (s : Bytes) (args : List Bytes) (start : Nat) :
    (OneWord s ↔ s ≠ [] ∧ ch '\n' ∉ s) ∧
      (SameWords args start ↔
        ∀ a ∈ args.drop start, a ≠ [] ∧ ch '\n' ∉ a ∧ a.head? ≠ some (ch '~')) :=
  ⟨shell_encode_word_iff s, CombineShellQuotedTo_words_iff args start⟩

/-- Two lines become one, and a tilde is expanded. -/
theorem not_words_kept : ¬ OneWord (bytes "a\nb") ∧ ¬ SameWords [bytes "cat", bytes "~x"] 0 := by
  unfold OneWord SameWords
  decide

end Lftp.Ports.ShellQuote
