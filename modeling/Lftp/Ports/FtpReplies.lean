import Lftp.Ports.FtpMoves

/-!
# Taking the replies of an FTP server

`Reply` is a reply as the protocol has it, and `wire` what a server sends for a list
of them. `Position` says how far a session has come in the lines of a list, with the
code of the multi-line reply that it is in, and `Position.next` what the next line does
to it.
-/

namespace Lftp.Ports.Ftp

open Lftp.Verified Lftp.Ports.ParseCmd

/-! ## Replies -/

/-- The three digits of a code. -/
def digits (code : Nat) : Bytes :=
  [digitByte (code / 100), digitByte (code / 10 % 10), digitByte (code % 10)]

/-- The texts of a reply of one line or of several. -/
inductive ReplyText
  | single (text : Bytes)
  | multi (first : Bytes) (middle : List Bytes) (last : Bytes)

/-- All texts without a code: they end up within one line each. -/
def ReplyText.texts : ReplyText → List Bytes
  | .single text => [text]
  | .multi first middle last => first :: (middle ++ [last])

/-- The lines between the first and the last. -/
def ReplyText.middle : ReplyText → List Bytes
  | .single _ => []
  | .multi _ middle _ => middle

/-- A reply. A line in the middle may be anything but a last line. -/
structure Reply where
  code : Nat
  text : ReplyText
  code_ge : 100 ≤ code
  code_lt : code < 600
  newline : ∀ l ∈ text.texts, ch '\n' ∉ l
  not_last : ∀ l ∈ text.middle, ¬ digits code ++ [ch ' '] <+: l

def firstLine (code : Nat) (text : Bytes) : Bytes := digits code ++ ch '-' :: text

def lastLine (code : Nat) (text : Bytes) : Bytes := digits code ++ ch ' ' :: text

def Reply.lines (r : Reply) : List Bytes :=
  match r.text with
  | .single text => [lastLine r.code text]
  | .multi first middle last => firstLine r.code first :: (middle ++ [lastLine r.code last])

/-- Lines as they are sent. -/
def wireLines (ls : List Bytes) : Bytes := ls.flatMap (· ++ crlf)

/-- Replies as they are sent. -/
def wire (replies : List Reply) : Bytes := wireLines (replies.flatMap Reply.lines)

/-- A small number is a code. -/
theorem digits_lt {code : Nat} (h : code < 600) :
    code / 100 < 10 ∧ code / 10 % 10 < 10 ∧ code % 10 < 10 := by
  omega

/-- A digit is none of the bytes that matter in a line. -/
theorem digitByte_ne {n : Nat} (h : n < 10) {c : UInt8} (hc : isDigit c = false) :
    digitByte n ≠ c := by
  rintro rfl
  rw [isDigit_digitByte h] at hc
  cases hc

theorem notMem_digits {code : Nat} (h : code < 600) {c : UInt8} (hc : isDigit c = false) :
    c ∉ digits code := by
  obtain ⟨h₁, h₂, h₃⟩ := digits_lt h
  simp [digits, Ne.symm (digitByte_ne h₁ hc), Ne.symm (digitByte_ne h₂ hc),
    Ne.symm (digitByte_ne h₃ hc)]

theorem replyCode_digits {code : Nat} (h : code < 600) (text : Bytes) :
    Session.replyCode (digits code ++ text) = code := by
  obtain ⟨h₁, h₂, h₃⟩ := digits_lt h
  show (if isDigit (digitByte (code / 100)) = true ∧ isDigit (digitByte (code / 10 % 10)) = true
    ∧ isDigit (digitByte (code % 10)) = true then horner 0 (digits code) else 0) = code
  rw [if_pos ⟨isDigit_digitByte h₁, isDigit_digitByte h₂, isDigit_digitByte h₃⟩]
  simp only [digits, horner_cons, horner_nil, digitVal_digitByte h₁, digitVal_digitByte h₂,
    digitVal_digitByte h₃]
  omega

theorem digitByte_digitVal {c : UInt8} (h : isDigit c = true) : digitByte (digitVal c) = c := by
  simp only [isDigit, Bool.and_eq_true, decide_eq_true_eq] at h
  apply UInt8.toNat.inj
  rw [toNat_digitByte (by unfold digitVal; omega), digitVal]
  omega

theorem digitVal_lt {c : UInt8} (h : isDigit c = true) : digitVal c < 10 := by
  simp only [isDigit, Bool.and_eq_true, decide_eq_true_eq] at h
  unfold digitVal
  omega

/-- A line that `ReceiveResp` takes for the end of a multi-line reply starts with its
code and a space. -/
theorem prefix_of_replyCode {s : Bytes} {code : Nat} (hCode : Session.replyCode s = code)
    (hPos : code ≠ 0) (hSpace : s[3]? = some (ch ' ')) : digits code ++ [ch ' '] <+: s := by
  rcases s with _ | ⟨a, _ | ⟨b, _ | ⟨c, _ | ⟨d, s⟩⟩⟩⟩
  · cases hSpace
  · cases hSpace
  · cases hSpace
  · cases hSpace
  · cases hSpace
    refine ⟨s, ?_⟩
    change (if isDigit a = true ∧ isDigit b = true ∧ isDigit c = true then horner 0 [a, b, c]
      else 0) = code at hCode
    rcases Decidable.em (isDigit a = true ∧ isDigit b = true ∧ isDigit c = true) with hAll | hNot
    · rw [if_pos hAll] at hCode
      obtain ⟨ha, hb, hc⟩ := hAll
      have hValue : code = digitVal a * 100 + digitVal b * 10 + digitVal c := by
        rw [← hCode]
        simp only [horner_cons, horner_nil]
        omega
      have hLess := digitVal_lt hb
      have hLess' := digitVal_lt hc
      have h₁ : code / 100 = digitVal a := by omega
      have h₂ : code / 10 % 10 = digitVal b := by omega
      have h₃ : code % 10 = digitVal c := by omega
      rw [digits, h₁, h₂, h₃, digitByte_digitVal ha, digitByte_digitVal hb, digitByte_digitVal hc]
      rfl
    · rw [if_neg hNot] at hCode
      exact absurd hCode.symm hPos

/-! ## Cleaned lines -/

/-- What cleaning keeps as it is. -/
theorem cleanLine_cons {c : UInt8} (h : c ≠ 0) (before : Option UInt8) (s : Bytes) :
    Session.cleanLine before (c :: s) = c :: Session.cleanLine (some c) s := by
  rw [Session.cleanLine, if_pos h]

theorem cleanLine_digits {code : Nat} (h : code < 600) {c : UInt8} (hc : c ≠ 0)
    (before : Option UInt8) (text : Bytes) :
    Session.cleanLine before (digits code ++ c :: text)
      = digits code ++ c :: Session.cleanLine (some c) text := by
  obtain ⟨h₁, h₂, h₃⟩ := digits_lt h
  simp only [digits, List.cons_append, List.nil_append]
  rw [cleanLine_cons (digitByte_ne h₁ rfl), cleanLine_cons (digitByte_ne h₂ rfl),
    cleanLine_cons (digitByte_ne h₃ rfl), cleanLine_cons hc]

/-- Cleaning does not make up a beginning of digits and spaces. -/
theorem prefix_of_cleanLine {p s : Bytes} {before : Option UInt8}
    (hp : ∀ c ∈ p, c ≠ ch '!' ∧ c ≠ ch '\r') (hBefore : before ≠ some (ch '\r'))
    (h : p <+: Session.cleanLine before s) : p <+: s := by
  induction s generalizing p before with
  | nil => exact h
  | cons c s ih =>
      cases p with
      | nil => exact List.nil_prefix
      | cons x p =>
          have hx := hp x List.mem_cons_self
          unfold Session.cleanLine at h
          split at h
          · obtain ⟨rfl, hTail⟩ := List.cons_prefix_cons.mp h
            have hRest := ih (fun c hc => hp c (List.mem_cons_of_mem x hc))
              (fun hEq => hx.2 (Option.some.inj hEq)) hTail
            exact List.cons_prefix_cons.mpr ⟨rfl, hRest⟩
          · exact absurd (List.cons_prefix_cons.mp h).1 hx.1

/-- Only the empty line is empty when it is cleaned. -/
theorem cleanLine_eq_nil {s : Bytes} (h : Session.cleanLine none s = []) : s = [] := by
  cases s with
  | nil => rfl
  | cons c s =>
      unfold Session.cleanLine at h
      split at h
      · cases h
      · rw [if_pos nofun] at h
        cases h

theorem finishes_lastLine (r : Reply) {multi : Nat} (h : multi = 0 ∨ multi = r.code)
    (text : Bytes) :
    finishes true multi (Session.cleanLine none (lastLine r.code text)) = r.code := by
  rw [lastLine, cleanLine_digits r.code_lt (by decide)]
  unfold finishes
  dsimp only
  rw [replyCode_digits r.code_lt]
  have hAt : ∀ t : Bytes, (digits r.code ++ ch ' ' :: t)[3]? = some (ch ' ') := fun _ => rfl
  rw [hAt, if_neg (by rintro ⟨hNe, hNe', -⟩; exact h.elim hNe hNe'), if_neg (by decide),
    if_neg (fun h => h.2 rfl)]

theorem firstLine_opens (r : Reply) (text : Bytes) :
    finishes true 0 (Session.cleanLine none (firstLine r.code text)) = 0
      ∧ multilineAfter 0 (Session.cleanLine none (firstLine r.code text)) = r.code := by
  rw [firstLine, cleanLine_digits r.code_lt (by decide)]
  have hAt : ∀ t : Bytes, (digits r.code ++ ch '-' :: t)[3]? = some (ch '-') := fun _ => rfl
  unfold finishes multilineAfter
  dsimp only
  rw [hAt, replyCode_digits r.code_lt, if_neg (fun h => h.1 rfl), if_pos rfl, if_pos ⟨rfl, rfl⟩]
  exact ⟨rfl, rfl⟩

theorem middle_stays (r : Reply) {line : Bytes} (h : line ∈ r.text.middle) :
    finishes true r.code (Session.cleanLine none line) = 0
      ∧ multilineAfter r.code (Session.cleanLine none line) = r.code := by
  have hPos : r.code ≠ 0 := by
    have := r.code_ge
    omega
  refine ⟨?_, if_neg fun h => hPos h.1⟩
  unfold finishes
  dsimp only
  split_ifs with hOther hDash hSpace
  · rfl
  · rfl
  · rfl
  · rcases Decidable.em (r.code = Session.replyCode (Session.cleanLine none line)) with hEq | hNe
    · refine absurd (prefix_of_cleanLine ?_ (by decide)
        (prefix_of_replyCode hEq.symm hPos ?_)) (r.not_last line h)
      · intro c hc
        rcases List.mem_append.mp hc with hDigit | hBlank
        · exact ⟨fun hEq => notMem_digits r.code_lt rfl (hEq ▸ hDigit),
            fun hEq => notMem_digits r.code_lt rfl (hEq ▸ hDigit)⟩
        · rw [List.mem_singleton.mp hBlank]
          decide
      · exact Decidable.by_contra fun h => hSpace ⟨hPos, h⟩
    · exact absurd ⟨hPos, hNe, rfl⟩ hOther

/-! ## How far the replies are taken -/

/-- `k` replies are taken and the lines of `done` are read: what is next is a reply, or
a line of the reply that is being read. -/
inductive Position (replies : List Reply) (k multi : Nat) (done todo : List Bytes) : Prop
  | between (hk : k ≤ replies.length) (hMulti : multi = 0)
      (hDone : done = (replies.take k).flatMap Reply.lines)
      (hTodo : todo = (replies.drop k).flatMap Reply.lines)
  | within {r : Reply} {rest : List Reply} {first last : Bytes} {before after : List Bytes}
      (hDrop : replies.drop k = r :: rest) (hText : r.text = .multi first (before ++ after) last)
      (hMulti : multi = r.code)
      (hDone : done = (replies.take k).flatMap Reply.lines ++ firstLine r.code first :: before)
      (hTodo : todo = after ++ lastLine r.code last :: rest.flatMap Reply.lines)

variable {replies : List Reply} {k multi : Nat} {done todo : List Bytes}

/-- One reply more. -/
theorem drop_succ {r : Reply} {rest : List Reply} (h : replies.drop k = r :: rest) :
    k < replies.length ∧ replies[k]? = some r ∧ replies.drop (k + 1) = rest
      ∧ replies.take (k + 1) = replies.take k ++ [r] := by
  have hk : k < replies.length := by
    refine Nat.lt_of_not_le fun hLe => ?_
    rw [List.drop_eq_nil_of_le hLe] at h
    cases h
  have hAt : replies[k]? = some r := by
    rw [← List.head?_drop, h]
    rfl
  refine ⟨hk, hAt, ?_, ?_⟩
  · rw [← List.drop_drop, h]
    rfl
  · rw [List.take_add_one, hAt]
    rfl

/-- The lines of a position are those of the replies. -/
theorem Position.lines (h : Position replies k multi done todo) :
    replies.flatMap Reply.lines = done ++ todo := by
  cases h with
  | between hk hMulti hDone hTodo =>
      rw [hDone, hTodo, ← List.flatMap_append, List.take_append_drop]
  | @within r rest first last before after hDrop hText hMulti hDone hTodo =>
      have hSplit : replies = replies.take k ++ r :: rest := by
        rw [← hDrop, List.take_append_drop]
      rw [hDone, hTodo]
      conv_lhs => rw [hSplit]
      simp only [List.flatMap_append, List.flatMap_cons, Reply.lines, hText, List.append_assoc,
        List.cons_append, List.nil_append]

/-- What reading a line does to the position. -/
theorem Position.next {line : Bytes} (h : Position replies k multi done (line :: todo)) :
    (finishes true multi (Session.cleanLine none line) = 0
      ∧ Position replies k (multilineAfter multi (Session.cleanLine none line))
          (done ++ [line]) todo)
    ∨ ∃ r, replies[k]? = some r ∧ finishes true multi (Session.cleanLine none line) = r.code
      ∧ Position replies (k + 1) 0 (done ++ [line]) todo := by
  cases h with
  | between hk hMulti hDone hTodo =>
      cases hDrop : replies.drop k with
      | nil =>
          rw [hDrop] at hTodo
          cases hTodo
      | cons r rest =>
          obtain ⟨hLess, hAt, hRest, hTake⟩ := drop_succ hDrop
          rw [hDrop, List.flatMap_cons, Reply.lines] at hTodo
          subst hMulti
          cases hText : r.text with
          | single text =>
              rw [hText] at hTodo
              obtain ⟨rfl, rfl⟩ := List.cons.inj hTodo
              refine .inr ⟨r, hAt, finishes_lastLine r (.inl rfl) text, ?_⟩
              refine .between hLess rfl ?_ (by rw [hRest]; rfl)
              rw [hTake, hDone, List.flatMap_append, List.flatMap_singleton, Reply.lines, hText]
          | multi first middle last =>
              rw [hText] at hTodo
              obtain ⟨rfl, rfl⟩ := List.cons.inj hTodo
              obtain ⟨hQuiet, hOpen⟩ := firstLine_opens r first
              have hSplit : r.text = .multi first ([] ++ middle) last := hText
              refine .inl ⟨hQuiet, .within hDrop hSplit hOpen (by rw [hDone]) ?_⟩
              exact List.append_assoc middle _ _
  | @within r rest first last before after hDrop hText hMulti hDone hTodo =>
      obtain ⟨hLess, hAt, hRest, hTake⟩ := drop_succ hDrop
      subst hMulti
      cases after with
      | nil =>
          obtain ⟨rfl, rfl⟩ := List.cons.inj hTodo
          refine .inr ⟨r, hAt, finishes_lastLine r (.inr rfl) last, ?_⟩
          refine .between hLess rfl ?_ (by rw [hRest])
          rw [hTake, hDone, List.flatMap_append, List.flatMap_singleton, Reply.lines, hText,
            List.append_nil, List.append_assoc, List.cons_append]
      | cons l after =>
          obtain ⟨rfl, rfl⟩ := List.cons.inj hTodo
          have hMem : line ∈ r.text.middle := by
            rw [hText]
            exact List.mem_append_right _ List.mem_cons_self
          obtain ⟨hQuiet, hStay⟩ := middle_stays r hMem
          have hSplit : r.text = .multi first ((before ++ [line]) ++ after) last := by
            rw [hText, List.append_assoc]
            rfl
          refine .inl ⟨hQuiet, .within hDrop hSplit hStay ?_ rfl⟩
          rw [hDone, List.append_assoc, List.cons_append]

theorem notMem_firstLine {r : Reply} {text : Bytes} (h : text ∈ r.text.texts) :
    ch '\n' ∉ firstLine r.code text := by
  unfold firstLine
  simp only [List.mem_append, List.mem_cons, not_or]
  exact ⟨notMem_digits r.code_lt rfl, by decide, r.newline text h⟩

theorem notMem_lastLine {r : Reply} {text : Bytes} (h : text ∈ r.text.texts) :
    ch '\n' ∉ lastLine r.code text := by
  unfold lastLine
  simp only [List.mem_append, List.mem_cons, not_or]
  exact ⟨notMem_digits r.code_lt rfl, by decide, r.newline text h⟩

/-- No line holds a newline. -/
theorem notMem_lines {r : Reply} {line : Bytes} (h : line ∈ r.lines) : ch '\n' ∉ line := by
  unfold Reply.lines at h
  cases hText : r.text with
  | single text =>
      rw [hText] at h
      rw [List.mem_singleton.mp h]
      exact notMem_lastLine (by rw [hText]; exact List.mem_cons_self)
  | multi first middle last =>
      rw [hText] at h
      have hTexts : r.text.texts = first :: (middle ++ [last]) := by
        rw [hText]
        rfl
      rcases List.mem_cons.mp h with rfl | hMem
      · exact notMem_firstLine (by rw [hTexts]; exact List.mem_cons_self)
      · rcases List.mem_append.mp hMem with hMiddle | hLast
        · exact r.newline line (by rw [hTexts]; simp [hMiddle])
        · rw [List.mem_singleton.mp hLast]
          exact notMem_lastLine (by rw [hTexts]; simp)

theorem wireLines_append (ls ls' : List Bytes) :
    wireLines (ls ++ ls') = wireLines ls ++ wireLines ls' :=
  List.flatMap_append

theorem wireLines_cons (l : Bytes) (ls : List Bytes) :
    wireLines (l :: ls) = (l ++ [ch '\r']) ++ ch '\n' :: wireLines ls := by
  rw [wireLines, List.flatMap_cons]
  simp [wireLines, crlf]

/-- There are as many newlines as lines. -/
theorem count_wireLines {ls : List Bytes} (h : ∀ l ∈ ls, ch '\n' ∉ l) :
    (wireLines ls).count (ch '\n') = ls.length := by
  induction ls with
  | nil => rfl
  | cons l ls ih =>
      have hLine := List.count_eq_zero.mpr (h l List.mem_cons_self)
      rw [wireLines_cons, List.count_append, List.count_append, List.count_cons_self, hLine,
        ih fun l' hl' => h l' (List.mem_cons_of_mem l hl')]
      rw [List.count_singleton, if_neg (by decide), List.length_cons]
      omega

end Lftp.Ports.Ftp
