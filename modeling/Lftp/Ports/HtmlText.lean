import Lftp.Ports.PwdReply
import Lftp.Verified.Entities
import Lftp.Verified.Scan

/-!
# Link targets

`find_value` looks for an attribute of a tag, `decode_amps` replaces the entities of the value in
place.

* `loop_amps` is the loop behind some text that is done with.
* `amps_right_iff`: the empty target is read past its end, a NUL keeps what is behind it.
-/

namespace Lftp.Ports.HtmlText

open Lftp.Verified Lftp.Verified.Entities
open Lftp.Ports.Url (isAlpha)
open Lftp.Ports.PwdReply (toAsciiLower quote)

/-! ## Attributes -/

/-- `is_ascii_alnum` -/
def isAlnum (c : UInt8) : Bool := isAlpha c || isDigit c

/-- `!strncasecmp(buf,token,strlen(token))` -/
def beginsNoCase (token s : Bytes) : Bool :=
  (token.map toAsciiLower).isPrefixOf (s.map toAsciiLower)

/-- `token_eq`, where `len` bytes are left. The byte behind the token is read in any case. -/
def tokenEq (s : Bytes) (len : Nat) (token : Bytes) : Bool :=
  token.length ≤ len && beginsNoCase token s &&
    (token.length = len || !(s[token.length]?.any isAlnum))

/-- A turn of `find_value`, with what is left in front of `more`, where there is a `>`. -/
def findTurn (name rest : Bytes) : Bytes ⊕ Option Bytes :=
  match rest.dropWhile isSpace with
  | [] => .inr none
  | c :: s =>
    if !isAlnum c then .inl s
    else
      match (c :: s).dropWhile isAlnum with
      | [] => .inr none
      | d :: after =>
        if d ≠ ch '=' then .inl (d :: after)
        else
          let quoted := after.head?.filter fun q => q = quote || q = ch '\''
          let text := if quoted.isSome then after.tail else after
          let value := text.takeWhile fun x => match quoted with
            | some q => x ≠ q
            | none => !isSpace x
          let behind := text.drop value.length
          if tokenEq (c :: s) (c :: s).length name then .inr (some value)
          else if behind = [] then .inr none
          else .inl (if quoted.isSome then behind.tail else behind)

/-- `find_value` on the text in front of `more`. -/
def findValue (tag name : Bytes) : Option Bytes := (loop (findTurn name) (tag.length + 1) tag).join

/-! ## Entities -/

/-- The table of `decode_amps`. -/
def table : List (Bytes × UInt8) :=
  [(bytes "&amp;", ch '&'), (bytes "&lt;", ch '<'), (bytes "&gt;", ch '>'), (bytes "&quot;", ch '"')]

/-- A turn of the loop: the string and the place of `a`. Behind the terminator there is nothing
to read. -/
def turn (w : Bytes × Nat) : (Bytes × Nat) ⊕ Option Bytes :=
  let (s, a) := w
  let s := match entityAt table (s.drop a) with
    | some e => s.take a ++ e.2 :: s.drop (a + e.1.length)
    | none => s
  if s.length < a + 1 then .inr none
  else
    match (cstr (s.drop (a + 1))).idxOf? (ch '&') with
    | none => .inr (some s)
    | some k => .inl (s, a + 1 + k)

/-- `decode_amps` -/
def decodeAmps (s : Bytes) : Option Bytes := (loop turn (s.length + 1) (s, 0)).join

/-- The entities are replaced from left to right, and what was encoded is read back. -/
def Right (s : Bytes) : Prop :=
  decodeAmps s = some (decode table s) ∧ ∀ t, encode table t = s → decodeAmps s = some t

/-- The string is not empty, and behind a NUL there is no entity. A NUL at the beginning does not
count. -/
def Fits (s : Bytes) : Prop :=
  s ≠ [] ∧ ∀ u v, u ≠ [] → s = u ++ 0 :: v → ∀ e ∈ table, ¬ e.1 <:+: v

/-! ## The loop -/

theorem isTable : IsTable table (ch '&') where
  first := by decide
  long := by decide
  apart := by decide
  self := ⟨(bytes "&amp;", ch '&'), by decide, rfl⟩

theorem table_nul : ∀ e ∈ table, (0 : UInt8) ∉ e.1 := by decide

section
variable {rest p q v : Bytes} {c : UInt8}

/-- What is read first: a character or an entity. -/
def Reads (rest : Bytes) (c : UInt8) (v : Bytes) : Prop :=
  (rest = c :: v ∧ entityAt table rest = none) ∨
    ∃ e ∈ table, rest = e.1 ++ v ∧ e.2 = c ∧ entityAt table rest = some e

theorem exists_reads (hNe : rest ≠ []) : ∃ c v, Reads rest c v := by
  cases hFind : entityAt table rest with
  | none =>
      obtain ⟨c, v, rfl⟩ := List.exists_cons_of_ne_nil hNe
      exact ⟨c, v, .inl ⟨rfl, hFind⟩⟩
  | some e =>
      obtain ⟨he, v, rfl⟩ := entityAt_some hFind
      exact ⟨e.2, v, .inr ⟨e, he, rfl, rfl, hFind⟩⟩

theorem Reads.decode_eq (h : Reads rest c v) : decode table rest = c :: decode table v := by
  rcases h with ⟨rfl, hFind⟩ | ⟨e, -, rfl, rfl, hFind⟩
  · exact decode_plain hFind
  · exact decode_entity isTable hFind

theorem Reads.length_lt (h : Reads rest c v) : v.length < rest.length := by
  rcases h with ⟨rfl, -⟩ | ⟨e, he, rfl, -, -⟩
  · exact Nat.lt_succ_self _
  · have hLong := isTable.long e he
    rw [List.length_append]
    omega

/-- A turn on what is read first. -/
theorem Reads.turn_eq (h : Reads rest c v) (pre : Bytes) :
    turn (pre ++ rest, pre.length)
      = match (cstr v).idxOf? (ch '&') with
        | none => .inr (some (pre ++ c :: v))
        | some k => .inl (pre ++ c :: v, pre.length + 1 + k) := by
  have hHere : (pre ++ rest).drop pre.length = rest := List.drop_left
  have hNext : (pre ++ c :: v).drop (pre.length + 1) = v := by
    rw [← List.drop_drop, List.drop_left]
    rfl
  have hLength : ¬ (pre ++ c :: v).length < pre.length + 1 := by
    rw [List.length_append, List.length_cons]
    omega
  have hText : (match entityAt table rest with
      | some e => (pre ++ rest).take pre.length ++ e.2 :: (pre ++ rest).drop (pre.length + e.1.length)
      | none => pre ++ rest) = pre ++ c :: v := by
    rcases h with ⟨rfl, hFind⟩ | ⟨e, -, rfl, rfl, hFind⟩
    · rw [hFind]
    · rw [hFind]
      dsimp only
      rw [List.take_left, ← List.drop_drop, List.drop_left, List.drop_left]
  unfold turn
  dsimp only
  rw [hHere, hText, if_neg hLength, hNext]

/-- What is behind a NUL does not matter. -/
theorem Reads.append (h : Reads rest c v) (hq : q = [] ∨ ∃ x, q = 0 :: x) :
    Reads (rest ++ q) c (v ++ q) := by
  have hSame : entityAt table (rest ++ q) = entityAt table rest := by
    rcases hq with rfl | ⟨x, rfl⟩
    · rw [List.append_nil]
    · exact entityAt_barrier table_nul rest x
  rcases h with ⟨rfl, hFind⟩ | ⟨e, he, rfl, hc, hFind⟩
  · exact .inl ⟨rfl, hSame.trans hFind⟩
  · exact .inr ⟨e, he, List.append_assoc _ _ _, hc, hSame.trans hFind⟩

theorem Reads.subset (h : Reads rest c v) : v ⊆ rest := by
  rcases h with ⟨rfl, -⟩ | ⟨e, he, rfl, -, -⟩
  · exact List.subset_cons_self _ _
  · exact List.subset_append_right _ _

/-- The loop, where an entity may begin: up to a NUL entities are replaced. -/
theorem loop_amps {n : Nat} (h : Reads rest c (p ++ q)) (hp : 0 ∉ p)
    (hq : q = [] ∨ ∃ x, q = 0 :: x) (hn : rest.length ≤ n) (pre : Bytes) :
    loop turn n (pre ++ rest, pre.length) = some (some (pre ++ c :: (decode table p ++ q))) := by
  induction n generalizing pre rest c p with
  | zero => exact absurd h.length_lt (by omega)
  | succ n ih =>
      have hTurn := h.turn_eq pre
      have hLess := h.length_lt
      have hString : cstr (p ++ q) = p := by
        rw [cstr_append_of_notMem hp]
        rcases hq with rfl | ⟨x, rfl⟩
        · exact List.append_nil p
        · exact List.append_nil p
      rw [hString] at hTurn
      cases hFind : p.idxOf? (ch '&') with
      | none =>
          have hPlain : decode table p = p := by
            have hAll := decode_plains isTable (List.idxOf?_eq_none_iff.mp hFind) []
            rwa [List.append_nil, decode_nil, List.append_nil] at hAll
          rw [hFind] at hTurn
          rw [loop_inr hTurn, hPlain]
      | some k =>
          obtain ⟨w, x, rfl, hw, rfl⟩ := exists_line hFind
          rw [hFind] at hTurn
          obtain ⟨c', p', hReads⟩ := exists_reads (List.cons_ne_nil (ch '&') x)
          have hNul : 0 ∉ p' := fun h => hp (List.mem_append_right _ (hReads.subset h))
          have hNext := ih (hReads.append hq) hNul
            (by simp only [List.length_append, List.length_cons] at hLess hn ⊢; omega) (pre ++ c :: w)
          have hText : pre ++ c :: w ++ (ch '&' :: x ++ q) = pre ++ c :: (w ++ ch '&' :: x ++ q) := by
            simp
          have hPlace : (pre ++ c :: w).length = pre.length + 1 + w.length := by
            rw [List.length_append, List.length_cons]
            omega
          rw [hText, hPlace] at hNext
          rw [loop_inl hTurn, hNext, decode_plains isTable hw, hReads.decode_eq]
          simp

end

/-! ## Strings -/

/-- A string that is not empty. -/
theorem decodeAmps_eq {s p q : Bytes} {c : UInt8} (h : Reads s c (p ++ q)) (hp : 0 ∉ p)
    (hq : q = [] ∨ ∃ x, q = 0 :: x) : decodeAmps s = some (c :: (decode table p ++ q)) := by
  have hLoop := loop_amps h hp hq (Nat.le_succ s.length) []
  rw [List.nil_append, List.length_nil] at hLoop
  rw [decodeAmps, hLoop]
  rfl

theorem exists_split (v : Bytes) : ∃ p q, v = p ++ q ∧ 0 ∉ p ∧ (q = [] ∨ ∃ x, q = 0 :: x) := by
  cases hFind : v.idxOf? 0 with
  | none => exact ⟨v, [], (List.append_nil v).symm, List.idxOf?_eq_none_iff.mp hFind, .inl rfl⟩
  | some k =>
      obtain ⟨p, x, rfl, hp, -⟩ := exists_line hFind
      exact ⟨p, 0 :: x, rfl, hp, .inr ⟨x, rfl⟩⟩

section
variable {s p q u v : Bytes} {c : UInt8}

/-- A NUL behind the first character is behind what is decoded. -/
theorem nul_behind (h : Reads s c (p ++ q)) (hp : 0 ∉ p) (hq : q = [] ∨ ∃ x, q = 0 :: x)
    (hu : u ≠ []) (hText : s = u ++ 0 :: v) : ∃ x, q = 0 :: x ∧ v <:+ x := by
  have hFirst : ∃ d f, s = d :: (f ++ q) ∧ 0 ∉ f := by
    rcases h with ⟨rfl, -⟩ | ⟨e, he, rfl, -, -⟩
    · exact ⟨c, p, rfl, hp⟩
    · have hLong := isTable.long e he
      obtain ⟨d, t, hEntity⟩ := List.exists_cons_of_length_pos (show 0 < e.1.length by omega)
      refine ⟨d, t ++ p, by simp [hEntity], fun hMem => ?_⟩
      rcases List.mem_append.mp hMem with hMem | hMem
      · exact table_nul e he (hEntity ▸ List.mem_cons_of_mem d hMem)
      · exact hp hMem
  obtain ⟨d, f, rfl, hf⟩ := hFirst
  obtain ⟨y, u, rfl⟩ := List.exists_cons_of_ne_nil hu
  have hRest : f ++ q = u ++ 0 :: v := (List.cons.inj hText).2
  rcases hq with rfl | ⟨x, rfl⟩
  · rw [List.append_nil] at hRest
    exact absurd (hRest ▸ List.mem_append_right u List.mem_cons_self) hf
  refine ⟨x, rfl, ?_⟩
  rcases List.append_eq_append_iff.mp hRest with ⟨t, -, ht⟩ | ⟨t, ht, hTail⟩
  · cases t with
    | nil => exact (List.cons.inj ht).2 ▸ List.suffix_refl x
    | cons z t =>
        refine ⟨t ++ [0], ?_⟩
        rw [(List.cons.inj ht).2, List.append_assoc]
        rfl
  · cases t with
    | nil => exact (List.cons.inj hTail).2 ▸ List.suffix_refl v
    | cons z t =>
        refine absurd ?_ hf
        rw [ht, ← (List.cons.inj hTail).1]
        simp

/-- What is decoded is right exactly when nothing is left behind a NUL. -/
theorem decoded_iff (h : Reads s c (p ++ q)) (hp : 0 ∉ p) (hq : q = [] ∨ ∃ x, q = 0 :: x) :
    decodeAmps s = some (decode table s) ↔ Fits s := by
  have hNe : s ≠ [] := by
    rintro rfl
    exact absurd h.length_lt (Nat.not_lt_zero _)
  rw [decodeAmps_eq h hp hq, h.decode_eq, Option.some.injEq, List.cons_inj_right]
  unfold Fits
  rw [and_iff_right hNe]
  rcases hq with rfl | ⟨x, rfl⟩
  · rw [List.append_nil, List.append_nil]
    refine iff_of_true rfl fun u v hu hText => ?_
    obtain ⟨x, hx, -⟩ := nul_behind h hp (.inl rfl) hu hText
    cases hx
  · rw [decode_barrier isTable table_nul, List.append_cancel_left_eq, List.cons_inj_right, eq_comm,
      decode_eq_self_iff isTable]
    constructor
    · intro hNone u v hu hText e he hInfix
      obtain ⟨x', hx', hSuffix⟩ := nul_behind h hp (.inr ⟨x, rfl⟩) hu hText
      rw [← (List.cons.inj hx').2] at hSuffix
      exact hNone e he (hInfix.trans hSuffix.isInfix)
    · intro hFits e he
      rcases h with ⟨rfl, -⟩ | ⟨e', he', rfl, -, -⟩
      · exact hFits (c :: p) x (List.cons_ne_nil c p) rfl e he
      · have hEntity : e'.1 ++ p ≠ [] := by
          intro hNil
          have hLong := isTable.long e' he'
          rw [(List.append_eq_nil_iff.mp hNil).1] at hLong
          exact absurd hLong (by simp)
        exact hFits (e'.1 ++ p) x hEntity (List.append_assoc _ _ _).symm e he

end

/-- The entities of a link target are replaced as they should be exactly when it is not empty and
none is behind a NUL. -/
theorem amps_right_iff (s : Bytes) : Right s ↔ Fits s := by
  by_cases hNe : s = []
  · subst hNe
    have hFault : decodeAmps [] = none := by decide
    exact iff_of_false (fun h => Option.some_ne_none _ (h.1.symm.trans hFault)) fun h => h.1 rfl
  obtain ⟨c, v, h⟩ := exists_reads hNe
  obtain ⟨p, q, rfl, hp, hq⟩ := exists_split v
  have hDecoded := decoded_iff h hp hq
  refine ⟨fun hRight => hDecoded.mp hRight.1, fun hFits => ⟨hDecoded.mpr hFits, ?_⟩⟩
  rintro t rfl
  rw [hDecoded.mpr hFits, decode_encode isTable]

/-- An empty link target. -/
theorem not_amps_right : ¬ ∀ s : Bytes, Right s := by
  intro h
  have hFault : decodeAmps [] = none := by decide
  exact Option.some_ne_none _ ((h []).1.symm.trans hFault)

end Lftp.Ports.HtmlText
