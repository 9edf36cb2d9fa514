import Lftp.Verified.Assoc
import Lftp.Verified.Loop
import Lftp.Verified.Segments
import Lftp.Verified.Sorting
import Mathlib.Data.List.TakeWhile

/-!
# Bookmarks and the history as a file

`KeyValueDB::Format` writes a line for each pair, in the order of the keys: the key padded to a
common width, a tab, and the value. `Read` takes a key, skips blanks, and takes what is left of
the line; at a line without a value it stops.

* `read_lines` says which pairs are read back.
* `survives_iff`: all of them are, exactly when no value is empty or begins with a blank.
-/

namespace Lftp.Ports.KeyValue

open Lftp.Verified
open Lftp.Verified.Assoc (keys)
open Lftp.Verified.Sorting (QSorts)

/-- `chain` -/
abbrev Chain := List (Bytes × Bytes)

/-! ## Pairs -/

/-- `KeyValueDB::Add`: the first pair of that key gets the value, or there is a new pair. -/
def add (key value : Bytes) (chain : Chain) : Chain :=
  match chain.findIdx? fun p => p.1 = key with
  | none => (key, value) :: chain
  | some i => chain.modify i fun p => (p.1, value)

/-! ## Writing -/

/-- `KeyCompare` -/
def keyCompare (a b : Bytes × Bytes) : Ordering := compare a.1 b.1

/-- `%-*s\t%s\n` -/
def line (width : Nat) (p : Bytes × Bytes) : Bytes :=
  p.1 ++ List.replicate (width - p.1.length) (ch ' ') ++ ch '\t' :: (p.2 ++ [ch '\n'])

/-- The length of the longest key, without its last three bits. -/
def keyWidth (chain : Chain) : Nat := (chain.map fun p => p.1.length).foldl max 0 / 8 * 8

/-- `KeyValueDB::Format` -/
def format (sort : (Bytes × Bytes → Bytes × Bytes → Ordering) → Chain → Chain) (chain : Chain) :
    Bytes :=
  let sorted := sort keyCompare chain
  sorted.flatMap (line (keyWidth sorted))

/-! ## Reading -/

def isBlank (c : UInt8) : Bool := c = ch ' ' || c = ch '\t'

/-- A character of a key. -/
def isKeyChar (c : UInt8) : Bool := !isBlank c && c ≠ ch '\n'

/-- What is done with a value and the rest of the file behind it. -/
def takeValue (chain : Chain) (key s : Bytes) : (Chain × Bytes) ⊕ Chain :=
  let chain := add (cstr key) (cstr (s.takeWhile (· ≠ ch '\n'))) chain
  match s.dropWhile (· ≠ ch '\n') with
  | [] => .inr chain
  | _ :: s => .inl (chain, s)

/-- A turn of the loop of `KeyValueDB::Read`. -/
def turn (w : Chain × Bytes) : (Chain × Bytes) ⊕ Chain :=
  match w.2.dropWhile isBlank with
  | [] => .inr w.1
  | c :: s =>
    if c = ch '\n' then .inl (w.1, s)
    else
      let key := (c :: s).takeWhile isKeyChar
      match (c :: s).dropWhile isKeyChar with
      | [] => .inr w.1
      | d :: s =>
        if d = ch '\n' then .inr w.1
        else
          match (d :: s).dropWhile isBlank with
          | [] => .inr w.1
          | e :: s => if e = ch '\n' then .inr w.1 else takeValue w.1 key (e :: s)

/-- `KeyValueDB::Read` into an empty database. -/
def read (s : Bytes) : Option Chain := loop turn (s.length + 1) ([], s)

/-! ## What survives -/

/-- A pair that can be added: C strings, the key a word and the value on one line. -/
structure IsPair (p : Bytes × Bytes) : Prop where
  key_ne : p.1 ≠ []
  key_chars : ∀ c ∈ p.1, isKeyChar c = true ∧ c ≠ 0
  value_chars : ∀ c ∈ p.2, c ≠ ch '\n' ∧ c ≠ 0

instance (p : Bytes × Bytes) : Decidable (IsPair p) :=
  decidable_of_iff (p.1 ≠ [] ∧ (p.1.all fun c => isKeyChar c && c ≠ 0)
    ∧ p.2.all fun c => c ≠ ch '\n' && c ≠ 0)
    ⟨fun ⟨hNe, hKey, hValue⟩ => ⟨hNe, by simpa using hKey, by simpa using hValue⟩,
      fun h => ⟨h.key_ne, by simpa using h.key_chars, by simpa using h.value_chars⟩⟩

/-- The value is not empty and does not begin with a blank. -/
def Solid (value : Bytes) : Prop := ∃ c s, value = c :: s ∧ isBlank c = false

/-- The pairs that are read back, one after another. -/
def readBack : Chain → Chain
  | [] => []
  | p :: ps => if p.2.dropWhile isBlank = [] then [] else (p.1, p.2.dropWhile isBlank) :: readBack ps

/-- The file restores the pairs, in whatever order. -/
def Survives (sort : (Bytes × Bytes → Bytes × Bytes → Ordering) → Chain → Chain) (chain : Chain) :
    Prop :=
  ∃ restored, read (format sort chain) = some restored ∧ restored.Perm chain

/-! ## Adding -/

theorem add_of_notMem {key : Bytes} {chain : Chain} (h : key ∉ keys chain) (value : Bytes) :
    add key value chain = (key, value) :: chain := by
  have hNone : chain.findIdx? (fun p => p.1 = key) = none := by
    rw [List.findIdx?_eq_none_iff]
    intro p hp
    exact decide_eq_false fun hEq => h (hEq ▸ List.mem_map_of_mem hp)
  rw [add, hNone]

/-! ## A line -/

section
variable {p : Bytes × Bytes} {chain : Chain} {w n : Nat} {rest : Bytes}

theorem newline_not_blank : isBlank (ch '\n') = false := by decide

theorem dropWhile_blanks {pad : Bytes} (hPad : ∀ c ∈ pad, isBlank c = true) (v rest : Bytes) :
    (pad ++ (v ++ ch '\n' :: rest)).dropWhile isBlank
      = v.dropWhile isBlank ++ ch '\n' :: rest := by
  have hEnd : (ch '\n' :: rest).dropWhile isBlank = ch '\n' :: rest :=
    List.dropWhile_cons_of_neg (by rw [newline_not_blank]; exact Bool.false_ne_true)
  rw [List.dropWhile_append_of_pos hPad, List.dropWhile_append, hEnd]
  cases v.dropWhile isBlank <;> rfl

theorem cstr_chars {s : Bytes} (h : ∀ c ∈ s, c ≠ 0) : cstr s = s :=
  cstr_of_notMem fun hMem => h 0 hMem rfl

theorem isKeyChar_iff {c : UInt8} : isKeyChar c = true ↔ isBlank c = false ∧ c ≠ ch '\n' := by
  simp [isKeyChar]

/-- Behind the key of a line there are blanks. -/
theorem line_eq (w : Nat) (p : Bytes × Bytes) (rest : Bytes) :
    ∃ d pad, isBlank d = true ∧ (∀ c ∈ pad, isBlank c = true) ∧
      line w p ++ rest = p.1 ++ d :: (pad ++ (p.2 ++ ch '\n' :: rest)) := by
  unfold line
  cases hPad : w - p.1.length with
  | zero => exact ⟨ch '\t', [], by decide, nofun, by simp⟩
  | succ n =>
      refine ⟨ch ' ', List.replicate n (ch ' ') ++ [ch '\t'], by decide, ?_, ?_⟩
      · intro c hc
        rcases List.mem_append.mp hc with hc | hc
        · rw [List.eq_of_mem_replicate hc]
          decide
        · rw [List.mem_singleton.mp hc]
          decide
      · simp [List.replicate_succ]

/-- What a turn finds in a line. -/
theorem turn_line (chain : Chain) (w : Nat) (rest : Bytes) (h : IsPair p) :
    turn (chain, line w p ++ rest)
      = match p.2.dropWhile isBlank with
        | [] => .inr chain
        | e :: s => .inl (add p.1 (e :: s) chain, rest) := by
  obtain ⟨d, pad, hd, hPad, hText⟩ := line_eq w p rest
  obtain ⟨c, k, hKey⟩ := List.exists_cons_of_ne_nil h.key_ne
  have hAll : ∀ x ∈ p.1, isKeyChar x = true := fun x hx => (h.key_chars x hx).1
  obtain ⟨hFirst, hNewline⟩ := isKeyChar_iff.mp (hAll c (hKey ▸ List.mem_cons_self))
  have hStop : ¬ isKeyChar d = true := fun hKeyChar => by
    rw [(isKeyChar_iff.mp hKeyChar).1] at hd
    cases hd
  have hdNewline : d ≠ ch '\n' := fun hEq => by
    rw [hEq, newline_not_blank] at hd
    cases hd
  have hStart : (p.1 ++ d :: (pad ++ (p.2 ++ ch '\n' :: rest))).dropWhile isBlank
      = c :: (k ++ d :: (pad ++ (p.2 ++ ch '\n' :: rest))) := by
    rw [hKey]
    exact List.dropWhile_cons_of_neg (by rw [hFirst]; exact Bool.false_ne_true)
  have hName : (c :: (k ++ d :: (pad ++ (p.2 ++ ch '\n' :: rest)))).takeWhile isKeyChar = p.1 := by
    rw [← List.cons_append, ← hKey, List.takeWhile_append_of_pos hAll,
      List.takeWhile_cons_of_neg hStop, List.append_nil]
  have hBehind : (c :: (k ++ d :: (pad ++ (p.2 ++ ch '\n' :: rest)))).dropWhile isKeyChar
      = d :: (pad ++ (p.2 ++ ch '\n' :: rest)) := by
    rw [← List.cons_append, ← hKey, List.dropWhile_append_of_pos hAll,
      List.dropWhile_cons_of_neg hStop]
  have hSkip : (d :: (pad ++ (p.2 ++ ch '\n' :: rest))).dropWhile isBlank
      = p.2.dropWhile isBlank ++ ch '\n' :: rest := by
    rw [List.dropWhile_cons_of_pos hd, dropWhile_blanks hPad]
  rw [hText, turn]
  dsimp only
  rw [hStart]
  dsimp only
  rw [if_neg hNewline, hBehind, hName]
  dsimp only
  rw [if_neg hdNewline, hSkip]
  cases hValue : p.2.dropWhile isBlank with
  | nil => exact if_pos rfl
  | cons e s =>
      have hChars : ∀ x ∈ e :: s, x ≠ ch '\n' ∧ x ≠ 0 := fun x hx =>
        h.value_chars x ((List.dropWhile_suffix isBlank).mem (hValue ▸ hx))
      have hAllValue : ∀ x ∈ e :: s, decide (x ≠ ch '\n') = true := fun x hx =>
        decide_eq_true (hChars x hx).1
      dsimp only [List.cons_append]
      have hTake : (ch '\n' :: rest).takeWhile (· ≠ ch '\n') = [] :=
        List.takeWhile_cons_of_neg (by decide)
      have hDrop : (ch '\n' :: rest).dropWhile (· ≠ ch '\n') = ch '\n' :: rest :=
        List.dropWhile_cons_of_neg (by decide)
      rw [if_neg (hChars e List.mem_cons_self).1, takeValue, ← List.cons_append,
        List.takeWhile_append_of_pos hAllValue, List.dropWhile_append_of_pos hAllValue,
        hTake, hDrop, List.append_nil, cstr_chars fun x hx => (h.key_chars x hx).2,
        cstr_chars fun x hx => (hChars x hx).2]

end

/-! ## The file -/

/-- The pairs of the lines are added, up to a line without a value. -/
theorem read_lines {ps : Chain} (chain : Chain) (h : ∀ p ∈ ps, IsPair p) {w n : Nat}
    (hKeys : (keys ps ++ keys chain).Nodup) (hn : (ps.flatMap (line w)).length < n) :
    loop turn n (chain, ps.flatMap (line w)) = some ((readBack ps).reverse ++ chain) := by
  induction ps generalizing chain n with
  | nil =>
      obtain ⟨n, rfl⟩ := Nat.exists_eq_add_of_le' (show 1 ≤ n from Nat.pos_of_ne_zero (by omega))
      have hTurn : turn (chain, []) = .inr chain := rfl
      exact loop_inr hTurn n
  | cons p ps ih =>
      obtain ⟨n, rfl⟩ := Nat.exists_eq_add_of_le' (show 1 ≤ n by omega)
      have hPair := h p List.mem_cons_self
      have hTurn := turn_line chain w (ps.flatMap (line w)) hPair
      have hShorter : (ps.flatMap (line w)).length < n := by
        rw [List.flatMap_cons, List.length_append] at hn
        have hLine : 0 < (line w p).length := by
          unfold line
          simp only [List.length_append, List.length_cons]
          omega
        omega
      rw [List.flatMap_cons]
      cases hValue : p.2.dropWhile isBlank with
      | nil =>
          rw [hValue] at hTurn
          rw [readBack, if_pos hValue]
          exact loop_inr hTurn n
      | cons e s =>
          rw [hValue] at hTurn
          dsimp only at hTurn
          obtain ⟨hNew, hRest⟩ := List.nodup_cons.mp hKeys
          have hNot : p.1 ∉ keys chain := fun hMem => hNew (List.mem_append_right _ hMem)
          rw [add_of_notMem hNot] at hTurn
          have hKeysNext : (keys ps ++ keys ((p.1, e :: s) :: chain)).Nodup :=
            (List.perm_middle (a := p.1)).nodup_iff.mpr hKeys
          rw [loop_inl hTurn, ih _ (fun q hq => h q (List.mem_cons_of_mem p hq)) hKeysNext hShorter,
            readBack, if_neg (by rw [hValue]; exact List.cons_ne_nil _ _), hValue,
            List.reverse_cons, List.append_assoc]
          rfl

theorem solid_iff {v : Bytes} : Solid v ↔ v.dropWhile isBlank ≠ [] ∧ v.dropWhile isBlank = v := by
  cases v with
  | nil => exact iff_of_false (fun ⟨_, _, h, _⟩ => nomatch h) fun h => h.1 rfl
  | cons c v =>
      constructor
      · rintro ⟨c, s, hEq, hc⟩
        obtain ⟨rfl, rfl⟩ := List.cons.inj hEq
        rw [List.dropWhile_cons_of_neg (by rw [hc]; exact Bool.false_ne_true)]
        exact ⟨List.cons_ne_nil _ _, rfl⟩
      · rintro ⟨-, hSame⟩
        refine ⟨c, v, rfl, ?_⟩
        by_contra hBlank
        rw [Bool.not_eq_false] at hBlank
        rw [List.dropWhile_cons_of_pos hBlank] at hSame
        have hLength := List.length_dropWhile_le isBlank v
        rw [hSame, List.length_cons] at hLength
        omega

theorem readBack_solid {ps : Chain} (h : ∀ p ∈ ps, Solid p.2) : readBack ps = ps := by
  induction ps with
  | nil => rfl
  | cons p ps ih =>
      obtain ⟨hNe, hSame⟩ := solid_iff.mp (h p List.mem_cons_self)
      rw [readBack, if_neg hNe, hSame, ih fun q hq => h q (List.mem_cons_of_mem p hq)]

theorem solid_of_readBack_perm {ps : Chain} (hKeys : (keys ps).Nodup) (h : (readBack ps).Perm ps) :
    ∀ p ∈ ps, Solid p.2 := by
  have hAll : ∀ {qs : Chain}, (readBack qs).length = qs.length →
      ∀ q ∈ qs, (q.1, q.2.dropWhile isBlank) ∈ readBack qs ∧ q.2.dropWhile isBlank ≠ [] := by
    intro qs
    induction qs with
    | nil => exact fun _ => nofun
    | cons q qs ih =>
        intro hLength
        unfold readBack at hLength ⊢
        by_cases hNil : q.2.dropWhile isBlank = []
        · rw [if_pos hNil] at hLength
          cases hLength
        · rw [if_neg hNil] at hLength ⊢
          intro r hr
          rcases List.mem_cons.mp hr with rfl | hr
          · exact ⟨List.mem_cons_self, hNil⟩
          · obtain ⟨hMem, hNe⟩ := ih (Nat.succ.inj hLength) r hr
            exact ⟨List.mem_cons_of_mem _ hMem, hNe⟩
  intro p hp
  obtain ⟨hMem, hNe⟩ := hAll h.length_eq p hp
  have hSame : (p.1, p.2.dropWhile isBlank) = p :=
    List.inj_on_of_nodup_map hKeys (h.mem_iff.mp hMem) hp rfl
  exact solid_iff.mpr ⟨hNe, congrArg Prod.snd hSame⟩

/-- The pairs are restored exactly when no value is empty or begins with a blank. -/
theorem survives_iff {sort : (Bytes × Bytes → Bytes × Bytes → Ordering) → Chain → Chain}
    (hSort : QSorts sort) {chain : Chain} (hPairs : ∀ p ∈ chain, IsPair p)
    (hKeys : (keys chain).Nodup) : Survives sort chain ↔ ∀ p ∈ chain, Solid p.2 := by
  have hPerm := hSort.perm keyCompare chain
  have hSorted : (keys (sort keyCompare chain)).Nodup := (hPerm.map Prod.fst).nodup_iff.mpr hKeys
  have hRead : read (format sort chain) = some (readBack (sort keyCompare chain)).reverse := by
    have hLines := read_lines [] (w := keyWidth (sort keyCompare chain))
      (fun p hp => hPairs p (hPerm.mem_iff.mp hp)) (by rwa [Assoc.keys_nil, List.append_nil])
      (Nat.lt_succ_self _)
    rw [List.append_nil] at hLines
    exact hLines
  have hSolid : (∀ p ∈ sort keyCompare chain, Solid p.2) ↔ ∀ p ∈ chain, Solid p.2 :=
    forall_congr' fun p => imp_congr_left hPerm.mem_iff
  rw [← hSolid]
  constructor
  · rintro ⟨restored, hRestored, hSame⟩
    rw [hRead] at hRestored
    obtain rfl := Option.some.inj hRestored
    exact solid_of_readBack_perm hSorted
      ((List.reverse_perm _).symm.trans (hSame.trans hPerm.symm))
  · intro h
    rw [readBack_solid h] at hRead
    exact ⟨_, hRead, (List.reverse_perm _).trans hPerm⟩

theorem survives_two : Survives Sorting.insertionSorted
      [(bytes "lftp", bytes "ftp://lftp.yar.ru/ "), (bytes "a", bytes "-")] ↔
    ∀ p ∈ [(bytes "lftp", bytes "ftp://lftp.yar.ru/ "), (bytes "a", bytes "-")], Solid p.2 :=
  survives_iff Sorting.qsorts_insertionSorted
    (List.forall_mem_cons.mpr ⟨by decide, List.forall_mem_singleton.mpr (by decide)⟩) (by decide)

/-- A bookmark without a location loses itself and those that come after it. -/
theorem not_survives : ¬ ∀ (sort : (Bytes × Bytes → Bytes × Bytes → Ordering) → Chain → Chain)
    (chain : Chain), QSorts sort → (∀ p ∈ chain, IsPair p) → (keys chain).Nodup →
      Survives sort chain := by
  intro h
  obtain ⟨restored, hRead, hPerm⟩ := h Sorting.insertionSorted [(bytes "b", bytes "x"), (bytes "a", [])]
    Sorting.qsorts_insertionSorted
    (List.forall_mem_cons.mpr ⟨by decide, List.forall_mem_singleton.mpr (by decide)⟩) (by decide)
  have hNone : read (format Sorting.insertionSorted [(bytes "b", bytes "x"), (bytes "a", [])])
      = some [] := by decide
  rw [hNone] at hRead
  rw [← Option.some.inj hRead] at hPerm
  exact absurd hPerm.length_eq (by decide)

end Lftp.Ports.KeyValue
