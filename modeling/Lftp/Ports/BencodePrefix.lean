import Lftp.Ports.TorrentPacket
import Lftp.Verified.Segments

/-!
# Bencoded texts that are cut off

A reader that has only the first bytes of a text is to wait for more: `BeNode::Parse` then
returns no node and says that no bytes are left, on which `UnpackBencoded` depends.

At three places it says that one byte is left, and the text looks malformed. `Slips` is the texts
that end at such a place; `cut_waits_iff` says that these are all.
-/

namespace Lftp.Ports.Bencode

open Lftp.Verified
open Lftp.Ports.TorrentPacket

/-! ## Whole texts -/

/-- The sign of an integer. -/
def sign (neg : Bool) : Bytes := if neg then [ch '-'] else []

/-- The keys and the texts of the values of a dictionary. -/
def entries (es : List (Bytes × Bytes)) : Bytes := es.flatMap fun e => packStr e.1 ++ e.2

/-- The bencoded texts, and some more: an integer may be of any size, and dictionaries may have
their keys in any order. Strings are as long as the `n` of `Parse` may count. -/
inductive Bencoded : Bytes → Prop
  | str {s : Bytes} (short : s.length < 2 ^ 31) : Bencoded (packStr s)
  | int (neg : Bool) (m : Nat) : Bencoded (ch 'i' :: (sign neg ++ decimal m) ++ [ch 'e'])
  | list {ws : List Bytes} (items : ∀ w ∈ ws, Bencoded w) :
      Bencoded (ch 'l' :: ws.flatten ++ [ch 'e'])
  | dict {es : List (Bytes × Bytes)} (keys : ∀ e ∈ es, e.1.length < 2 ^ 31)
      (values : ∀ e ∈ es, Bencoded e.2) :
      Bencoded (ch 'd' :: entries es ++ [ch 'e'])

/-- The parser reads the text whatever follows. -/
def Complete (w : Bytes) : Prop :=
  Enters w ∧ ∀ fuel, w.length ≤ fuel → ∀ r : Bytes,
    ∃ t, parseFuel fuel (w ++ r) = (some t, r.length)

/-- The loop of a list goes over whole items. -/
theorem parseList_items {ws : List Bytes} (h : ∀ w ∈ ws, Complete w) {fuel : Nat}
    (hFuel : ws.flatten.length < fuel) (a : List BeNode) (q : Bytes) :
    ∃ fuel' a', fuel ≤ fuel' + ws.flatten.length ∧
      parseList fuel (ws.flatten ++ q) a = parseList fuel' q a' := by
  induction ws generalizing fuel a with
  | nil => exact ⟨fuel, a, Nat.le_refl _, rfl⟩
  | cons w ws ih =>
      rcases Nat.exists_eq_add_one_of_ne_zero (Nat.ne_zero_of_lt hFuel) with ⟨fuel, rfl⟩
      rcases h w List.mem_cons_self with ⟨hEnters, hReads⟩
      have hTwo := hEnters.1
      rw [List.flatten_cons, List.length_append] at hFuel
      rcases hReads fuel (by omega) (ws.flatten ++ q) with ⟨t, ht⟩
      have hLt : ws.flatten.length < fuel := by omega
      rcases ih (fun w' hw' => h w' (List.mem_cons_of_mem w hw')) hLt (a ++ [t]) with
        ⟨fuel', a', hLess, hEq⟩
      refine ⟨fuel', a', ?_, ?_⟩
      · rw [List.flatten_cons, List.length_append]
        omega
      · rw [List.flatten_cons, List.append_assoc, parseList_item (hEnters.guard _) ht, drop_rest,
          hEq]

/-- The loop of a dictionary goes over whole entries. -/
theorem parseDict_entries {es : List (Bytes × Bytes)} (hKeys : ∀ e ∈ es, e.1.length < 2 ^ 31)
    (h : ∀ e ∈ es, Complete e.2) {fuel : Nat} (hFuel : (entries es).length < fuel)
    (dBegin : Bytes) (map : List (Bytes × BeNode)) (q : Bytes) :
    ∃ fuel' map', fuel ≤ fuel' + (entries es).length ∧
      parseDict fuel dBegin (entries es ++ q) map = parseDict fuel' dBegin q map' := by
  induction es generalizing fuel map with
  | nil => exact ⟨fuel, map, Nat.le_refl _, rfl⟩
  | cons e es ih =>
      rcases Nat.exists_eq_add_one_of_ne_zero (Nat.ne_zero_of_lt hFuel) with ⟨fuel, rfl⟩
      rcases h e List.mem_cons_self with ⟨hEnters, hReads⟩
      have hTwo := two_le_length_packStr e.1
      have hCons : entries (e :: es) = packStr e.1 ++ (e.2 ++ entries es) :=
        (List.flatMap_cons ..).trans (List.append_assoc ..)
      rw [hCons, List.length_append, List.length_append] at hFuel
      have hKey := parseFuel_packStr (hKeys e List.mem_cons_self) fuel (by omega)
        (e.2 ++ (entries es ++ q))
      rcases hReads fuel (by omega) (entries es ++ q) with ⟨t, ht⟩
      have hLt : (entries es).length < fuel := by omega
      rcases ih (fun e' he' => hKeys e' (List.mem_cons_of_mem e he'))
        (fun e' he' => h e' (List.mem_cons_of_mem e he')) hLt (Assoc.add e.1 t map) with
        ⟨fuel', map', hLess, hEq⟩
      refine ⟨fuel', map', ?_, ?_⟩
      · rw [hCons, List.length_append, List.length_append]
        omega
      · rw [hCons, List.append_assoc, List.append_assoc,
          parseDict_entry ((enters_packStr e.1).guard _) hKey (by rw [drop_rest]; exact ht),
          drop_rest, drop_rest, hEq]

/-- A text between a letter and the closing one. -/
theorem enters_bracket {c : UInt8} (hc : c ≠ ch 'e') (s : Bytes) :
    Enters (c :: s ++ [ch 'e']) := by
  constructor
  · simp
  · intro hHead
    exact hc (Option.some.inj hHead)

/-- Digits do not start with a minus sign. -/
theorem head_ne_minus {ds : Bytes} (h : ∀ c ∈ ds, isDigit c = true) (s : Bytes)
    (hNil : ds ≠ []) : (ds ++ s).head? ≠ some (ch '-') := by
  rcases List.exists_cons_of_ne_nil hNil with ⟨c, ds, rfl⟩
  intro hHead
  have hMinus : c = ch '-' := Option.some.inj hHead
  have hDigit := h c List.mem_cons_self
  rw [hMinus] at hDigit
  exact absurd hDigit (by decide)

/-- After the sign the digits are read. -/
theorem parseInt_sign (neg : Bool) {s : Bytes} (hs : s.head? ≠ some (ch '-')) :
    parseInt (sign neg ++ s) = parseDigits neg s := by
  cases neg with
  | true =>
      show parseInt (ch '-' :: s) = _
      rw [parseInt, if_pos rfl]
  | false =>
      cases s with
      | nil => rfl
      | cons c s =>
          show parseInt (c :: s) = _
          rw [parseInt, if_neg fun hEq => hs (by rw [hEq]; rfl)]

theorem Bencoded.complete {w : Bytes} (h : Bencoded w) : Complete w := by
  induction h with
  | @str s short =>
      have hTwo := two_le_length_packStr s
      exact ⟨enters_packStr s, fun fuel hFuel r =>
        ⟨.str s, parseFuel_packStr short fuel (by omega) r⟩⟩
  | int neg m =>
      refine ⟨enters_bracket (by decide) _, fun fuel hFuel r => ?_⟩
      have hPos : fuel ≠ 0 := by
        rintro rfl
        simp at hFuel
      rcases Nat.exists_eq_add_one_of_ne_zero hPos with ⟨fuel, rfl⟩
      have hText : ch 'i' :: (sign neg ++ decimal m) ++ [ch 'e'] ++ r =
          ch 'i' :: (sign neg ++ (decimal m ++ ch 'e' :: r)) := by simp
      have hMinus := head_ne_minus (isDigit_of_mem_decimal m) (ch 'e' :: r) (decimal_ne_nil m)
      rw [hText, parseFuel_i _ (by simp), parseInt_sign neg hMinus, parseDigits_decimal]
      exact ⟨_, rfl⟩
  | @list ws items ih =>
      refine ⟨enters_bracket (by decide) _, fun fuel hFuel r => ?_⟩
      rw [List.cons_append, List.length_cons, List.length_append, List.length_singleton] at hFuel
      rcases Nat.exists_eq_add_one_of_ne_zero (show fuel ≠ 0 by omega) with ⟨fuel, rfl⟩
      have hLt : ws.flatten.length < fuel := by omega
      rcases parseList_items ih hLt [] (ch 'e' :: r) with ⟨fuel', a', hLess, hEq⟩
      rcases Nat.exists_eq_add_one_of_ne_zero (show fuel' ≠ 0 by omega) with ⟨fuel', rfl⟩
      have hText : ch 'l' :: ws.flatten ++ [ch 'e'] ++ r =
          ch 'l' :: (ws.flatten ++ ch 'e' :: r) := by simp
      rw [hText, parseFuel_l _ (by simp), hEq]
      exact ⟨.list a', by simp [parseList]⟩
  | @dict es keys values ih =>
      refine ⟨enters_bracket (by decide) _, fun fuel hFuel r => ?_⟩
      rw [List.cons_append, List.length_cons, List.length_append, List.length_singleton] at hFuel
      rcases Nat.exists_eq_add_one_of_ne_zero (show fuel ≠ 0 by omega) with ⟨fuel, rfl⟩
      have hText : ch 'd' :: entries es ++ [ch 'e'] ++ r =
          ch 'd' :: (entries es ++ ch 'e' :: r) := by simp
      have hLt : (entries es).length < fuel := by omega
      rcases parseDict_entries keys ih hLt (ch 'd' :: (entries es ++ ch 'e' :: r)) []
        (ch 'e' :: r) with ⟨fuel', map', hLess, hEq⟩
      rcases Nat.exists_eq_add_one_of_ne_zero (show fuel' ≠ 0 by omega) with ⟨fuel', rfl⟩
      rw [hText, parseFuel_d _ (by simp), hEq]
      exact ⟨.dict _ map', by simp [parseDict]; rfl⟩

/-! ## Where one byte seems to be left -/

/-- The texts that end after two digits of an integer or more, or in a list or a dictionary, not
in one of its items or values, after the first byte of the next item or key. -/
inductive Slips : Bytes → Prop
  | int (neg : Bool) {ds : Bytes} (digits : ∀ c ∈ ds, isDigit c = true) (two : 2 ≤ ds.length)
      (lead : ds.head? ≠ some (ch '0')) : Slips (ch 'i' :: (sign neg ++ ds))
  | listHead {ws : List Bytes} (items : ∀ w ∈ ws, Bencoded w) {c : UInt8} (inside : c ≠ ch 'e') :
      Slips (ch 'l' :: (ws.flatten ++ [c]))
  | listItem {ws : List Bytes} (items : ∀ w ∈ ws, Bencoded w) {p : Bytes} (slip : Slips p) :
      Slips (ch 'l' :: (ws.flatten ++ p))
  | dictHead {es : List (Bytes × Bytes)} (keys : ∀ e ∈ es, e.1.length < 2 ^ 31)
      (values : ∀ e ∈ es, Bencoded e.2) {c : UInt8} (inside : c ≠ ch 'e') :
      Slips (ch 'd' :: (entries es ++ [c]))
  | dictValue {es : List (Bytes × Bytes)} (keys : ∀ e ∈ es, e.1.length < 2 ^ 31)
      (values : ∀ e ∈ es, Bencoded e.2) {k : Bytes} (short : k.length < 2 ^ 31) {p : Bytes}
      (slip : Slips p) : Slips (ch 'd' :: (entries es ++ (packStr k ++ p)))

/-- The loop stops before the last digit. -/
theorem intLoop_digits (n : BitVec 64) {ds : Bytes} (h : ∀ c ∈ ds, isDigit c = true)
    (hNil : ds ≠ []) : ∃ m c, intLoop n ds = (m, [c]) ∧ isDigit c = true := by
  fun_induction intLoop n ds with
  | case1 n c c' s hDigit ih =>
      exact ih (fun x hx => h x (List.mem_cons_of_mem c hx)) (List.cons_ne_nil c' s)
  | case2 n c c' s hDigit => exact absurd (h c List.mem_cons_self) hDigit
  | case3 n s hShort =>
      cases s with
      | nil => exact absurd rfl hNil
      | cons c s =>
          cases s with
          | nil => exact ⟨n, c, rfl, h c List.mem_cons_self⟩
          | cons c' s => exact absurd rfl (hShort c c' s)

/-- So it finds a digit where the end of the integer should be. -/
theorem parseDigits_digits (neg : Bool) {ds : Bytes} (h : ∀ c ∈ ds, isDigit c = true)
    (hTwo : 2 ≤ ds.length) (hLead : ds.head? ≠ some (ch '0')) :
    parseDigits neg ds = (none, 1) := by
  cases ds with
  | nil => simp at hTwo
  | cons c ds =>
      cases ds with
      | nil => simp at hTwo
      | cons c' ds =>
          have hZero : ¬ (c = ch '0' ∧ c' ≠ ch 'e') := fun hBoth => hLead (congrArg some hBoth.1)
          rcases intLoop_digits (BitVec.ofNat 64 (digitVal c))
            (fun x hx => h x (List.mem_cons_of_mem c hx)) (List.cons_ne_nil c' ds) with
            ⟨m, d, hLoop, hDigit⟩
          have hEnd : d ≠ ch 'e' := by
            rintro rfl
            exact absurd hDigit (by decide)
          rw [parseDigits, if_pos (h c List.mem_cons_self), if_neg hZero, hLoop]
          simp [hEnd]

/-- A child that fails is where the loop of a list ends. -/
theorem parseList_fail {fuel k : Nat} {q : Bytes} (hEnters : Enters q)
    (hChild : parseFuel fuel q = (none, k)) (a : List BeNode) :
    parseList (fuel + 1) q a = (none, k) := by
  have hGuard := hEnters.guard []
  rw [List.append_nil] at hGuard
  rw [parseList.eq_def]
  simp only [if_pos hGuard, hChild]

theorem parseDict_fail {fuel k : Nat} {q : Bytes} (hEnters : Enters q)
    (hChild : parseFuel fuel q = (none, k)) (dBegin : Bytes) (map : List (Bytes × BeNode)) :
    parseDict (fuel + 1) dBegin q map = (none, k) := by
  have hGuard := hEnters.guard []
  rw [List.append_nil] at hGuard
  rw [parseDict.eq_def]
  simp only [if_pos hGuard, hChild]

theorem parseDict_value_fail {fuel k : Nat} {key q : Bytes} (hShort : key.length < 2 ^ 31)
    (hFuel : 0 < fuel) (hChild : parseFuel fuel q = (none, k)) (dBegin : Bytes)
    (map : List (Bytes × BeNode)) :
    parseDict (fuel + 1) dBegin (packStr key ++ q) map = (none, k) := by
  have hGuard := (enters_packStr key).guard q
  have hKey := parseFuel_packStr hShort fuel hFuel q
  rw [parseDict.eq_def]
  simp only [if_pos hGuard, hKey, drop_rest, hChild]

theorem parseList_single (fuel : Nat) {c : UInt8} (h : c ≠ ch 'e') (a : List BeNode) :
    parseList (fuel + 1) [c] a = (none, 1) := by
  simp [parseList, h]

theorem parseDict_single (fuel : Nat) {c : UInt8} (h : c ≠ ch 'e') (dBegin : Bytes)
    (map : List (Bytes × BeNode)) : parseDict (fuel + 1) dBegin [c] map = (none, 1) := by
  simp [parseDict, h]

theorem Slips.enters {p : Bytes} (h : Slips p) : Enters p := by
  have hLetter : ∀ {c : UInt8}, c ≠ ch 'e' → ∀ {q : Bytes}, 0 < q.length → Enters (c :: q) := by
    intro c hc q hq
    exact ⟨by rw [List.length_cons]; omega, fun hHead => hc (Option.some.inj hHead)⟩
  induction h with
  | int neg _ two _ =>
      apply hLetter (by decide)
      rw [List.length_append]
      omega
  | listHead _ _ => exact hLetter (by decide) (by simp)
  | listItem _ _ ih =>
      have hTwo := ih.1
      apply hLetter (by decide)
      rw [List.length_append]
      omega
  | dictHead _ _ _ => exact hLetter (by decide) (by simp)
  | dictValue _ _ _ _ ih =>
      have hTwo := ih.1
      apply hLetter (by decide)
      rw [List.length_append, List.length_append]
      omega

/-- After whole items `Parse` is in the loop with what follows. -/
theorem parseFuel_items {ws : List Bytes} (h : ∀ w ∈ ws, Bencoded w) {q : Bytes}
    (hSome : ws.flatten ++ q ≠ []) {fuel : Nat}
    (hFuel : 2 * (ch 'l' :: (ws.flatten ++ q)).length ≤ fuel) :
    ∃ fuel' a, 2 * q.length ≤ fuel' ∧
      parseFuel fuel (ch 'l' :: (ws.flatten ++ q)) = parseList (fuel' + 1) q a := by
  rw [List.length_cons, List.length_append] at hFuel
  rcases Nat.exists_eq_add_one_of_ne_zero (show fuel ≠ 0 by omega) with ⟨fuel, rfl⟩
  have hLt : ws.flatten.length < fuel := by omega
  rcases parseList_items (fun w hw => (h w hw).complete) hLt [] q with ⟨fuel', a, hLess, hEq⟩
  rcases Nat.exists_eq_add_one_of_ne_zero (show fuel' ≠ 0 by omega) with ⟨fuel', rfl⟩
  exact ⟨fuel', a, by omega, by rw [parseFuel_l _ hSome, hEq]⟩

/-- After whole entries as well. -/
theorem parseFuel_entries {es : List (Bytes × Bytes)} (hKeys : ∀ e ∈ es, e.1.length < 2 ^ 31)
    (h : ∀ e ∈ es, Bencoded e.2) {q : Bytes} (hSome : entries es ++ q ≠ []) {fuel : Nat}
    (hFuel : 2 * (ch 'd' :: (entries es ++ q)).length ≤ fuel) :
    ∃ fuel' dBegin map, 2 * q.length ≤ fuel' ∧
      parseFuel fuel (ch 'd' :: (entries es ++ q)) = parseDict (fuel' + 1) dBegin q map := by
  rw [List.length_cons, List.length_append] at hFuel
  rcases Nat.exists_eq_add_one_of_ne_zero (show fuel ≠ 0 by omega) with ⟨fuel, rfl⟩
  have hLt : (entries es).length < fuel := by omega
  rcases parseDict_entries hKeys (fun e he => (h e he).complete) hLt
    (ch 'd' :: (entries es ++ q)) [] q with ⟨fuel', map, hLess, hEq⟩
  rcases Nat.exists_eq_add_one_of_ne_zero (show fuel' ≠ 0 by omega) with ⟨fuel', rfl⟩
  exact ⟨fuel', _, map, by omega, by rw [parseFuel_d _ hSome, hEq]⟩

/-- There `Parse` says that a byte is left. -/
theorem Slips.parseFuel_eq {p : Bytes} (h : Slips p) :
    ∀ fuel, 2 * p.length ≤ fuel → parseFuel fuel p = (none, 1) := by
  induction h with
  | @int neg ds digits two lead =>
      intro fuel hFuel
      have hNil : ds ≠ [] := List.ne_nil_of_length_pos (by omega)
      have hMinus := head_ne_minus digits [] hNil
      rw [List.append_nil] at hMinus
      rw [List.length_cons] at hFuel
      rcases Nat.exists_eq_add_one_of_ne_zero (show fuel ≠ 0 by omega) with ⟨fuel, rfl⟩
      rw [parseFuel_i _ (List.append_ne_nil_of_right_ne_nil _ hNil), parseInt_sign neg hMinus,
        parseDigits_digits neg digits two lead]
  | listHead items inside =>
      intro fuel hFuel
      rcases parseFuel_items items (by simp) hFuel with ⟨fuel', a, -, hEq⟩
      rw [hEq, parseList_single _ inside]
  | listItem items slip ih =>
      intro fuel hFuel
      have hNil := List.ne_nil_of_length_pos (Nat.lt_of_lt_of_le Nat.two_pos slip.enters.1)
      rcases parseFuel_items items (List.append_ne_nil_of_right_ne_nil _ hNil) hFuel with
        ⟨fuel', a, hLess, hEq⟩
      rw [hEq, parseList_fail slip.enters (ih fuel' hLess)]
  | dictHead keys values inside =>
      intro fuel hFuel
      rcases parseFuel_entries keys values (by simp) hFuel with ⟨fuel', dBegin, map, -, hEq⟩
      rw [hEq, parseDict_single _ inside]
  | @dictValue es keys values k short p slip ih =>
      intro fuel hFuel
      have hTwo := two_le_length_packStr k
      have hNil : packStr k ++ p ≠ [] := List.append_ne_nil_of_left_ne_nil
        (List.ne_nil_of_length_pos (Nat.lt_of_lt_of_le Nat.two_pos hTwo)) p
      rcases parseFuel_entries keys values (List.append_ne_nil_of_right_ne_nil _ hNil) hFuel with
        ⟨fuel', dBegin, map, hLess, hEq⟩
      rw [List.length_append] at hLess
      rw [hEq, parseDict_value_fail short (by omega) (ih fuel' (by omega))]

/-! ## Where more is awaited -/

/-- `Parse` waits for more. -/
def Awaits (p : Bytes) : Prop := ∀ fuel, 2 * p.length ≤ fuel → parseFuel fuel p = (none, 0)

theorem awaits_short {p : Bytes} (h : p.length < 2) : Awaits p := by
  intro fuel _
  cases fuel with
  | zero => rfl
  | succ fuel =>
      rw [parseFuel.eq_def]
      simp [h]

/-- The loop over the length stops for want of bytes or at the first byte that is no digit. -/
theorem lengthLoop_cases {ds r : Bytes} {n : Nat} (hDigits : ∀ c ∈ ds, isDigit c = true)
    (hStop : ∀ c s, r = c :: s → isDigit c = false) (hSmall : horner n ds < 2 ^ 31) :
    lengthLoop n (ds ++ r) = none ∨ lengthLoop n (ds ++ r) = some ((horner n ds : Int), r) := by
  induction ds generalizing n with
  | nil =>
      right
      cases r with
      | nil => rfl
      | cons c s => simp [lengthLoop, hStop c s rfl]
  | cons c ds ih =>
      rw [horner_cons] at hSmall
      have hNext := le_horner (n * 10 + digitVal c) ds
      have hStep : ((n : Int) * 10 + digitVal c).bmod (2 ^ 32) =
          ((n * 10 + digitVal c : Nat) : Int) := by
        rw [Int.bmod_eq_of_le (by omega) (by omega)]
        rfl
      rw [List.cons_append, lengthLoop, if_pos (hDigits c List.mem_cons_self), hStep, horner_cons]
      split
      · exact .inl rfl
      · exact ih (fun x hx => hDigits x (List.mem_cons_of_mem c hx)) hSmall

/-- A length that is cut off, or followed by too few bytes. -/
theorem awaits_length {ds r : Bytes} (hDigits : ∀ c ∈ ds, isDigit c = true) (hNil : ds ≠ [])
    (hSmall : horner 0 ds < 2 ^ 31)
    (hRest : r = [] ∨ ∃ q, r = ch ':' :: q ∧ q.length < horner 0 ds) : Awaits (ds ++ r) := by
  intro fuel hFuel
  by_cases hShort : (ds ++ r).length < 2
  · exact awaits_short hShort fuel hFuel
  · rcases List.exists_cons_of_ne_nil hNil with ⟨c, ds, rfl⟩
    rw [List.cons_append] at hShort hFuel ⊢
    rw [List.length_cons] at hShort hFuel
    rw [horner_cons, Nat.zero_mul, Nat.zero_add] at hSmall hRest
    rcases Nat.exists_eq_add_one_of_ne_zero (show fuel ≠ 0 by omega) with ⟨fuel, rfl⟩
    have hDigit := hDigits c List.mem_cons_self
    have hStop : ∀ x t, r = x :: t → isDigit x = false := by
      intro x t hr
      rcases hRest with hEmpty | ⟨q, hColon, -⟩
      · rw [hEmpty] at hr
        exact absurd hr (List.cons_ne_nil x t).symm
      · rw [hColon] at hr
        rw [← (List.cons.inj hr).1]
        exact isDigit_colon
    rw [parseFuel_digit fuel (List.ne_nil_of_length_pos (by omega)) hDigit, parseStr, if_pos hDigit]
    rcases lengthLoop_cases (fun x hx => hDigits x (List.mem_cons_of_mem c hx)) hStop hSmall with
      hOut | hLoop
    · rw [hOut]
    · rw [hLoop]
      rcases hRest with hEmpty | ⟨q, hColon, hFew⟩
      · rw [hEmpty]
      · rw [hColon]
        dsimp only
        rw [if_neg (by simp), if_pos (.inl (by omega))]

/-- A string that is cut off. -/
theorem awaits_packStr {s p : Bytes} (hShort : s.length < 2 ^ 31) (hp : p <+: packStr s)
    (hCut : p ≠ packStr s) : Awaits p := by
  have hDigits := isDigit_of_mem_decimal s.length
  have hValue := horner_decimal s.length
  rcases List.prefix_or_prefix_of_prefix hp (List.prefix_append _ _) with hInside | hPast
  · by_cases hNil : p = []
    · exact awaits_short (by simp [hNil])
    · rcases hInside with ⟨t, ht⟩
      rw [← ht, horner_append] at hValue
      have hLe := le_horner (horner 0 p) t
      have hAll : ∀ c ∈ p, isDigit c = true := fun c hc =>
        hDigits c (ht ▸ List.mem_append_left t hc)
      have hAwaits := awaits_length (r := []) hAll hNil (by omega) (.inl rfl)
      rwa [List.append_nil] at hAwaits
  · rcases hPast with ⟨q, rfl⟩
    have hq : q <+: ch ':' :: s := (List.prefix_append_right_inj _).mp hp
    apply awaits_length hDigits (decimal_ne_nil _) (by omega)
    rcases List.prefix_cons_iff.mp hq with hEmpty | ⟨q', hColon, hq'⟩
    · exact .inl hEmpty
    · refine .inr ⟨q', hColon, ?_⟩
      rw [hValue]
      apply Nat.lt_of_le_of_ne hq'.length_le
      intro hLength
      exact hCut (by rw [hColon, hq'.eq_of_length hLength]; rfl)

theorem parseDigits_short (neg : Bool) {ds : Bytes} (h : ds.length < 2) :
    parseDigits neg ds = (none, 0) := by
  cases ds with
  | nil => rfl
  | cons c ds =>
      cases ds with
      | nil => rfl
      | cons c' ds =>
          simp only [List.length_cons] at h
          omega

/-- The digits read so far. -/
theorem cut_digits (neg : Bool) (m : Nat) {ds : Bytes} (h : ds <+: decimal m) :
    Slips (ch 'i' :: (sign neg ++ ds)) ∨ Awaits (ch 'i' :: (sign neg ++ ds)) := by
  have hDigits : ∀ c ∈ ds, isDigit c = true := fun c hc =>
    isDigit_of_mem_decimal m c (h.subset hc)
  by_cases hTwo : 2 ≤ ds.length
  · refine .inl (.int neg hDigits hTwo fun hZero => ?_)
    rcases h with ⟨t, ht⟩
    cases ds with
    | nil => simp at hTwo
    | cons c ds =>
        have hm : m = 0 := by
          apply eq_zero_of_head_decimal (s := ds ++ t)
          rw [← ht, Option.some.inj hZero]
          rfl
        rw [hm, decimal_of_lt (by decide)] at ht
        have hLength := congrArg List.length ht
        simp only [List.length_append, List.length_cons, List.length_nil] at hLength hTwo
        omega
  · right
    intro fuel hFuel
    by_cases hShort : (ch 'i' :: (sign neg ++ ds)).length < 2
    · exact awaits_short hShort fuel hFuel
    · rw [List.length_cons] at hShort hFuel
      rcases Nat.exists_eq_add_one_of_ne_zero (show fuel ≠ 0 by omega) with ⟨fuel, rfl⟩
      have hMinus : ds.head? ≠ some (ch '-') := by
        by_cases hNil : ds = []
        · simp [hNil]
        · have hHead := head_ne_minus hDigits [] hNil
          rwa [List.append_nil] at hHead
      rw [parseFuel_i _ (List.ne_nil_of_length_pos (by omega)), parseInt_sign neg hMinus,
        parseDigits_short neg (by omega)]

/-- An integer that is cut off before its end waits or slips. -/
theorem cut_int (neg : Bool) (m : Nat) {p : Bytes} (hp : p <+: ch 'i' :: (sign neg ++ decimal m)) :
    Slips p ∨ Awaits p := by
  rcases List.prefix_cons_iff.mp hp with hNil | ⟨q, rfl, hq⟩
  · exact .inr (awaits_short (by simp [hNil]))
  · cases neg with
    | false => exact cut_digits false m hq
    | true =>
        rcases List.prefix_cons_iff.mp hq with hEmpty | ⟨ds, rfl, hds⟩
        · exact .inr (awaits_short (by simp [hEmpty]))
        · exact cut_digits true m hds

theorem parseList_nil (fuel : Nat) (a : List BeNode) :
    parseList (fuel + 1) [] a = (none, 0) := by
  simp [parseList]

theorem parseDict_nil (fuel : Nat) (dBegin : Bytes) (map : List (Bytes × BeNode)) :
    parseDict (fuel + 1) dBegin [] map = (none, 0) := by
  simp [parseDict]

/-- What is cut off a text with its last byte is cut off the rest. -/
theorem prefix_of_cut {p body : Bytes} {c e : UInt8} (hp : p <+: c :: body ++ [e])
    (hCut : p ≠ c :: body ++ [e]) : p = [] ∨ ∃ q, p = c :: q ∧ q <+: body := by
  rcases List.prefix_concat_iff.mp hp with hWhole | hInside
  · exact absurd hWhole hCut
  · exact List.prefix_cons_iff.mp hInside

/-- A text that begins like an item, but is not whole. -/
theorem Enters.of_prefix {w q : Bytes} (h : Enters w) (hq : q <+: w) (hTwo : 2 ≤ q.length) :
    Enters q := by
  refine ⟨hTwo, ?_⟩
  rcases hq with ⟨t, rfl⟩
  cases q with
  | nil => simp at hTwo
  | cons c q => exact h.2

/-- A text of one byte that an item begins with. -/
theorem Enters.single {w q : Bytes} (h : Enters w) (hq : q <+: w) (hNil : q ≠ [])
    (hShort : ¬ 2 ≤ q.length) : ∃ c, q = [c] ∧ c ≠ ch 'e' := by
  rcases hq with ⟨t, rfl⟩
  cases q with
  | nil => exact absurd rfl hNil
  | cons c q =>
      have hEnd : q = [] := List.eq_nil_of_length_eq_zero (by
        rw [List.length_cons] at hShort
        omega)
      exact ⟨c, by rw [hEnd], fun hc => h.2 (congrArg some hc)⟩

/-- A list that is cut off after whole items, or in the next one. -/
theorem cut_list {ws : List Bytes} (items : ∀ w ∈ ws, Bencoded w) {q : Bytes}
    (hEnd : q = [] ∨ q ≠ [] ∧ ∃ w, Bencoded w ∧ q <+: w ∧ (Slips q ∨ Awaits q)) :
    Slips (ch 'l' :: (ws.flatten ++ q)) ∨ Awaits (ch 'l' :: (ws.flatten ++ q)) := by
  rcases hEnd with rfl | ⟨hNil, w, hw, hq, hOr⟩
  · right
    intro fuel hFuel
    by_cases hNone : ws.flatten ++ [] = []
    · exact awaits_short (by rw [hNone]; exact Nat.one_lt_two) fuel hFuel
    · rcases parseFuel_items items hNone hFuel with ⟨fuel', a, -, hEq⟩
      rw [hEq, parseList_nil]
  · have hEnters := hw.complete.1
    by_cases hTwo : 2 ≤ q.length
    · rcases hOr with hSlips | hAwaits
      · exact .inl (.listItem items hSlips)
      · right
        intro fuel hFuel
        rcases parseFuel_items items (List.append_ne_nil_of_right_ne_nil _ hNil) hFuel with
          ⟨fuel', a, hLess, hEq⟩
        rw [hEq, parseList_fail (hEnters.of_prefix hq hTwo) (hAwaits fuel' hLess)]
    · rcases hEnters.single hq hNil hTwo with ⟨c, rfl, hc⟩
      exact .inl (.listHead items hc)

/-- A dictionary that is cut off after whole entries, or in the next one. -/
theorem cut_dict {es : List (Bytes × Bytes)} (keys : ∀ e ∈ es, e.1.length < 2 ^ 31)
    (values : ∀ e ∈ es, Bencoded e.2) {q : Bytes}
    (hEnd : q = [] ∨ q ≠ [] ∧ ∃ e : Bytes × Bytes, e.1.length < 2 ^ 31 ∧ Bencoded e.2 ∧
      q <+: packStr e.1 ++ e.2 ∧ q ≠ packStr e.1 ++ e.2 ∧
      ∀ p, p <+: e.2 → p ≠ e.2 → Slips p ∨ Awaits p) :
    Slips (ch 'd' :: (entries es ++ q)) ∨ Awaits (ch 'd' :: (entries es ++ q)) := by
  rcases hEnd with rfl | ⟨hNil, e, hKey, -, hq, hCut, hValue⟩
  · right
    intro fuel hFuel
    by_cases hNone : entries es ++ [] = []
    · exact awaits_short (by rw [hNone]; exact Nat.one_lt_two) fuel hFuel
    · rcases parseFuel_entries keys values hNone hFuel with ⟨fuel', dBegin, map, -, hEq⟩
      rw [hEq, parseDict_nil]
  · have hEnters : Enters (packStr e.1 ++ e.2) := (enters_packStr e.1).guard e.2
    have hSome : entries es ++ q ≠ [] := List.append_ne_nil_of_right_ne_nil _ hNil
    by_cases hTwo : 2 ≤ q.length
    · by_cases hPast : packStr e.1 <+: q
      · rcases hPast with ⟨v, rfl⟩
        have hv : v <+: e.2 := (List.prefix_append_right_inj _).mp hq
        have hvCut : v ≠ e.2 := fun hEq => hCut (by rw [hEq])
        rcases hValue v hv hvCut with hSlips | hAwaits
        · exact .inl (.dictValue keys values hKey hSlips)
        · right
          intro fuel hFuel
          have hLength := two_le_length_packStr e.1
          rcases parseFuel_entries keys values hSome hFuel with ⟨fuel', dBegin, map, hLess, hEq⟩
          rw [List.length_append] at hLess
          rw [hEq, parseDict_value_fail hKey (by omega) (hAwaits fuel' (by omega))]
      · have hInside := (List.prefix_or_prefix_of_prefix hq (List.prefix_append _ _)).resolve_right
          hPast
        have hAwaits := awaits_packStr hKey hInside fun hEq => hPast (hEq ▸ List.prefix_rfl)
        right
        intro fuel hFuel
        rcases parseFuel_entries keys values hSome hFuel with ⟨fuel', dBegin, map, hLess, hEq⟩
        rw [hEq, parseDict_fail (hEnters.of_prefix hq hTwo) (hAwaits fuel' hLess)]
    · rcases hEnters.single hq hNil hTwo with ⟨c, rfl, hc⟩
      exact .inl (.dictHead keys values hc)

/-- A text that is cut off waits or slips. -/
theorem Bencoded.cut {e : Bytes} (h : Bencoded e) :
    ∀ p, p <+: e → p ≠ e → Slips p ∨ Awaits p := by
  induction h with
  | str short => exact fun p hp hCut => .inr (awaits_packStr short hp hCut)
  | int neg m =>
      intro p hp hCut
      rcases List.prefix_concat_iff.mp hp with hWhole | hInside
      · exact absurd hWhole hCut
      · exact cut_int neg m hInside
  | @list ws items ih =>
      intro p hp hCut
      rcases prefix_of_cut hp hCut with hNil | ⟨q, rfl, hq⟩
      · exact .inr (awaits_short (by simp [hNil]))
      · rw [← List.flatMap_id] at hq
        rcases prefix_flatMap_cases hq with ⟨ws₁, q', hSub, rfl, hEnd⟩
        rw [List.flatMap_id]
        exact cut_list (fun w hw => items w (hSub hw)) (hEnd.imp id fun hPart => ⟨hPart.1, by
          rcases hPart.2 with ⟨w, hw, hCut'⟩
          exact ⟨w, items w hw, hCut'.1, ih w hw q' hCut'.1 hCut'.2⟩⟩)
  | @dict es keys values ih =>
      intro p hp hCut
      rcases prefix_of_cut hp hCut with hNil | ⟨q, rfl, hq⟩
      · exact .inr (awaits_short (by simp [hNil]))
      · rcases prefix_flatMap_cases hq with ⟨es₁, q', hSub, rfl, hEnd⟩
        exact cut_dict (fun e he => keys e (hSub he)) (fun e he => values e (hSub he))
          (hEnd.imp id fun hPart => ⟨hPart.1, by
            rcases hPart.2 with ⟨e, he, hCut'⟩
            exact ⟨e, keys e he, values e he, hCut'.1, hCut'.2, ih e he⟩⟩)

/-! ## What the caller sees -/

/-- No node and no byte left, so that `UnpackBencoded` asks for more data. -/
structure Waits (p : Bytes) : Prop where
  parse : parse p = (none, 0)
  unpack : ∀ (b : RecvBuf) (c : TorrentPacket.Cursor) (limit : Nat),
    (b.data.drop c.unpacked).take (limit - c.unpacked) = p →
      unpackBencoded b c limit = .error (starved b)

theorem waits_iff {p : Bytes} : Waits p ↔ parse p = (none, 0) := by
  refine ⟨Waits.parse, fun hParse => ⟨hParse, fun b c limit hText => ?_⟩⟩
  unfold unpackBencoded
  dsimp only
  rw [hText, hParse]
  rfl

/-- The beginning of a bencoded text is waited on exactly when it does not end at one of the
places where a byte seems to be left. -/
theorem cut_waits_iff {e p : Bytes} (h : Bencoded e) (hp : p <+: e) (hCut : p ≠ e) :
    Waits p ↔ ¬ Slips p := by
  rw [waits_iff]
  constructor
  · intro hWaits hSlips
    have hOne : parse p = (none, 1) := hSlips.parseFuel_eq _ (Nat.le_refl _)
    rw [hWaits] at hOne
    exact absurd (congrArg Prod.snd hOne) (by decide)
  · intro hNot
    exact (h.cut p hp hCut).resolve_left hNot _ (Nat.le_refl _)

theorem cut_waits_string : Waits (bytes "4:sp") ↔ ¬ Slips (bytes "4:sp") := by
  have hWhole : Bencoded (bytes "4:spam") := @Bencoded.str (bytes "spam") (by decide)
  exact cut_waits_iff hWhole (by decide) (by decide)

/-- Two digits of a number are taken for something malformed. -/
theorem not_cut_waits :
    ∃ e p : Bytes, Bencoded e ∧ p <+: e ∧ p ≠ e ∧ parse p = (none, 1) ∧ ¬ Waits p := by
  have hWhole : Bencoded (bytes "i123e") := .int false 123
  have hParse : parse (bytes "i12") = (none, 1) := rfl
  refine ⟨_, bytes "i12", hWhole, by decide, by decide, hParse, fun hWaits => ?_⟩
  rw [hWaits.parse] at hParse
  exact absurd (congrArg Prod.snd hParse) (by decide)

example : (parse (bytes "li")).2 = 1 := by decide +kernel

example : (parse (bytes "d1:a0:1")).2 = 1 := by decide +kernel

/-! ## What the packer writes -/

end Lftp.Ports.Bencode
