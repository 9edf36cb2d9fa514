import Lftp.Ports.Url

/-!
# Passwords in URLs

`url::find_password_pos`, `hide_password` and `remove_password`, beside the parser. They search for
the password on their own: after the first `://`, up to the first `@`, where the parser takes the
last one before the path.

* `parse_pass` says where the parser finds the password.
* `agrees_iff_same`: hiding and removing agree with the parser when both find the same place.
* `agrees_iff`: they do for URLs with a protocol and one `@` before the path, and for others
  without a password and without a URL further on.
-/

namespace Lftp.Ports.UrlPassword

open Lftp.Verified
open Lftp.Ports.Url

/-! ## The code -/

/-- `strstr`: the index of the first occurrence. -/
def strstr (needle : Bytes) : Bytes → Option Nat
  | [] => if needle = [] then some 0 else none
  | c :: s => if needle.isPrefixOf (c :: s) then some 0 else (strstr needle s).map (· + 1)

/-- `find_password_pos` after `scan+=3`, for the text `scan` at the index `pos`. -/
def scanPassword (pos : Nat) (scan : Bytes) : Option (Nat × Nat) :=
  if ch '@' ∉ scan then none
  else if ch ':' ∉ scan ∨ scan.idxOf (ch ':') > scan.idxOf (ch '@') then none
  else if ch '/' ∈ scan ∧ scan.idxOf (ch '/') < scan.idxOf (ch '@') then none
  else some (pos + scan.idxOf (ch ':') + 1, scan.idxOf (ch '@') - scan.idxOf (ch ':') - 1)

/-- `url::find_password_pos`: `start` and `len`. -/
def find_password_pos (url : Bytes) : Option (Nat × Nat) :=
  match strstr (bytes "://") url with
  | none => none
  | some pos => scanPassword (pos + 3) (url.drop (pos + 3))

/-- `url::hide_password`. -/
def hide_password (url : Bytes) : Bytes :=
  match find_password_pos url with
  | none => url
  | some (start, len) => url.take start ++ bytes "XXXX" ++ url.drop (start + len)

/-- `url::remove_password`; the colon goes as well. -/
def remove_password (url : Bytes) : Bytes :=
  match find_password_pos url with
  | none => url
  | some (start, len) => url.take (start - 1) ++ url.drop (start + len)

/-! ## The parser's password -/

/-- Where `parseConnect` finds the password, in a text at the index `pos`. -/
def connectPassword (pos : Nat) (base : Bytes) : Option (Nat × Nat) :=
  match splitLast (ch '@') (trimColon (base.takeWhile (· ≠ ch '/'))) with
  | none => none
  | some (name, _) =>
    if ch ':' ∈ name then
      some (pos + name.idxOf (ch ':') + 1, name.length - name.idxOf (ch ':') - 1)
    else none

/-- Where `parse` finds it. -/
def passwordPos (env : Names) (protoRequired : Bool) (url : Bytes) : Option (Nat × Nat) :=
  let proto := url.takeWhile isAlpha
  let scan := url.dropWhile isAlpha
  if (bytes "://").isPrefixOf scan then
    let base := scan.drop 3
    if proto = bytes "file" && base.head? = some (ch '/') then none
    else connectPassword (proto.length + 3) base
  else if scan.head? = some (ch ':') && (bytes "file:").isPrefixOf url then none
  else if scan.head? = some (ch ':')
      && (((bytes "slot:").isPrefixOf url && env.validSlot (scan.drop 1))
        || ((bytes "bm:").isPrefixOf url && env.validBm (scan.drop 1))) then none
  else if protoRequired then none
  else connectPassword 0 url

/-- Hiding and removing change exactly the characters at the parser's place, if there is one. -/
def Agrees (env : Names) (protoRequired : Bool) (url : Bytes) : Prop :=
  match passwordPos env protoRequired url with
  | some (start, len) =>
    hide_password url = url.take start ++ bytes "XXXX" ++ url.drop (start + len) ∧
      remove_password url = url.take (start - 1) ++ url.drop (start + len)
  | none => hide_password url = url ∧ remove_password url = url

/-- The text between the protocol and the path. -/
def authority (url : Bytes) : Bytes :=
  ((url.dropWhile isAlpha).drop 3).takeWhile (· ≠ ch '/')

/-- After the first `://` there is a text with a colon, and the first `@` before a slash. -/
def Embedded (url : Bytes) : Prop :=
  ∃ a b c, url = a ++ (bytes "://" ++ (b ++ ch '@' :: c)) ∧
    (∀ x y, url = x ++ (bytes "://" ++ y) → a.length ≤ x.length) ∧
    ch ':' ∈ b ∧ ch '@' ∉ b ∧ ch '/' ∉ b

/-! ## First occurrences -/

theorem idxOf_first {d : UInt8} {a : Bytes} (h : d ∉ a) (b : Bytes) :
    (a ++ d :: b).idxOf d = a.length := by
  rw [List.idxOf_append, if_neg h, List.idxOf_cons_self, Nat.zero_add]

/-- A string is searched for from the left. -/
theorem strstr_eq_some {needle s : Bytes} {i : Nat} (h : strstr needle s = some i) :
    ∃ a y, s = a ++ (needle ++ y) ∧ a.length = i ∧
      ∀ x z, s = x ++ (needle ++ z) → a.length ≤ x.length := by
  induction s generalizing i with
  | nil =>
      unfold strstr at h
      split_ifs at h with hNil
      obtain rfl := Option.some.inj h
      exact ⟨[], [], by rw [hNil]; rfl, rfl, fun x z _ => Nat.zero_le _⟩
  | cons c s ih =>
      rw [strstr] at h
      split_ifs at h with hPrefix
      · obtain rfl := Option.some.inj h
        obtain ⟨y, hy⟩ := List.isPrefixOf_iff_prefix.mp hPrefix
        exact ⟨[], y, hy.symm, rfl, fun x z _ => Nat.zero_le _⟩
      · obtain ⟨j, hj, rfl⟩ := Option.map_eq_some_iff.mp h
        obtain ⟨a, y, rfl, rfl, hFirst⟩ := ih hj
        refine ⟨c :: a, y, rfl, rfl, fun x z hx => ?_⟩
        cases x with
        | nil => exact absurd (List.isPrefixOf_iff_prefix.mpr ⟨z, hx.symm⟩) hPrefix
        | cons e x => exact Nat.succ_le_succ (hFirst x z (List.cons.inj hx).2)

theorem strstr_eq_none {needle s : Bytes} (h : strstr needle s = none) (x z : Bytes) :
    s ≠ x ++ (needle ++ z) := by
  induction s generalizing x with
  | nil =>
      intro hx
      unfold strstr at h
      split_ifs at h with hNil
      exact hNil (List.append_eq_nil_iff.mp (List.append_eq_nil_iff.mp hx.symm).2).1
  | cons c s ih =>
      intro hx
      rw [strstr] at h
      split_ifs at h with hPrefix
      cases x with
      | nil => exact hPrefix (List.isPrefixOf_iff_prefix.mpr ⟨z, hx.symm⟩)
      | cons e x => exact ih (Option.map_eq_none_iff.mp h) x (List.cons.inj hx).2

/-! ## The parser's place -/

theorem splitLast_eq_some {d : UInt8} {s a b : Bytes} (h : splitLast d s = some (a, b)) :
    s = a ++ d :: b ∧ d ∉ b := by
  by_cases hMem : d ∈ s
  · obtain ⟨x, y, rfl, hy⟩ := exists_last hMem
    rw [splitLast_append x hy] at h
    obtain ⟨rfl, rfl⟩ := Prod.mk.inj (Option.some.inj h)
    exact ⟨rfl, hy⟩
  · rw [splitLast_of_notMem hMem] at h
    cases h

theorem trimColon_cases (s : Bytes) : s = trimColon s ∨ s = trimColon s ++ [ch ':'] := by
  unfold trimColon
  split
  · next h =>
      right
      obtain ⟨t, rfl⟩ := List.getLast?_eq_some_iff.mp h
      rw [List.dropLast_concat]
  · exact Or.inl rfl

/-- The colon that is cut off is not in front of an `@`. -/
theorem trimColon_at (name rest : Bytes) :
    ∃ kept, trimColon (name ++ ch '@' :: rest) = name ++ ch '@' :: kept ∧
      (rest = kept ∨ rest = kept ++ [ch ':']) := by
  rcases trimColon_cases (name ++ ch '@' :: rest) with h | h
  · exact ⟨rest, h.symm, Or.inl rfl⟩
  · rcases List.eq_nil_or_concat rest with rfl | ⟨kept, c, rfl⟩
    · have hLast := List.append_inj_right' h rfl
      exact absurd hLast (by decide)
    · rw [List.concat_eq_append] at h ⊢
      rw [← List.cons_append, ← List.append_assoc] at h
      obtain ⟨hInit, hLast⟩ := List.append_inj' h rfl
      refine ⟨kept, ?_, Or.inr (by rw [hLast])⟩
      rw [← List.cons_append, ← List.append_assoc]
      exact hInit.symm

/-- The password is before the last `@`, after the first colon. -/
theorem connectPassword_eq_some {pos : Nat} {base : Bytes} {p : Nat × Nat} :
    connectPassword pos base = some p ↔
      ∃ user pass rest, base.takeWhile (· ≠ ch '/') = user ++ ch ':' :: (pass ++ ch '@' :: rest) ∧
        ch ':' ∉ user ∧ ch '@' ∉ rest ∧ p = (pos + user.length + 1, pass.length) := by
  unfold connectPassword
  generalize base.takeWhile (· ≠ ch '/') = seg
  have hPlace : ∀ user pass : Bytes, ch ':' ∉ user →
      (user ++ ch ':' :: pass).length - (user ++ ch ':' :: pass).idxOf (ch ':') - 1
        = pass.length := by
    intro user pass hUser
    rw [idxOf_first hUser, List.length_append, List.length_cons]
    omega
  constructor
  · intro h
    cases hSplit : splitLast (ch '@') (trimColon seg) with
    | none => simp [hSplit] at h
    | some both =>
        obtain ⟨name, r⟩ := both
        obtain ⟨hTrim, hRest⟩ := splitLast_eq_some hSplit
        simp only [hSplit] at h
        split_ifs at h with hColon
        obtain ⟨user, pass, rfl, hUser⟩ := List.eq_append_cons_of_mem hColon
        rw [hPlace user pass hUser, idxOf_first hUser] at h
        rcases trimColon_cases seg with hSeg | hSeg <;> rw [hTrim] at hSeg
        · exact ⟨user, pass, r, by rw [hSeg]; simp, hUser, hRest, (Option.some.inj h).symm⟩
        · refine ⟨user, pass, r ++ [ch ':'], by rw [hSeg]; simp, hUser, ?_,
            (Option.some.inj h).symm⟩
          rw [List.mem_append, not_or]
          exact ⟨hRest, by decide⟩
  · rintro ⟨user, pass, rest, rfl, hUser, hRest, rfl⟩
    have hText : user ++ ch ':' :: (pass ++ ch '@' :: rest)
        = (user ++ ch ':' :: pass) ++ ch '@' :: rest := by simp
    obtain ⟨kept, hTrim, hKept⟩ := trimColon_at (user ++ ch ':' :: pass) rest
    have hNot : ch '@' ∉ kept := by
      rcases hKept with rfl | rfl
      · exact hRest
      · exact fun h => hRest (List.mem_append_left _ h)
    rw [hText, hTrim, splitLast_append _ hNot]
    simp only
    rw [if_pos (by simp), hPlace user pass hUser, idxOf_first hUser]

/-- The search takes the first `@` and the first colon. -/
theorem scanPassword_eq_some {pos : Nat} {scan : Bytes} {p : Nat × Nat} :
    scanPassword pos scan = some p ↔
      ∃ user pass rest, scan = user ++ ch ':' :: (pass ++ ch '@' :: rest) ∧ ch ':' ∉ user ∧
        ch '@' ∉ user ++ ch ':' :: pass ∧ ch '/' ∉ user ++ ch ':' :: pass ∧
        p = (pos + user.length + 1, pass.length) := by
  constructor
  · intro h
    unfold scanPassword at h
    split_ifs at h with hAt hColon hSlash
    obtain ⟨b, rest, rfl, hb⟩ := List.eq_append_cons_of_mem hAt
    rw [not_or, not_not, Nat.not_lt] at hColon
    rw [idxOf_first hb] at hColon hSlash h
    have hIn : ch ':' ∈ b := by
      by_contra hNot
      have hIdx := hColon.2
      rw [List.idxOf_append, if_neg hNot, List.idxOf_cons,
        show (ch '@' == ch ':') = false from by decide, cond_false] at hIdx
      omega
    have hNoSlash : ch '/' ∉ b := by
      intro hMem
      refine hSlash ⟨List.mem_append_left _ hMem, ?_⟩
      rw [List.idxOf_append, if_pos hMem]
      exact List.idxOf_lt_length_iff.mpr hMem
    obtain ⟨user, pass, rfl, hUser⟩ := List.eq_append_cons_of_mem hIn
    refine ⟨user, pass, rest, by simp, hUser, hb, hNoSlash, ?_⟩
    rw [List.append_assoc, List.cons_append, idxOf_first hUser, List.length_append,
      List.length_cons] at h
    rw [← Option.some.inj h]
    congr 1
    omega
  · rintro ⟨user, pass, rest, rfl, hUser, hAt, hSlash, rfl⟩
    have hText : user ++ ch ':' :: (pass ++ ch '@' :: rest)
        = (user ++ ch ':' :: pass) ++ ch '@' :: rest := by simp
    have hColonIdx : (user ++ ch ':' :: (pass ++ ch '@' :: rest)).idxOf (ch ':') = user.length :=
      idxOf_first hUser _
    have hAtIdx : (user ++ ch ':' :: (pass ++ ch '@' :: rest)).idxOf (ch '@')
        = user.length + pass.length + 1 := by
      rw [hText, idxOf_first hAt, List.length_append, List.length_cons, Nat.add_assoc]
    have hSlashIdx : user.length + pass.length + 1
        ≤ (user ++ ch ':' :: (pass ++ ch '@' :: rest)).idxOf (ch '/') := by
      rw [hText, List.idxOf_append, if_neg hSlash, List.length_append, List.length_cons]
      omega
    unfold scanPassword
    rw [hColonIdx, hAtIdx, if_neg (by simp), if_neg (by simp; omega), if_neg (by omega)]
    congr 2
    omega

/-! ## The places compared -/

theorem takeWhile_slash (base : Bytes) : ch '/' ∉ base.takeWhile (· ≠ ch '/') := by
  intro h
  simpa using List.mem_takeWhile_imp h

theorem exists_tail {base user pass rest : Bytes}
    (h : base.takeWhile (· ≠ ch '/') = user ++ ch ':' :: (pass ++ ch '@' :: rest)) :
    ∃ tail, base = user ++ ch ':' :: (pass ++ ch '@' :: tail) := by
  have hSplit := List.takeWhile_append_dropWhile (p := (· ≠ ch '/')) (l := base)
  rw [h] at hSplit
  exact ⟨rest ++ base.dropWhile (· ≠ ch '/'), hSplit.symm.trans (by simp)⟩

/-- What is found in `base`, found in the text before the path. -/
theorem scanPassword_takeWhile (pos : Nat) (base : Bytes) :
    scanPassword pos base = scanPassword pos (base.takeWhile (· ≠ ch '/')) := by
  apply Option.ext
  intro p
  show scanPassword pos base = some p ↔ _ = some p
  rw [scanPassword_eq_some, scanPassword_eq_some]
  constructor
  · rintro ⟨user, pass, rest, hBase, hUser, hAt, hSlash, rfl⟩
    refine ⟨user, pass, rest.takeWhile (· ≠ ch '/'), ?_, hUser, hAt, hSlash, rfl⟩
    have hText : base = (user ++ ch ':' :: pass) ++ ch '@' :: rest := by rw [hBase]; simp
    have hAll : ∀ c ∈ user ++ ch ':' :: pass, decide (c ≠ ch '/') = true := fun c hc => by
      simpa using fun hEq : c = ch '/' => hSlash (hEq ▸ hc)
    rw [hText, List.takeWhile_append_of_pos hAll, List.takeWhile_cons_of_pos (by decide)]
    simp
  · rintro ⟨user, pass, rest, hSeg, hUser, hAt, hSlash, rfl⟩
    obtain ⟨tail, hBase⟩ := exists_tail hSeg
    exact ⟨user, pass, tail, hBase, hUser, hAt, hSlash, rfl⟩

/-- Both find the password when there is one `@`. -/
theorem scanPassword_iff_count {pos : Nat} {base : Bytes} {p : Nat × Nat}
    (h : connectPassword pos base = some p) :
    scanPassword pos base = some p ↔ (base.takeWhile (· ≠ ch '/')).count (ch '@') = 1 := by
  have hSlash := takeWhile_slash base
  rw [scanPassword_takeWhile, scanPassword_eq_some]
  rw [connectPassword_eq_some] at h
  generalize base.takeWhile (· ≠ ch '/') = seg at *
  obtain ⟨user, pass, rest, hSeg, hUser, hRest, rfl⟩ := h
  have hText : seg = (user ++ ch ':' :: pass) ++ ch '@' :: rest := by rw [hSeg]; simp
  have hCount : seg.count (ch '@') = (user ++ ch ':' :: pass).count (ch '@') + 1 := by
    rw [hText, List.count_append, List.count_cons_self, List.count_eq_zero_of_not_mem hRest]
  have hOne : seg.count (ch '@') = 1 ↔ ch '@' ∉ user ++ ch ':' :: pass := by
    rw [hCount, Nat.add_eq_right, List.count_eq_zero]
  rw [hOne]
  constructor
  · rintro ⟨user', pass', rest', hSeg', -, hAt, -, hPlace⟩
    obtain ⟨hStart, hLen⟩ := Prod.mk.inj hPlace
    rw [hSeg] at hSeg'
    obtain ⟨rfl, hTail⟩ := List.append_inj hSeg' (by omega)
    obtain ⟨rfl, -⟩ := List.append_inj (List.cons.inj hTail).2 hLen
    exact hAt
  · intro hAt
    refine ⟨user, pass, rest, hSeg, hUser, hAt, fun hMem => hSlash ?_, rfl⟩
    rw [hText]
    exact List.mem_append_left _ hMem

/-! ## What is hidden and removed -/

/-- A place between a colon and an `@`. -/
structure Between (url : Bytes) (p : Nat × Nat) : Prop where
  pos : 0 < p.1
  colon : url[p.1 - 1]? = some (ch ':')
  at' : url[p.1 + p.2]? = some (ch '@')

theorem getElem?_length {a : Bytes} {n : Nat} (h : n = a.length) (d : UInt8) (b : Bytes) :
    (a ++ d :: b)[n]? = some d := by
  rw [h, List.getElem?_append_right (Nat.le_refl _), Nat.sub_self]
  rfl

theorem between_append (pre user pass rest : Bytes) :
    Between (pre ++ (user ++ ch ':' :: (pass ++ ch '@' :: rest)))
      (pre.length + user.length + 1, pass.length) := by
  have hColon : pre ++ (user ++ ch ':' :: (pass ++ ch '@' :: rest))
      = (pre ++ user) ++ ch ':' :: (pass ++ ch '@' :: rest) := by simp
  have hAt : pre ++ (user ++ ch ':' :: (pass ++ ch '@' :: rest))
      = (pre ++ (user ++ ch ':' :: pass)) ++ ch '@' :: rest := by simp
  refine ⟨Nat.succ_pos _, ?_, ?_⟩
  · rw [hColon]
    exact getElem?_length (by simp) _ _
  · rw [hAt]
    refine getElem?_length ?_ _ _
    simp only [List.length_append, List.length_cons]
    omega

theorem between_connect {pre base : Bytes} {p : Nat × Nat}
    (h : connectPassword pre.length base = some p) : Between (pre ++ base) p := by
  obtain ⟨user, pass, rest, hSeg, -, -, rfl⟩ := connectPassword_eq_some.mp h
  obtain ⟨tail, rfl⟩ := exists_tail hSeg
  exact between_append ..

theorem between_scan {pre scan : Bytes} {p : Nat × Nat}
    (h : scanPassword pre.length scan = some p) : Between (pre ++ scan) p := by
  obtain ⟨user, pass, rest, rfl, -, -, -, rfl⟩ := scanPassword_eq_some.mp h
  exact between_append ..

theorem Between.le {url : Bytes} {p : Nat × Nat} (h : Between url p) : p.1 + p.2 < url.length := by
  obtain ⟨hLt, -⟩ := List.getElem?_eq_some_iff.mp h.at'
  exact hLt

/-- The rest of a URL without a colon and the password. -/
def removed (url : Bytes) (p : Nat × Nat) : Bytes := url.take (p.1 - 1) ++ url.drop (p.1 + p.2)

theorem removed_not_lt {url : Bytes} {p p' : Nat × Nat} (h : Between url p) (h' : Between url p')
    (hSame : removed url p = removed url p') : ¬ p.1 < p'.1 := by
  intro hLt
  have hPos := h.pos
  have hLe := h.le
  have hLe' := h'.le
  -- at the place of the first colon one text has it still, the other has the `@`
  have hAt : (removed url p)[p.1 - 1]? = some (ch '@') := by
    rw [removed, List.getElem?_append_right (by rw [List.length_take]; omega), List.length_take,
      List.getElem?_drop, Nat.min_eq_left (by omega), Nat.sub_self]
    exact h.at'
  have hColon : (removed url p')[p.1 - 1]? = some (ch ':') := by
    rw [removed, List.getElem?_append_left (by rw [List.length_take]; omega),
      List.getElem?_take_of_lt (by omega)]
    exact h.colon
  rw [hSame, hColon] at hAt
  exact absurd hAt (by decide)

/-- Removing tells places apart. -/
theorem removed_inj {url : Bytes} {p p' : Nat × Nat} (h : Between url p) (h' : Between url p')
    (hSame : removed url p = removed url p') : p = p' := by
  have hNot := removed_not_lt h h' hSame
  have hNot' := removed_not_lt h' h hSame.symm
  have hLength := congrArg List.length hSame
  have hLe := h.le
  have hLe' := h'.le
  simp only [removed, List.length_append, List.length_take, List.length_drop] at hLength
  apply Prod.ext
  · omega
  · omega

theorem removed_ne {url : Bytes} {p : Nat × Nat} (h : Between url p) : removed url p ≠ url := by
  intro hSame
  have hLength := congrArg List.length hSame
  have hPos := h.pos
  have hLe := h.le
  simp only [removed, List.length_append, List.length_take, List.length_drop] at hLength
  omega

theorem strstr_bounds {url : Bytes} {i : Nat} (h : strstr (bytes "://") url = some i) :
    ∃ pre scan, url = pre ++ scan ∧ pre.length = i + 3 ∧ url.drop (i + 3) = scan := by
  obtain ⟨a, y, rfl, rfl, -⟩ := strstr_eq_some h
  refine ⟨a ++ bytes "://", y, by simp, ?_, ?_⟩
  · rw [List.length_append]
    rfl
  · rw [← List.append_assoc]
    refine List.drop_left' ?_
    rw [List.length_append]
    rfl

theorem between_find {url : Bytes} {p : Nat × Nat} (h : find_password_pos url = some p) :
    Between url p := by
  unfold find_password_pos at h
  cases hFound : strstr (bytes "://") url with
  | none => simp [hFound] at h
  | some i =>
      obtain ⟨pre, scan, hUrl, hLength, hDrop⟩ := strstr_bounds hFound
      simp only [hFound] at h
      rw [hDrop, ← hLength] at h
      rw [hUrl]
      exact between_scan h

theorem takeWhile_proto {url : Bytes} (h : (bytes "://").isPrefixOf (url.dropWhile isAlpha)) :
    url = (url.takeWhile isAlpha ++ bytes "://") ++ (url.dropWhile isAlpha).drop 3 := by
  obtain ⟨y, hy⟩ := List.isPrefixOf_iff_prefix.mp h
  have hSplit := List.takeWhile_append_dropWhile (p := isAlpha) (l := url)
  rw [← hy, List.drop_left' (by rfl), List.append_assoc, hy, hSplit]

theorem between_passwordPos {env : Names} {protoRequired : Bool} {url : Bytes} {p : Nat × Nat}
    (h : passwordPos env protoRequired url = some p) : Between url p := by
  unfold passwordPos at h
  simp only at h
  split_ifs at h with hProto hFile hSpecial hSlot hRequired
  · rw [takeWhile_proto hProto]
    apply between_connect
    rwa [List.length_append]
  · have hBetween : Between ([] ++ _) p := between_connect h
    exact hBetween

/-- Hiding and removing agree with the parser when both find the same place. -/
theorem agrees_iff_same (env : Names) (protoRequired : Bool) (url : Bytes) :
    Agrees env protoRequired url ↔ find_password_pos url = passwordPos env protoRequired url := by
  unfold Agrees hide_password remove_password
  cases hPos : passwordPos env protoRequired url with
  | none =>
      cases hFind : find_password_pos url with
      | none => simp
      | some p =>
          refine iff_of_false (fun h => ?_) (by simp)
          exact removed_ne (between_find hFind) h.2
  | some p =>
      have hBetween := between_passwordPos hPos
      cases hFind : find_password_pos url with
      | none =>
          refine iff_of_false (fun h => ?_) (by simp)
          exact removed_ne hBetween h.2.symm
      | some p' =>
          constructor
          · intro h
            rw [removed_inj (between_find hFind) hBetween h.2]
          · intro h
            obtain rfl := Option.some.inj h
            exact ⟨rfl, rfl⟩

/-! ## When they agree -/

theorem drop_marker (a y : Bytes) : (a ++ (bytes "://" ++ y)).drop (a.length + 3) = y := by
  rw [← List.append_assoc]
  apply List.drop_left'
  rw [List.length_append]
  rfl

/-- The search finds something in a URL with an embedded one. -/
theorem find_password_pos_ne_none {url : Bytes} : find_password_pos url ≠ none ↔ Embedded url := by
  unfold find_password_pos
  constructor
  · intro h
    cases hFound : strstr (bytes "://") url with
    | none => simp [hFound] at h
    | some i =>
        obtain ⟨a, y, rfl, rfl, hFirst⟩ := strstr_eq_some hFound
        simp only [hFound] at h
        rw [drop_marker] at h
        obtain ⟨p, hp⟩ := Option.ne_none_iff_exists'.mp h
        obtain ⟨user, pass, rest, rfl, -, hAt, hSlash, -⟩ := scanPassword_eq_some.mp hp
        exact ⟨a, user ++ ch ':' :: pass, rest, by simp, hFirst, by simp, hAt, hSlash⟩
  · rintro ⟨a, b, c, rfl, hFirst, hColon, hAt, hSlash⟩
    cases hFound : strstr (bytes "://") (a ++ (bytes "://" ++ (b ++ ch '@' :: c))) with
    | none => exact absurd rfl (strstr_eq_none hFound a _)
    | some i =>
        obtain ⟨a', y, hUrl, rfl, hFirst'⟩ := strstr_eq_some hFound
        have hLength := Nat.le_antisymm (hFirst a' y hUrl) (hFirst' a _ rfl)
        obtain ⟨user, pass, rfl, hUser⟩ := List.eq_append_cons_of_mem hColon
        simp only
        rw [← hLength, drop_marker]
        have hSome : scanPassword (a.length + 3) (user ++ ch ':' :: pass ++ ch '@' :: c)
            = some (a.length + 3 + user.length + 1, pass.length) :=
          scanPassword_eq_some.mpr ⟨user, pass, c, by simp, hUser, hAt, hSlash, rfl⟩
        rw [hSome]
        exact Option.some_ne_none _

/-- The first `://` is the one after the protocol. -/
theorem find_password_pos_proto {url : Bytes}
    (h : (bytes "://").isPrefixOf (url.dropWhile isAlpha)) :
    find_password_pos url
      = scanPassword ((url.takeWhile isAlpha).length + 3) ((url.dropWhile isAlpha).drop 3) := by
  have hUrl := takeWhile_proto h
  rw [List.append_assoc] at hUrl
  have hAlpha : ∀ c ∈ url.takeWhile isAlpha, isAlpha c = true := fun c hc =>
    List.mem_takeWhile_imp hc
  generalize url.takeWhile isAlpha = proto at *
  generalize (url.dropWhile isAlpha).drop 3 = base at *
  subst hUrl
  unfold find_password_pos
  cases hFound : strstr (bytes "://") (proto ++ (bytes "://" ++ base)) with
  | none => exact absurd rfl (strstr_eq_none hFound proto base)
  | some i =>
      obtain ⟨a, y, hSplit, rfl, hFirst⟩ := strstr_eq_some hFound
      have hLength : a.length = proto.length := by
        refine Nat.le_antisymm (hFirst proto base rfl) (Nat.not_lt.mp fun hLt => ?_)
        -- a colon would be in the protocol
        have hColon : (a ++ (bytes "://" ++ y))[a.length]? = some (ch ':') :=
          getElem?_length rfl _ _
        rw [← hSplit, List.getElem?_append_left hLt] at hColon
        have hMem := hAlpha _ (List.mem_of_getElem? hColon)
        exact absurd hMem (by decide)
      simp only
      rw [hLength, drop_marker]

/-- A URL without a protocol has its password before any embedded URL. -/
theorem find_password_pos_ne {url : Bytes} {p : Nat × Nat} (h : connectPassword 0 url = some p) :
    find_password_pos url ≠ some p := by
  intro hFind
  obtain ⟨user, pass, rest, hSeg, -, -, rfl⟩ := connectPassword_eq_some.mp h
  have hSlash := takeWhile_slash url
  have hSplit := List.takeWhile_append_dropWhile (p := (· ≠ ch '/')) (l := url)
  have hLength := congrArg List.length hSeg
  simp only [List.length_append, List.length_cons] at hLength
  unfold find_password_pos at hFind
  cases hFound : strstr (bytes "://") url with
  | none => simp [hFound] at hFind
  | some i =>
      obtain ⟨a, y, hUrl, rfl, -⟩ := strstr_eq_some hFound
      simp only [hFound] at hFind
      obtain ⟨user', pass', rest', -, -, -, -, hPlace⟩ := scanPassword_eq_some.mp hFind
      have hStart := (Prod.mk.inj hPlace).1
      -- the text before the path ends at the slash of the marker
      have hChar : url[a.length + 1]? = some (ch '/') := by
        have hText : a ++ (bytes "://" ++ y) = (a ++ [ch ':']) ++ ch '/' :: (ch '/' :: y) := by
          rw [List.append_assoc]
          rfl
        rw [hUrl, hText]
        exact getElem?_length (by simp) _ _
      by_cases hIn : a.length + 1 < (url.takeWhile (· ≠ ch '/')).length
      · rw [← hSplit, List.getElem?_append_left hIn] at hChar
        exact hSlash (List.mem_of_getElem? hChar)
      · omega

/-! ## The password of the parser -/

theorem parseUser_eq {seg user pass rest : Bytes}
    (hSeg : seg = user ++ ch ':' :: (pass ++ ch '@' :: rest)) (hUser : ch ':' ∉ user)
    (hRest : ch '@' ∉ rest) : (parseUser (trimColon seg)).2.1 = some pass := by
  have hText : seg = (user ++ ch ':' :: pass) ++ ch '@' :: rest := by rw [hSeg]; simp
  obtain ⟨kept, hTrim, hKept⟩ := trimColon_at (user ++ ch ':' :: pass) rest
  have hNot : ch '@' ∉ kept := by
    rcases hKept with rfl | rfl
    · exact hRest
    · exact fun h => hRest (List.mem_append_left _ h)
  rw [hText, hTrim, parseUser, splitLast_append _ hNot]
  simp only
  rw [dropWhile_append_cons hUser]

theorem parseUser_none {pos : Nat} {base : Bytes} (h : connectPassword pos base = none) :
    (parseUser (trimColon (base.takeWhile (· ≠ ch '/')))).2.1 = none := by
  unfold connectPassword at h
  unfold parseUser
  cases hSplit : splitLast (ch '@') (trimColon (base.takeWhile (· ≠ ch '/'))) with
  | none => rfl
  | some both =>
      obtain ⟨name, rest⟩ := both
      simp only [hSplit] at h
      split_ifs at h with hColon
      simp only
      rw [dropWhile_of_notMem hColon]

theorem parseConnect_pass (proto : Option Bytes) (useRfc1738 : Bool) (pre base : Bytes) :
    (parseConnect proto useRfc1738 base).pass
      = (connectPassword pre.length base).map fun p =>
          percentDecode (((pre ++ base).drop p.1).take p.2) := by
  show ((parseUser (trimColon (base.takeWhile (· ≠ ch '/')))).2.1).map percentDecode = _
  cases h : connectPassword pre.length base with
  | none => rw [parseUser_none h]; rfl
  | some p =>
      obtain ⟨user, pass, rest, hSeg, hUser, hRest, rfl⟩ := connectPassword_eq_some.mp h
      obtain ⟨tail, hBase⟩ := exists_tail hSeg
      have hText : pre ++ base = (pre ++ user ++ [ch ':']) ++ (pass ++ (ch '@' :: tail)) := by
        rw [hBase]
        simp
      have hDrop : (pre ++ base).drop (pre.length + user.length + 1)
          = pass ++ (ch '@' :: tail) := by
        rw [hText]
        exact List.drop_left' (by simp [Nat.add_assoc])
      rw [parseUser_eq hSeg hUser hRest, Option.map_some, Option.map_some, hDrop, List.take_left]

/-- The password that `parse` finds is the text at its place. -/
theorem parse_pass (env : Names) (protoRequired useRfc1738 : Bool) (url : Bytes) :
    (parse env protoRequired useRfc1738 url).pass
      = (passwordPos env protoRequired url).map fun p =>
          percentDecode ((url.drop p.1).take p.2) := by
  unfold parse passwordPos
  simp only
  split
  · next hProto =>
      split
      · rfl
      · have hPass := parseConnect_pass (some (url.takeWhile isAlpha)) useRfc1738
          (url.takeWhile isAlpha ++ bytes "://") ((url.dropWhile isAlpha).drop 3)
        rw [← takeWhile_proto hProto, List.length_append] at hPass
        exact hPass
  · split
    · rfl
    · split
      · rfl
      · split
        · rfl
        · exact parseConnect_pass none useRfc1738 [] url

/-! ## When they agree -/

/-- Hiding and removing agree with the parser for a password between a protocol and the path, where
no other `@` is, and without a password if no URL with one is embedded. -/
theorem agrees_iff (env : Names) (protoRequired useRfc1738 : Bool) (url : Bytes) :
    Agrees env protoRequired url ↔
      ((parse env protoRequired useRfc1738 url).pass ≠ none →
        (bytes "://").isPrefixOf (url.dropWhile isAlpha) = true ∧
          (authority url).count (ch '@') = 1) ∧
      ((parse env protoRequired useRfc1738 url).pass = none → ¬ Embedded url) := by
  rw [agrees_iff_same, parse_pass, Option.map_eq_none_iff.ne, Option.map_eq_none_iff]
  cases hPos : passwordPos env protoRequired url with
  | none =>
      rw [← find_password_pos_ne_none, not_not]
      simp
  | some p =>
      unfold passwordPos at hPos
      simp only at hPos
      split_ifs at hPos with hProto hFile hSpecial hSlot hRequired
      · rw [find_password_pos_proto hProto, scanPassword_iff_count hPos]
        simp [hProto, authority]
      · have hNot := find_password_pos_ne hPos
        simp [hNot, hProto]

/-- Where the parser's password is, and when it is what is hidden and removed. -/
theorem hides_password_iff (env : Names) (protoRequired useRfc1738 : Bool) (url : Bytes) :
    ((parse env protoRequired useRfc1738 url).pass
      = (passwordPos env protoRequired url).map fun p =>
          percentDecode ((url.drop p.1).take p.2)) ∧
    (Agrees env protoRequired url ↔
      ((parse env protoRequired useRfc1738 url).pass ≠ none →
        (bytes "://").isPrefixOf (url.dropWhile isAlpha) = true ∧
          (authority url).count (ch '@') = 1) ∧
      ((parse env protoRequired useRfc1738 url).pass = none → ¬ Embedded url)) :=
  ⟨parse_pass .., agrees_iff ..⟩

/-- In `ftp://u:p@ss@h` only the first character of the password is hidden. -/
theorem not_agrees : ∃ env : Names, ¬ Agrees env false (bytes "ftp://u:p@ss@h") ∧
    (parse env false true (bytes "ftp://u:p@ss@h")).pass = some (bytes "p@ss") ∧
    hide_password (bytes "ftp://u:p@ss@h") = bytes "ftp://u:XXXX@ss@h" := by
  refine ⟨⟨fun _ => false, fun _ => false, fun _ => false, fun _ => false⟩, ?_, ?_, ?_⟩
  · rw [agrees_iff_same]
    decide
  · decide
  · decide

end Lftp.Ports.UrlPassword
