import Lftp.Ports.FtpListInfo
import Lftp.Verified.CString
import Lftp.Verified.Loop

/-!
# The facts of `OPTS MLST`

`Ftp::SendOPTS_MLST` picks the facts it needs out of those that `FEAT` told, and writes
them with semicolons into the copy that `strtok` is still going through.

* `Walk` is the copy in the middle of the loop: what is written, what is done with and
  what is left.
* `factTurn_eq` is a turn on a fact, `loop_facts` what the loop leaves in the copy.
* `selects_iff`: the facts are right and inside the copy unless all are needed as they are.
-/

namespace Lftp.Ports.OptsMlst

open Lftp.Verified Lftp.Verified.Block
open Lftp.Ports.FtpListInfo (sameNoCase)

/-- The facts that are needed; `unique` is not needed yet. -/
def needed : List Bytes :=
  ["type", "size", "modify", "perm", "UNIX.mode", "UNIX.owner", "UNIX.uid", "UNIX.group",
    "UNIX.gid"].map bytes

def isNeeded (fact : Bytes) : Bool := needed.any fun scan => sameNoCase fact scan

def semicolon : Bytes := bytes ";"

/-- The variables of the loop; `save` is where `strtok` goes on. -/
structure Walk where
  mem : Bytes
  save : Option Nat
  store : Nat
  differs : Bool

/-- The star of a fact that is enabled is cut off. -/
def cutStar (mem : Bytes) (tok len : Nat) : Option (Bytes × Nat × Bool) :=
  if 0 < len ∧ mem[tok + len - 1]? = some (ch '*') then
    (store mem (tok + len - 1) [0]).map fun mem => (mem, len - 1, true)
  else some (mem, len, false)

/-- A fact that is needed is moved to `dst`, with a semicolon behind it. -/
def keepFact (mem : Bytes) (tok len dst : Nat) : Option (Bytes × Nat × Bool) := do
  let name ← cstrAt mem tok
  if isNeeded name then do
    let mem ← store mem dst ((mem.drop tok).take len)
    let mem ← store mem (dst + len) [ch ';']
    some (mem, dst + len + 1, true)
  else some (mem, dst, false)

/-- A turn of the loop on a token. -/
def factTurn (w : Walk) (t : Token) : Option Walk := do
  let (mem, len, wasEnabled) ← cutStar t.mem t.place t.length
  let (mem, dst, wantEnable) ← keepFact mem t.place len w.store
  some ⟨mem, t.save, dst, w.differs || (wasEnabled ^^ wantEnable)⟩

/-- A turn of the loop. It is left with the copy, the length of what is written and `differs`,
and without them where memory behind the copy is used. -/
def turn (w : Walk) : Walk ⊕ Option (Bytes × Nat × Bool) :=
  match w.save.elim (some none) (strtokAt semicolon w.mem) with
  | none => .inr none
  | some none => .inr (some (w.mem, w.store, w.differs))
  | some (some t) => (factTurn w t).elim (.inr none) .inl

/-- The end of the function: what is sent, if anything. -/
def finish (mem : Bytes) (dst : Nat) (differs : Bool) : Option (Option Bytes) :=
  if !differs || dst = 0 then some none
  else do
    let mem ← store mem dst [0]
    (cstrAt mem 0).map some

/-- `Ftp::SendOPTS_MLST` on a copy of the string; the result is the argument that is sent. -/
def sendOPTS_MLST (supported : Bytes) : Option (Option Bytes) := do
  let left ← loop turn (supported.length + 2) ⟨supported ++ [0], some 0, 0, false⟩
  let (mem, dst, differs) ← left
  finish mem dst differs

/-! ## What should be sent -/

/-- A fact that is advertised: its name, and whether it is enabled. -/
def unstar (fact : Bytes) : Bytes × Bool :=
  if fact.getLast? = some (ch '*') then (fact.dropLast, true) else (fact, false)

/-- The text of the needed facts among these. -/
def wantedText (facts : List Bytes) : Bytes :=
  ((facts.map fun f => (unstar f).1).filter fun f => isNeeded f).flatMap fun f => f ++ semicolon

/-- Some fact is enabled and not needed, or needed and not enabled. -/
def anyDiffers (facts : List Bytes) : Bool := facts.any fun f => (unstar f).2 ^^ isNeeded (unstar f).1

/-- The argument for these facts, if one has to be sent. -/
def wanted (facts : List Bytes) : Option Bytes :=
  if anyDiffers facts && wantedText facts ≠ [] then some (wantedText facts) else none

/-- Nothing outside the copy is used, and what is sent is right. -/
def Selects (supported : Bytes) : Prop :=
  sendOPTS_MLST supported = some (wanted (supported.splitOn (ch ';')))

/-- Some fact is empty, enabled or not needed, or there is a semicolon at the end. -/
def Room (supported : Bytes) : Prop :=
  ∃ f ∈ supported.splitOn (ch ';'), isNeeded f = false

/-! ## A fact -/

theorem isNeeded_star (name : Bytes) : isNeeded (name ++ [ch '*']) = false := by
  have hLast : ∀ scan ∈ needed,
      (scan.map ParseCmd.toLower).getLast? ≠ some (ParseCmd.toLower (ch '*')) := by decide
  refine List.any_eq_false.mpr fun scan hScan hSame => hLast scan hScan ?_
  rw [← of_decide_eq_true hSame, List.map_append, List.map_singleton, List.getLast?_concat]

theorem isNeeded_nil : isNeeded [] = false := by decide

theorem unstar_star (name : Bytes) : unstar (name ++ [ch '*']) = (name, true) := by
  unfold unstar
  rw [List.getLast?_concat, if_pos rfl, List.dropLast_concat]

theorem unstar_plain {f : Bytes} (h : f.getLast? ≠ some (ch '*')) : unstar f = (f, false) := if_neg h

theorem wantedText_singleton (f : Bytes) :
    wantedText [f] = if isNeeded (unstar f).1 then (unstar f).1 ++ semicolon else [] := by
  unfold wantedText
  rw [List.map_singleton, List.filter_singleton]
  cases isNeeded (unstar f).1 <;> simp

theorem wantedText_cons (f : Bytes) (fs : List Bytes) :
    wantedText (f :: fs) = wantedText [f] ++ wantedText fs := by
  rw [wantedText_singleton]
  unfold wantedText
  rw [List.map_cons, List.filter_cons]
  cases isNeeded (unstar f).1 <;> simp

theorem anyDiffers_cons (f : Bytes) (fs : List Bytes) :
    anyDiffers (f :: fs) = (anyDiffers [f] || anyDiffers fs) := by
  simp [anyDiffers]

/-- The star of a fact: the name is left, and what is behind it. -/
theorem cutStar_eq {f : Bytes} (hNe : f ≠ []) (out junk rest : Bytes) : ∃ more,
    cutStar (out ++ (junk ++ (f ++ 0 :: rest))) (out.length + junk.length) f.length
      = some (out ++ (junk ++ ((unstar f).1 ++ 0 :: (more ++ rest))), (unstar f).1.length,
          (unstar f).2) ∧
      f.length = (unstar f).1.length + more.length ∧ (more = [] ↔ (unstar f).2 = false) := by
  have hPos : 0 < f.length := List.length_pos_of_ne_nil hNe
  have hCell : (out ++ (junk ++ (f ++ 0 :: rest)))[out.length + junk.length + f.length - 1]?
      = f.getLast? := by
    rw [List.getLast?_eq_getElem?, show out.length + junk.length + f.length - 1
      = out.length + (junk.length + (f.length - 1)) by omega,
      List.getElem?_append_right (Nat.le_add_right _ _), Nat.add_sub_cancel_left,
      List.getElem?_append_right (Nat.le_add_right _ _), Nat.add_sub_cancel_left,
      List.getElem?_append_left (by omega)]
  unfold cutStar
  rw [hCell]
  by_cases hStar : f.getLast? = some (ch '*')
  · obtain ⟨name, rfl⟩ := List.getLast?_eq_some_iff.mp hStar
    have hStore := store_append (a := out ++ (junk ++ name)) (w := [0]) (x := [ch '*'])
      (0 :: rest) rfl
    rw [if_pos ⟨hPos, hStar⟩, unstar_star]
    refine ⟨[0], ?_, by simp, by simp⟩
    rw [List.length_append, List.length_singleton,
      show out.length + junk.length + (name.length + 1) - 1 = (out ++ (junk ++ name)).length by
        simp only [List.length_append]; omega, Nat.add_sub_cancel,
      show out ++ (junk ++ (name ++ [ch '*'] ++ 0 :: rest))
        = out ++ (junk ++ name) ++ ([ch '*'] ++ 0 :: rest) by simp, hStore]
    simp
  · rw [if_neg fun h => hStar h.2, unstar_plain hStar]
    exact ⟨[], by simp, by simp, by simp⟩

/-- A name that is needed is moved down, and one byte more is used. -/
theorem keepFact_eq {name : Bytes} (hNul : 0 ∉ name) (out junk more : Bytes) :
    keepFact (out ++ (junk ++ (name ++ 0 :: more))) (out.length + junk.length) name.length out.length
      = some (if isNeeded name then
          (out ++ (name ++ semicolon) ++ (junk ++ (name ++ 0 :: more)).drop (name.length + 1),
            (out ++ (name ++ semicolon)).length, true)
        else (out ++ (junk ++ (name ++ 0 :: more)), out.length, false)) := by
  have hName : cstrAt (out ++ (junk ++ (name ++ 0 :: more))) (out.length + junk.length) = some name := by
    have hAt := cstrAt_append hNul (out ++ junk) more
    rwa [List.length_append, List.append_assoc] at hAt
  have hMoved : ((out ++ (junk ++ (name ++ 0 :: more))).drop (out.length + junk.length)).take
      name.length = name := by
    rw [← List.drop_drop, List.drop_left, List.drop_left, List.take_left]
  unfold keepFact
  rw [hName, Option.bind_eq_bind, Option.bind_some, hMoved]
  cases hNeeded : isNeeded name with
  | false => rfl
  | true =>
      -- the place of the name and the semicolon is inside the copy
      generalize hText : junk ++ (name ++ 0 :: more) = text
      have hLength : name.length + 1 ≤ text.length := by
        rw [← hText]
        simp only [List.length_append, List.length_cons]
        omega
      obtain ⟨c, text', hRest⟩ := List.exists_cons_of_length_pos
        (show 0 < (text.drop name.length).length by rw [List.length_drop]; omega)
      have hDrop : text.drop (name.length + 1) = text' := by
        rw [← List.drop_drop, hRest]
        rfl
      have hSplit : text = text.take name.length ++ (c :: text') := by
        rw [← hRest, List.take_append_drop]
      have hFirst := store_append (a := out) (w := name) (x := text.take name.length) (c :: text')
        (by rw [List.length_take]; omega)
      have hSecond := store_append (a := out ++ name) (w := [ch ';']) (x := [c]) text' rfl
      rw [← hSplit] at hFirst
      rw [List.length_append, List.append_assoc, List.singleton_append] at hSecond
      simp only [if_true, hFirst, Option.bind_some, hSecond, hDrop]
      simp [semicolon, bytes, Nat.add_assoc]

/-- A turn on a fact. What is written stays in place of the fact, and the fact fills the copy
up to its NUL only where all before it were needed as they were. -/
theorem factTurn_eq {f : Bytes} (hNe : f ≠ []) (hNul : 0 ∉ f) (mem out junk rest : Bytes)
    (save save' : Option Nat) (d : Bool) : ∃ junk',
    factTurn ⟨mem, save', out.length, d⟩
        ⟨out.length + junk.length, f.length, out ++ (junk ++ (f ++ 0 :: rest)), save⟩
      = some ⟨out ++ wantedText [f] ++ (junk' ++ rest), save, (out ++ wantedText [f]).length,
          d || anyDiffers [f]⟩ ∧
      (wantedText [f]).length + junk'.length = junk.length + f.length + 1 ∧
      (junk' = [] ↔ junk = [] ∧ isNeeded f = true) := by
  obtain ⟨more, hCut, hLength, hMore⟩ := cutStar_eq hNe out junk rest
  have hName : 0 ∉ (unstar f).1 := by
    unfold unstar
    split
    · exact fun h => hNul (List.mem_of_mem_dropLast h)
    · exact hNul
  have hPlain : isNeeded f = true → (unstar f).2 = false ∧ (unstar f).1 = f := by
    intro hNeeded
    have hStar : f.getLast? ≠ some (ch '*') := by
      intro hStar
      obtain ⟨name, rfl⟩ := List.getLast?_eq_some_iff.mp hStar
      rw [isNeeded_star] at hNeeded
      cases hNeeded
    rw [unstar_plain hStar]
    exact ⟨rfl, rfl⟩
  have hKeep := keepFact_eq hName out junk (more ++ rest)
  have hDiffers : anyDiffers [f] = ((unstar f).2 ^^ isNeeded (unstar f).1) := by simp [anyDiffers]
  unfold factTurn
  rw [wantedText_singleton, hDiffers, hCut, Option.bind_eq_bind, Option.bind_some]
  dsimp only
  rw [hKeep]
  cases hNeeded : isNeeded (unstar f).1 with
  | false =>
      refine ⟨junk ++ ((unstar f).1 ++ 0 :: more), by simp, by simp [hLength]; omega, ?_⟩
      refine iff_of_false (by simp) fun h => ?_
      rw [(hPlain h.2).2] at hNeeded
      exact absurd h.2 (by rw [hNeeded]; nofun)
  | true =>
      refine ⟨(junk ++ ((unstar f).1 ++ 0 :: more)).drop ((unstar f).1.length + 1), ?_, ?_, ?_⟩
      · have hDrop : (junk ++ ((unstar f).1 ++ 0 :: (more ++ rest))).drop ((unstar f).1.length + 1)
            = (junk ++ ((unstar f).1 ++ 0 :: more)).drop ((unstar f).1.length + 1) ++ rest := by
          rw [← List.drop_append_of_le_length (by simp; omega)]
          simp
        simp [hDrop]
      · simp [semicolon, bytes]
        omega
      · rw [List.drop_eq_nil_iff]
        constructor
        · intro hLe
          have hSizes : junk.length + ((unstar f).1.length + (more.length + 1))
              ≤ (unstar f).1.length + 1 := by simpa using hLe
          have hJunk : junk = [] := List.eq_nil_of_length_eq_zero (by omega)
          have hPlainName := hMore.mp (List.eq_nil_of_length_eq_zero (by omega))
          have hSame : (unstar f).1 = f := by
            unfold unstar at hPlainName ⊢
            split at hPlainName
            · cases hPlainName
            · rename_i hStar
              rw [if_neg hStar]
          exact ⟨hJunk, by rw [← hSame]; exact hNeeded⟩
        · rintro ⟨rfl, h⟩
          have hNil := hMore.mpr (hPlain h).1
          simp [hNil]

/-! ## The loop -/

/-- A semicolon in front of what is left is skipped with what is done. -/
theorem turn_skip (out junk rest : Bytes) (d : Bool) :
    turn ⟨out ++ (junk ++ ch ';' :: rest), some (out.length + junk.length), out.length, d⟩
      = turn ⟨out ++ (junk ++ [ch ';'] ++ rest), some (out.length + (junk ++ [ch ';']).length),
          out.length, d⟩ := by
  have hSkip := strtokAt_skip (show semicolon.contains (ch ';') = true from rfl) rfl (out ++ junk) rest
  rw [List.length_append, List.append_assoc] at hSkip
  have hText : out ++ (junk ++ [ch ';'] ++ rest) = out ++ (junk ++ ch ';' :: rest) := by simp
  unfold turn
  dsimp only [Option.elim_some]
  rw [hText, hSkip, List.length_append, List.length_singleton, Nat.add_assoc]
  rfl

theorem not_sep_of_fact {f : Bytes} (h : ch ';' ∉ f) : ∀ c ∈ f, semicolon.contains c = false := by
  intro c hc
  refine Bool.eq_false_iff.mpr fun hSep => h ?_
  rwa [← List.mem_singleton.mp (List.contains_iff_mem.mp hSep : c ∈ [ch ';'])]

/-- A turn that finds a token is a turn on the fact. -/
theorem turn_token {w w' : Walk} {p : Nat} {t : Token} (hSave : w.save = some p)
    (h : strtokAt semicolon w.mem p = some (some t)) (hTurn : factTurn w t = some w') :
    turn w = .inl w' := by
  unfold turn
  rw [hSave]
  dsimp only [Option.elim_some]
  rw [h]
  dsimp only
  rw [hTurn]
  rfl

/-- The turn on the last fact, and the one that finds no token. -/
theorem loop_last {f : Bytes} (hSep : ch ';' ∉ f) (hNul : 0 ∉ f) (n : Nat) (out junk : Bytes)
    (d : Bool) : ∃ tail,
    loop turn (n + 2) ⟨out ++ (junk ++ (f ++ [0])), some (out.length + junk.length), out.length, d⟩
      = some (some (out ++ wantedText [f] ++ tail, (out ++ wantedText [f]).length,
          d || anyDiffers [f])) ∧
      (tail = [] ↔ junk = [] ∧ isNeeded f = true) := by
  by_cases hEmpty : f = []
  · subst hEmpty
    have hNone := strtokAt_none (show semicolon.contains 0 = false from rfl) (List.forall_mem_nil _)
      (out ++ junk) []
    rw [List.length_append, List.append_assoc] at hNone
    have hText : wantedText [[]] = [] := by decide
    have hDiffers : anyDiffers [[]] = false := by decide
    refine ⟨junk ++ [0], ?_, by simp [isNeeded_nil]⟩
    rw [hText, hDiffers, List.append_nil, Bool.or_false]
    refine loop_inr ?_ _
    unfold turn
    dsimp only [Option.elim_some]
    rw [hNone]
    rfl
  · have hToken := strtokAt_end (List.forall_mem_nil _) (not_sep_of_fact hSep) hEmpty hNul
      (out ++ junk) []
    rw [List.length_append, List.append_assoc] at hToken
    obtain ⟨junk', hTurn, -, hJunk⟩ :=
      factTurn_eq hEmpty hNul (out ++ (junk ++ (f ++ [0]))) out junk [] none
        (some (out.length + junk.length)) d
    rw [List.append_nil] at hTurn
    refine ⟨junk', ?_, hJunk⟩
    rw [loop_inl (turn_token rfl hToken hTurn)]
    exact loop_inr rfl n

/-- The loop on what is left: the texts of the needed facts are written one after another. -/
theorem loop_facts {n : Nat} {facts : List Bytes} (hNe : facts ≠ []) (hn : facts.length < n)
    (hFacts : ∀ f ∈ facts, ch ';' ∉ f ∧ 0 ∉ f) (out junk : Bytes) (d : Bool) : ∃ tail,
    loop turn n ⟨out ++ (junk ++ (semicolon.intercalate facts ++ [0])),
        some (out.length + junk.length), out.length, d⟩
      = some (some (out ++ wantedText facts ++ tail, (out ++ wantedText facts).length,
          d || anyDiffers facts)) ∧
      (tail = [] ↔ junk = [] ∧ ∀ f ∈ facts, isNeeded f = true) := by
  induction facts generalizing n out junk d with
  | nil => exact absurd rfl hNe
  | cons f fs ih =>
      obtain ⟨hSep, hNul⟩ := hFacts f List.mem_cons_self
      have hRest : ∀ f ∈ fs, ch ';' ∉ f ∧ 0 ∉ f := fun g hg => hFacts g (List.mem_cons_of_mem f hg)
      by_cases hLast : fs = []
      · subst hLast
        obtain ⟨n, rfl⟩ := Nat.exists_eq_add_of_le' (show 2 ≤ n from hn)
        obtain ⟨tail, hLoop, hTail⟩ := loop_last hSep hNul n out junk d
        exact ⟨tail, by rw [List.intercalate_singleton, hLoop], by simp [hTail]⟩
      · obtain ⟨n, rfl⟩ := Nat.exists_eq_add_of_le' (show 1 ≤ n by omega)
        rw [List.length_cons, Nat.add_lt_add_iff_right] at hn
        have hJoin : semicolon.intercalate (f :: fs) ++ [0]
            = f ++ ch ';' :: (semicolon.intercalate fs ++ [0]) := by
          rw [List.intercalate_cons_of_ne_nil hLast]
          simp [semicolon, bytes]
        rw [hJoin, wantedText_cons, anyDiffers_cons]
        by_cases hEmpty : f = []
        · subst hEmpty
          have hText : wantedText [[]] = [] := by decide
          have hDiffers : anyDiffers [[]] = false := by decide
          obtain ⟨tail, hLoop, hTail⟩ :=
            ih hLast (Nat.lt_succ_of_lt hn) hRest out (junk ++ [ch ';']) d
          refine ⟨tail, ?_, ?_⟩
          · rw [hText, hDiffers, List.nil_append, List.nil_append, Bool.false_or, ← hLoop]
            simp only [loop, turn_skip]
          · rw [hTail]
            simp [isNeeded_nil]
        · have hZero : 0 ∉ [] ++ (f ++ ch ';' :: semicolon.intercalate fs) := by
            rw [List.nil_append, List.mem_append, List.mem_cons]
            rintro (h | h | h)
            · exact hNul h
            · exact absurd h (by decide)
            · exact notMem_join (by decide) (fun g hg => (hRest g hg).2) h
          have hToken := strtokAt_delim (List.forall_mem_nil _) (not_sep_of_fact hSep) hEmpty rfl
            hZero (out ++ junk) []
          simp only [List.length_append, List.append_assoc, List.nil_append, List.length_nil,
            Nat.add_zero] at hToken
          obtain ⟨junk', hTurn, hLength, hJunk⟩ := factTurn_eq hEmpty hNul
            (out ++ (junk ++ (f ++ ch ';' :: (semicolon.intercalate fs ++ [0]))))
            out junk (semicolon.intercalate fs ++ [0]) (some (out.length + junk.length + f.length + 1))
            (some (out.length + junk.length)) d
          obtain ⟨tail, hLoop, hTail⟩ := ih hLast hn hRest (out ++ wantedText [f]) junk'
            (d || anyDiffers [f])
          refine ⟨tail, ?_, ?_⟩
          · rw [← List.append_assoc out (wantedText [f]), ← Bool.or_assoc,
              loop_inl (turn_token rfl hToken hTurn), ← hLoop, List.length_append, show out.length + junk.length + f.length + 1
              = out.length + (wantedText [f]).length + junk'.length by omega]
          · rw [hTail, hJunk, List.forall_mem_cons, and_assoc]

theorem notMem_wantedText {facts : List Bytes} (h : ∀ f ∈ facts, 0 ∉ f) : 0 ∉ wantedText facts := by
  intro hMem
  obtain ⟨name, hName, hMem⟩ := List.mem_flatMap.mp hMem
  obtain ⟨f, hFact, rfl⟩ := List.mem_map.mp (List.mem_filter.mp hName).1
  rcases List.mem_append.mp hMem with hMem | hMem
  · refine h f hFact ?_
    unfold unstar at hMem
    split at hMem
    · exact List.mem_of_mem_dropLast hMem
    · exact hMem
  · exact absurd hMem (by decide)

theorem wanted_of_differs {facts : List Bytes} (h : anyDiffers facts = true)
    (hText : wantedText facts ≠ []) : wanted facts = some (wantedText facts) := by
  rw [wanted, if_pos (by rw [h, decide_eq_true hText]; rfl)]

theorem wanted_of_not {facts : List Bytes} (h : ¬ (anyDiffers facts = true ∧ wantedText facts ≠ [])) :
    wanted facts = none := by
  rw [wanted, if_neg fun hBoth => h ?_]
  simpa using hBoth

/-- At the end there is a NUL to write where something is sent. -/
theorem finish_eq {facts : List Bytes} (hNul : ∀ f ∈ facts, 0 ∉ f) (tail : Bytes) :
    finish (wantedText facts ++ tail) (wantedText facts).length (anyDiffers facts)
      = if tail = [] ∧ wanted facts ≠ none then none else some (wanted facts) := by
  by_cases hSend : anyDiffers facts = true ∧ wantedText facts ≠ []
  · obtain ⟨hDiffers, hText⟩ := hSend
    have hPos : (wantedText facts).length ≠ 0 := fun h => hText (List.eq_nil_of_length_eq_zero h)
    have hTest : ¬ (!true || decide ((wantedText facts).length = 0)) = true := by simp [hPos]
    rw [wanted_of_differs hDiffers hText, finish, hDiffers, if_neg hTest]
    cases tail with
    | nil =>
        have hStore : store (wantedText facts ++ []) (wantedText facts).length [0] = none :=
          store_eq_none_iff.mpr ⟨List.cons_ne_nil _ _, by simp⟩
        rw [if_pos ⟨rfl, Option.some_ne_none _⟩, hStore]
        rfl
    | cons c tail =>
        have hStore := store_append (a := wantedText facts) (w := [0]) (x := [c]) tail rfl
        have hString := cstrAt_append (notMem_wantedText hNul) [] tail
        rw [if_neg fun h => List.cons_ne_nil c tail h.1]
        rw [List.singleton_append, List.singleton_append] at hStore
        rw [List.nil_append, List.length_nil] at hString
        rw [hStore, Option.bind_eq_bind, Option.bind_some, hString]
        rfl
  · have hNone := wanted_of_not hSend
    have hTest : (!anyDiffers facts || decide ((wantedText facts).length = 0)) = true := by
      rcases Decidable.not_and_iff_or_not.mp hSend with h | h
      · simp [h]
      · simp [Decidable.not_not.mp h]
    rw [finish, if_pos hTest, if_neg fun h => h.2 hNone, hNone]

/-! ## The claim -/

/-- When every fact is needed as it is, they are sent. -/
theorem wanted_of_needed {facts : List Bytes} (hNe : facts ≠ [])
    (h : ∀ f ∈ facts, isNeeded f = true) : wanted facts ≠ none := by
  obtain ⟨f, fs, rfl⟩ := List.exists_cons_of_ne_nil hNe
  have hNeeded := h f List.mem_cons_self
  have hStar : f.getLast? ≠ some (ch '*') := by
    intro hStar
    obtain ⟨name, rfl⟩ := List.getLast?_eq_some_iff.mp hStar
    rw [isNeeded_star] at hNeeded
    cases hNeeded
  have hDiffers : anyDiffers (f :: fs) = true := by
    rw [anyDiffers_cons, anyDiffers, List.any_cons, unstar_plain hStar, hNeeded]
    rfl
  have hText : wantedText (f :: fs) ≠ [] := by
    rw [wantedText_cons, wantedText_singleton, unstar_plain hStar, if_pos hNeeded]
    simp [semicolon, bytes]
  rw [wanted_of_differs hDiffers hText]
  exact Option.some_ne_none _

/-- The function in terms of the facts. -/
theorem sendOPTS_MLST_eq {S : Bytes} (h : 0 ∉ S) :
    sendOPTS_MLST S
      = if ∀ f ∈ S.splitOn (ch ';'), isNeeded f = true then none
        else some (wanted (S.splitOn (ch ';'))) := by
  have hNe := List.splitOn_ne_nil (ch ';') S
  have hJoin : semicolon.intercalate (S.splitOn (ch ';')) = S := List.intercalate_splitOn _
  have hFacts : ∀ f ∈ S.splitOn (ch ';'), ch ';' ∉ f ∧ 0 ∉ f := by
    refine fun f hf => ⟨notMem_of_mem_splitOn f hf, fun hMem => h ?_⟩
    rw [← hJoin]
    exact mem_join hf hMem
  obtain ⟨tail, hLoop, hTail⟩ := loop_facts hNe
    (Nat.lt_succ_of_le (length_splitOn_le (ch ';') S)) hFacts [] [] false
  rw [hJoin] at hLoop
  have hFinish := finish_eq (fun f hf => (hFacts f hf).2) tail
  have hSend : sendOPTS_MLST S = if tail = [] ∧ wanted (S.splitOn (ch ';')) ≠ none then none
      else some (wanted (S.splitOn (ch ';'))) := by
    rw [← hFinish]
    exact congrArg (fun left => left.bind fun left => left.bind fun w => finish w.1 w.2.1 w.2.2) hLoop
  rw [hSend]
  by_cases hAll : ∀ f ∈ S.splitOn (ch ';'), isNeeded f = true
  · rw [if_pos ⟨hTail.mpr ⟨rfl, hAll⟩, wanted_of_needed hNe hAll⟩, if_pos hAll]
  · rw [if_neg fun h => hAll (hTail.mp h.1).2, if_neg hAll]

/-- Nothing behind the copy is used, and what is sent is right, unless every fact is needed as
it is: the semicolon of the last one then takes the place of the NUL. -/
theorem selects_iff {S : Bytes} (h : 0 ∉ S) : Selects S ↔ Room S := by
  unfold Selects Room
  rw [sendOPTS_MLST_eq h]
  by_cases hAll : ∀ f ∈ S.splitOn (ch ';'), isNeeded f = true
  · rw [if_pos hAll]
    refine iff_of_false (fun h => nomatch h) ?_
    rintro ⟨f, hf, hFalse⟩
    rw [hAll f hf] at hFalse
    cases hFalse
  · rw [if_neg hAll]
    refine iff_of_true rfl ?_
    push Not at hAll
    simpa using hAll

theorem selects_types : 0 ∉ bytes "type*;size;lang" ∧ (Selects (bytes "type*;size;lang") ↔
    Room (bytes "type*;size;lang")) := by
  have h : 0 ∉ bytes "type*;size;lang" := by decide
  exact ⟨h, selects_iff h⟩

theorem not_selects : ¬ ∀ S : Bytes, 0 ∉ S → Selects S := by
  intro h
  have hNone : sendOPTS_MLST (bytes "type;size") = none := by decide
  exact Option.some_ne_none _ ((h (bytes "type;size") (by decide)).symm.trans hNone)

end Lftp.Ports.OptsMlst
