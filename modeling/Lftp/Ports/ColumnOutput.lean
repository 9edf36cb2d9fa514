import Mathlib.Algebra.GroupWithZero.Nat
import Lftp.Verified.Decimal
import Lftp.Verified.Loop
import Mathlib.Algebra.Order.BigOperators.Group.List
import Mathlib.Algebra.Order.Group.Nat
import Mathlib.Data.List.Nodup

/-!
# Entries in columns

`get_print_info` looks for the greatest number of columns for which the lines are narrower than the
terminal, and for the blanks that all entries of a column begin with. `print` prints the entries row
by row without these blanks, and indents from one to the next with tabs and blanks.

* `getPrintInfo_ok`: the arrays have an element for each column, and what these are.
* `print_columnar`: each entry is printed once, in its row and where its column starts.
-/

namespace Lftp.Ports.ColumnOutput

open Lftp.Verified

/-! ## Entries -/

/-- `datum`: strings with their colors. -/
abbrev Datum := List (Bytes × Bytes)

/-- What is put to the job; `color` stands for `color_pref`, the color and `color_suf`. -/
inductive Piece
  | text (s : Bytes)
  | color (c : Bytes)
  | reset
  | blank
  | tab
  | newline
deriving DecidableEq

/-- `datum::whitespace` -/
def whitespace : Datum → Nat
  | [] => 0
  | (name, _) :: _ => (name.takeWhile (· = ch ' ')).length

/-- What is put before a string, and `cur_color` then. -/
def changeColor (cur : Option Bytes) (c : Bytes) : List Piece × Option Bytes :=
  if c ≠ [] then
    if cur = none ∨ cur = some c then ([.color c], some c) else ([], cur)
  else if cur.isSome then ([.reset], none)
  else ([], cur)

/-- The loop of `datum::print`. -/
def printParts (color : Bool) : Option Bytes → Nat → Datum → List Piece
  | cur, _, [] => if cur.isSome then [.reset] else []
  | cur, skip, (name, c) :: d =>
    if name.length < skip then printParts color cur (skip - name.length) d
    else
      let p := if color then changeColor cur c else ([], cur)
      p.1 ++ .text (name.drop skip) :: printParts color p.2 0 d

/-- `datum::print` -/
def printDatum (color : Bool) (skip : Nat) (d : Datum) : List Piece := printParts color none skip d

/-- `indent`; a tab goes to the next multiple of 8. -/
def indent (start stop : Nat) : List Piece :=
  if start < stop then
    if stop / 8 > (start + 1) / 8 then .tab :: indent (start + (8 - start % 8)) stop
    else .blank :: indent (start + 1) stop
  else []
termination_by stop - start

section
variable (mbswidth : Bytes → Nat)

/-- `datum::width` -/
def width (d : Datum) : Nat := (d.map fun p => mbswidth p.1).sum

/-! ## Measuring -/

/-- `filesno / ((lst_cnt + cols - 1) / cols)` -/
def index (count cols filesno : Nat) : Nat := filesno / ((count + cols - 1) / cols)

/-- The first loop over the entries, for `ws_arr`. -/
def shareTurn (count cols : Nat) (wsArr : List Nat) (x : Datum × Nat) : Option (List Nat) :=
  let idx := index count cols x.2
  match wsArr[idx]? with
  | none => none
  | some w => some (if whitespace x.1 < w then wsArr.set idx (whitespace x.1) else wsArr)

/-- The second loop over the entries, for `col_arr` and `line_len`. The blanks are a part of the
width, so that the difference is none below 0. -/
def measureTurn (count cols : Nat) (wsArr : List Nat) (s : List Nat × Nat) (x : Datum × Nat) :
    Option (List Nat × Nat) :=
  let idx := index count cols x.2
  match wsArr[idx]?, s.1[idx]? with
  | some w, some len =>
    let realLength := width mbswidth x.1 + (if idx = cols - 1 then 0 else 2) - w
    some (if realLength ≤ len then s else (s.1.set idx realLength, s.2 + (realLength - len)))
  | _, _ => none

structure Info where
  colArr : List Nat
  wsArr : List Nat
  lineLen : Nat

/-- The loops for one number of columns. -/
def measure (lst : List Datum) (maxIdx cols : Nat) : Option Info :=
  (lst.zipIdx.foldlM (shareTurn lst.length cols) (List.replicate maxIdx 99999999)).bind fun wsArr =>
    (lst.zipIdx.foldlM (measureTurn mbswidth lst.length cols wsArr)
      (List.replicate maxIdx 3, cols * 3)).map fun s => ⟨s.1, wsArr, s.2⟩

/-- The loop over `cols`, from the last arrays. -/
def findCols (lst : List Datum) (screen maxIdx : Nat) : Nat → Info → Option (Info × Nat)
  | 0, info => some (info, 1)
  | cols + 1, _ =>
    match measure mbswidth lst maxIdx (cols + 1) with
    | none => none
    | some info =>
      if info.lineLen < screen then some (info, cols + 1) else findCols lst screen maxIdx cols info

/-- `ColumnOutput::get_print_info` -/
def getPrintInfo (lst : List Datum) (screen : Nat) : Option (Info × Nat) :=
  let maxIdx := if screen / 3 = 0 then 1 else screen / 3
  let maxCols := if maxIdx > lst.length then lst.length else maxIdx
  findCols mbswidth lst screen maxIdx (if maxCols < 1 then 1 else maxCols) ⟨[], [], 0⟩

/-! ## Printing -/

/-- Where the cursor is after a piece. -/
def advance (x : Nat) : Piece → Nat
  | .text s => x + mbswidth s
  | .color _ => x
  | .reset => x
  | .blank => x + 1
  | .tab => (x / 8 + 1) * 8
  | .newline => 0

/-- Where the cursor is in a line. -/
def cursor (pieces : List Piece) : Nat := pieces.foldl (advance mbswidth) 0

/-- An entry that has been printed, and where the cursor was then. -/
structure Cell where
  filesno : Nat
  start : Nat
  pieces : List Piece

/-- A row without the newline, and the entries in it. -/
structure Line where
  pieces : List Piece
  cells : List Cell

structure Row where
  col : Nat
  filesno : Nat
  pos : Nat
  line : Line

/-- A turn of the loop over the entries of a row. -/
def rowTurn (lst : List Datum) (info : Info) (rows : Nat) (color : Bool) (s : Row) :
    Row ⊕ Option Line :=
  match lst[s.filesno]?, info.wsArr[s.col]?, info.colArr[s.col]? with
  | some d, some w, some maxNameLength =>
    let cell := printDatum color w d
    let line : Line := ⟨s.line.pieces ++ cell,
      s.line.cells ++ [⟨s.filesno, cursor mbswidth s.line.pieces, cell⟩]⟩
    let nameLength := width mbswidth d - w
    if s.filesno + rows ≥ lst.length then .inr (some line)
    else .inl ⟨s.col + 1, s.filesno + rows, s.pos + maxNameLength,
      ⟨line.pieces ++ indent (s.pos + nameLength) (s.pos + maxNameLength), line.cells⟩⟩
  | _, _, _ => .inr none

def printRow (lst : List Datum) (info : Info) (rows : Nat) (color : Bool) (row : Nat) : Option Line :=
  (loop (rowTurn mbswidth lst info rows color) lst.length ⟨0, row, 0, ⟨[], []⟩⟩).bind id

/-- `ColumnOutput::print`, by rows, and the number of columns. A newline comes after each row. -/
def print (lst : List Datum) (screen : Nat) (color : Bool) : Option (List Line × Nat) :=
  if lst = [] then some ([], 1)
  else
    (getPrintInfo mbswidth lst screen).bind fun p =>
      let rows := lst.length / p.2 + if lst.length % p.2 ≠ 0 then 1 else 0
      ((List.range rows).mapM (printRow mbswidth lst p.1 rows color)).map fun lines => (lines, p.2)

end

/-! ## What is measured -/

section
variable {mbswidth : Bytes → Nat} {lst : List Datum} {maxIdx cols screen : Nat}

theorem le_rows_mul (count : Nat) (h : 1 ≤ cols) : count ≤ (count + cols - 1) / cols * cols := by
  have hDiv := Nat.div_add_mod' (count + cols - 1) cols
  have hMod := Nat.mod_lt (count + cols - 1) h
  omega

theorem rows_pos {count : Nat} (hCount : 0 < count) (h : 1 ≤ cols) :
    0 < (count + cols - 1) / cols := Nat.div_pos (by omega) h

theorem rows_le {count : Nat} (hCount : 0 < count) (h : 1 ≤ cols) :
    (count + cols - 1) / cols ≤ count := by
  apply Nat.div_le_of_le_mul
  obtain ⟨m, rfl⟩ := Nat.exists_eq_add_of_lt hCount
  have hMul : m ≤ cols * m := Nat.le_mul_of_pos_left m h
  rw [Nat.zero_add, Nat.mul_add, Nat.mul_one]
  omega

/-- The two formulas for the number of rows agree. -/
theorem rows_eq (count : Nat) (h : 1 ≤ cols) :
    count / cols + (if count % cols ≠ 0 then 1 else 0) = (count + cols - 1) / cols := by
  have hDiv := Nat.div_add_mod' count cols
  have hMod := Nat.mod_lt count h
  symm
  rw [Nat.div_eq_iff (by omega), Nat.add_mul]
  split <;> simp only [Nat.one_mul, Nat.zero_mul] <;> omega

theorem index_lt {count i : Nat} (hi : i < count) (h : 1 ≤ cols) : index count cols i < cols := by
  have hLe := le_rows_mul count h
  rw [Nat.mul_comm] at hLe
  exact (Nat.div_lt_iff_lt_mul (rows_pos (by omega) h)).mpr (by omega)

theorem mem_zipIdx {x : Datum × Nat} (h : x ∈ lst.zipIdx) : lst[x.2]? = some x.1 := by
  simpa [List.mem_zipIdx_iff_getElem?] using h

theorem lt_of_mem_zipIdx {x : Datum × Nat} (h : x ∈ lst.zipIdx) : x.2 < lst.length :=
  List.getElem?_eq_some_iff.mp (mem_zipIdx h) |>.1

/-- The blanks of a column are blanks of its entries. -/
def Shares (count cols maxIdx : Nat) (wsArr : List Nat) (done : List (Datum × Nat)) : Prop :=
  wsArr.length = maxIdx ∧
    ∀ x ∈ done, ∃ w, wsArr[index count cols x.2]? = some w ∧ w ≤ whitespace x.1

theorem Shares.turn {count : Nat} {ws ws' : List Nat} {done : List (Datum × Nat)}
    {x : Datum × Nat} (h : Shares count cols maxIdx ws done)
    (hTurn : shareTurn count cols ws x = some ws') :
    Shares count cols maxIdx ws' (done ++ [x]) := by
  obtain ⟨hLength, hDone⟩ := h
  unfold shareTurn at hTurn
  dsimp only at hTurn
  cases hGet : ws[index count cols x.2]? with
  | none => simp [hGet] at hTurn
  | some w =>
      obtain ⟨hLt, -⟩ := List.getElem?_eq_some_iff.mp hGet
      have hws : ws' = if whitespace x.1 < w then ws.set (index count cols x.2) (whitespace x.1)
          else ws := by simpa [hGet] using hTurn.symm
      by_cases hLess : whitespace x.1 < w
      · rw [if_pos hLess] at hws
        subst hws
        refine ⟨by rw [List.length_set, hLength], fun y hy => ?_⟩
        by_cases hSame : index count cols x.2 = index count cols y.2
        · refine ⟨whitespace x.1, by rw [← hSame, List.getElem?_set_self hLt], ?_⟩
          rcases List.mem_append.mp hy with hy | hy
          · obtain ⟨w', hGet', hLe⟩ := hDone y hy
            rw [← hSame, hGet] at hGet'
            obtain rfl := Option.some.inj hGet'
            omega
          · rw [List.mem_singleton.mp hy]
        · rcases List.mem_append.mp hy with hy | hy
          · rw [List.getElem?_set_ne hSame]
            exact hDone y hy
          · exact absurd (by rw [List.mem_singleton.mp hy]) hSame
      · rw [if_neg hLess] at hws
        subst hws
        refine ⟨hLength, fun y hy => ?_⟩
        rcases List.mem_append.mp hy with hy | hy
        · exact hDone y hy
        · rw [List.mem_singleton.mp hy]
          exact ⟨w, hGet, not_lt.mp hLess⟩

theorem share_ok (lst : List Datum) (h : 1 ≤ cols) (hMax : cols ≤ maxIdx) :
    ∃ ws, lst.zipIdx.foldlM (shareTurn lst.length cols) (List.replicate maxIdx 99999999) = some ws
      ∧ Shares lst.length cols maxIdx ws lst.zipIdx := by
  obtain ⟨ws, hRun, -⟩ := foldlM_total (f := shareTurn lst.length cols)
    (I := fun ws => ws.length = maxIdx) (l := lst.zipIdx) (fun ws x hx hLength => by
      have hLt : index lst.length cols x.2 < ws.length := by
        have hIdx := index_lt (lt_of_mem_zipIdx hx) h
        omega
      unfold shareTurn
      dsimp only
      rw [List.getElem?_eq_getElem hLt]
      refine ⟨_, rfl, ?_⟩
      split
      · rw [List.length_set, hLength]
      · exact hLength) (List.length_replicate (n := maxIdx) (a := 99999999))
  refine ⟨ws, hRun, ?_⟩
  exact foldlM_rule (I := Shares lst.length cols maxIdx) (d := [])
    (fun _ _ _ _ hShares hTurn => hShares.turn hTurn) hRun ⟨List.length_replicate, nofun⟩

theorem sum_set_add {l : List Nat} {i a b : Nat} (h : l[i]? = some a) :
    (l.set i b).sum + a = l.sum + b := by
  induction l generalizing i with
  | nil => cases h
  | cons c l ih =>
      cases i with
      | zero =>
          obtain rfl : c = a := Option.some.inj h
          rw [List.set_cons_zero, List.sum_cons, List.sum_cons]
          omega
      | succ i =>
          have hRest := ih h
          rw [List.set_cons_succ, List.sum_cons, List.sum_cons]
          omega

/-- The width of an entry with what comes after it, in a column without `w` blanks. -/
def needs (mbswidth : Bytes → Nat) (count cols w : Nat) (x : Datum × Nat) : Nat :=
  width mbswidth x.1 + (if index count cols x.2 = cols - 1 then 0 else 2) - w

theorem measureTurn_eq {count w len : Nat} {ws : List Nat} {s : List Nat × Nat} {x : Datum × Nat}
    (hWs : ws[index count cols x.2]? = some w) (hCol : s.1[index count cols x.2]? = some len) :
    measureTurn mbswidth count cols ws s x = some (if needs mbswidth count cols w x ≤ len then s
      else (s.1.set (index count cols x.2) (needs mbswidth count cols w x),
        s.2 + (needs mbswidth count cols w x - len))) := by
  rw [measureTurn]
  dsimp only
  rw [hWs, hCol]
  rfl

/-- The columns are as wide as their entries need, and `line_len` is their sum. -/
structure Measured (mbswidth : Bytes → Nat) (count cols maxIdx : Nat) (ws : List Nat)
    (s : List Nat × Nat) (done : List (Datum × Nat)) : Prop where
  length : s.1.length = maxIdx
  sum : (s.1.take cols).sum = s.2
  fits : ∀ x ∈ done, ∀ w, ws[index count cols x.2]? = some w →
    ∃ len, s.1[index count cols x.2]? = some len ∧ needs mbswidth count cols w x ≤ len

theorem Measured.turn {count : Nat} {ws : List Nat} {s s' : List Nat × Nat}
    {done : List (Datum × Nat)} {x : Datum × Nat}
    (h : Measured mbswidth count cols maxIdx ws s done) (hIdx : index count cols x.2 < cols)
    (hTurn : measureTurn mbswidth count cols ws s x = some s') :
    Measured mbswidth count cols maxIdx ws s' (done ++ [x]) := by
  cases hWs : ws[index count cols x.2]? with
  | none => simp [measureTurn, hWs] at hTurn
  | some w =>
      cases hCol : s.1[index count cols x.2]? with
      | none => simp [measureTurn, hWs, hCol] at hTurn
      | some len =>
          rw [measureTurn_eq hWs hCol] at hTurn
          have hs : s' = if needs mbswidth count cols w x ≤ len then s
              else (s.1.set (index count cols x.2) (needs mbswidth count cols w x),
                s.2 + (needs mbswidth count cols w x - len)) := (Option.some.inj hTurn).symm
          obtain ⟨hLt, -⟩ := List.getElem?_eq_some_iff.mp hCol
          by_cases hLe : needs mbswidth count cols w x ≤ len
          · rw [if_pos hLe] at hs
            subst hs
            refine ⟨h.length, h.sum, fun y hy w' hw' => ?_⟩
            rcases List.mem_append.mp hy with hy | hy
            · exact h.fits y hy w' hw'
            · obtain rfl := List.mem_singleton.mp hy
              obtain rfl := Option.some.inj (hWs.symm.trans hw')
              exact ⟨len, hCol, hLe⟩
          · rw [if_neg hLe] at hs
            subst hs
            refine ⟨by rw [List.length_set, h.length], ?_, fun y hy w' hw' => ?_⟩
            · have hTake : (s.1.take cols)[index count cols x.2]? = some len := by
                rw [List.getElem?_take_of_lt hIdx, hCol]
              have hSum := sum_set_add (b := needs mbswidth count cols w x) hTake
              rw [h.sum] at hSum
              rw [List.take_set]
              dsimp only
              omega
            · by_cases hSame : index count cols x.2 = index count cols y.2
              · refine ⟨_, by rw [← hSame, List.getElem?_set_self hLt], ?_⟩
                rcases List.mem_append.mp hy with hy | hy
                · obtain ⟨len', hCol', hFits⟩ := h.fits y hy w' hw'
                  rw [← hSame, hCol] at hCol'
                  obtain rfl := Option.some.inj hCol'
                  omega
                · obtain rfl := List.mem_singleton.mp hy
                  obtain rfl := Option.some.inj (hWs.symm.trans hw')
                  exact le_rfl
              · rcases List.mem_append.mp hy with hy | hy
                · rw [List.getElem?_set_ne hSame]
                  exact h.fits y hy w' hw'
                · exact absurd (by rw [List.mem_singleton.mp hy]) hSame

/-- What the arrays say of the entries, for a number of columns. -/
structure Fits (mbswidth : Bytes → Nat) (lst : List Datum) (cols : Nat) (info : Info) : Prop where
  fits : ∀ i d, lst[i]? = some d → ∃ w len, info.wsArr[index lst.length cols i]? = some w
    ∧ info.colArr[index lst.length cols i]? = some len
    ∧ w ≤ whitespace d ∧ needs mbswidth lst.length cols w (d, i) ≤ len
  sum : (info.colArr.take cols).sum = info.lineLen

theorem measure_ok (mbswidth : Bytes → Nat) (lst : List Datum) (h : 1 ≤ cols) (hMax : cols ≤ maxIdx) :
    ∃ info, measure mbswidth lst maxIdx cols = some info ∧ Fits mbswidth lst cols info := by
  obtain ⟨ws, hWs, hShares⟩ := share_ok lst h hMax
  obtain ⟨s, hRun, -⟩ := foldlM_total (f := measureTurn mbswidth lst.length cols ws)
    (I := fun s => s.1.length = maxIdx) (l := lst.zipIdx) (fun s x hx hLength => by
      obtain ⟨w, hGet, -⟩ := hShares.2 x hx
      have hLt : index lst.length cols x.2 < s.1.length := by
        have hIdx := index_lt (lt_of_mem_zipIdx hx) h
        omega
      refine ⟨_, measureTurn_eq hGet (List.getElem?_eq_getElem hLt), ?_⟩
      split
      · exact hLength
      · rw [List.length_set, hLength])
    (s := (List.replicate maxIdx 3, cols * 3)) List.length_replicate
  have hMeasured : Measured mbswidth lst.length cols maxIdx ws s lst.zipIdx := by
    -- the entries that are left to come have columns too
    have hAll := foldlM_rule (f := measureTurn mbswidth lst.length cols ws)
      (I := fun s done => (∀ x ∈ done, index lst.length cols x.2 < cols) →
        Measured mbswidth lst.length cols maxIdx ws s done) (d := [])
      (fun s s' done x hRest hTurn hIdx =>
        (hRest fun y hy => hIdx y (List.mem_append_left _ hy)).turn
          (hIdx x (List.mem_append_right _ (List.mem_singleton_self x))) hTurn) hRun
      (fun _ => ⟨List.length_replicate, by
        rw [List.take_replicate, List.sum_replicate_nat, min_eq_left hMax], nofun⟩)
    exact hAll fun x hx => index_lt (lt_of_mem_zipIdx hx) h
  refine ⟨⟨s.1, ws, s.2⟩, ?_, fun i d hd => ?_, hMeasured.sum⟩
  · rw [measure, hWs, Option.bind_some, hRun]
    rfl
  · have hMem : (d, i) ∈ lst.zipIdx := by simpa [List.mem_zipIdx_iff_getElem?] using hd
    obtain ⟨w, hGet, hLe⟩ := hShares.2 _ hMem
    obtain ⟨len, hCol, hFits⟩ := hMeasured.fits _ hMem w hGet
    exact ⟨w, len, hGet, hCol, hLe, hFits⟩

theorem findCols_ok (hCols : cols ≤ maxIdx) (last : Info)
    (hLast : cols = 0 → Fits mbswidth lst 1 last) :
    ∃ info c, findCols mbswidth lst screen maxIdx cols last = some (info, c) ∧ 1 ≤ c
      ∧ Fits mbswidth lst c info ∧ (c ≠ 1 → info.lineLen < screen) := by
  induction cols generalizing last with
  | zero => exact ⟨last, 1, rfl, le_rfl, hLast rfl, fun h => absurd rfl h⟩
  | succ cols ih =>
      obtain ⟨info, hMeasure, hFits⟩ := measure_ok mbswidth lst (Nat.succ_pos cols) hCols
      rw [findCols, hMeasure]
      dsimp only
      by_cases hLess : info.lineLen < screen
      · rw [if_pos hLess]
        exact ⟨info, cols + 1, rfl, Nat.succ_pos cols, hFits, fun _ => hLess⟩
      · rw [if_neg hLess]
        exact ih (by omega) info fun hZero => by rwa [hZero] at hFits

/-- There are arrays for all columns, and more than one column only where the lines are narrower
than the terminal. -/
theorem getPrintInfo_ok (mbswidth : Bytes → Nat) (lst : List Datum) (screen : Nat) :
    ∃ info c, getPrintInfo mbswidth lst screen = some (info, c) ∧ 1 ≤ c
      ∧ Fits mbswidth lst c info ∧ (c ≠ 1 → info.lineLen < screen) := by
  unfold getPrintInfo
  dsimp only
  apply findCols_ok
  · split_ifs <;> omega
  · intro hZero
    split_ifs at hZero <;> omega

end

/-! ## What is printed -/

/-- A piece of an entry; the others are put between the entries. -/
def Piece.isPart : Piece → Bool
  | .text _ | .color _ | .reset => true
  | .blank | .tab | .newline => false

section
variable {mbswidth : Bytes → Nat} {lst : List Datum} {color : Bool} {x : Nat}

theorem advance_changeColor (cur : Option Bytes) (c : Bytes) :
    (changeColor cur c).1.foldl (advance mbswidth) x = x := by
  unfold changeColor
  split_ifs <;> rfl

theorem advance_printParts (cur : Option Bytes) (d : Datum) :
    (printParts color cur 0 d).foldl (advance mbswidth) x = x + width mbswidth d := by
  induction d generalizing cur x with
  | nil =>
      rw [printParts]
      split <;> rfl
  | cons p d ih =>
      obtain ⟨name, c⟩ := p
      have hColor : (if color then changeColor cur c else ([], cur)).1.foldl (advance mbswidth) x
          = x := by
        split
        · exact advance_changeColor cur c
        · rfl
      rw [printParts, if_neg (Nat.not_lt_zero _)]
      dsimp only
      rw [List.foldl_append, hColor, List.foldl_cons, ih, List.drop_zero, width, width,
        List.map_cons, List.sum_cons, advance, Nat.add_assoc]

/-- The blanks that are left out have a width of 1 each. -/
theorem mbswidth_drop (hBlank : ∀ s, mbswidth (ch ' ' :: s) = mbswidth s + 1) {name : Bytes}
    {skip : Nat} (h : skip ≤ (name.takeWhile (· = ch ' ')).length) :
    mbswidth (name.drop skip) + skip = mbswidth name := by
  induction skip generalizing name with
  | zero => rfl
  | succ skip ih =>
      cases name with
      | nil => simp at h
      | cons c name =>
          by_cases hc : c = ch ' '
          · subst hc
            rw [List.takeWhile_cons_of_pos (by simp), List.length_cons] at h
            have hRest := @ih name (by omega)
            rw [List.drop_succ_cons, hBlank]
            omega
          · rw [List.takeWhile_cons_of_neg (by simpa using hc)] at h
            simp at h

/-- An entry takes its width without the blanks that are left out. -/
theorem advance_printDatum (hBlank : ∀ s, mbswidth (ch ' ' :: s) = mbswidth s + 1) {d : Datum}
    {skip : Nat} (h : skip ≤ whitespace d) :
    (printDatum color skip d).foldl (advance mbswidth) x + skip = x + width mbswidth d := by
  cases d with
  | nil =>
      obtain rfl : skip = 0 := Nat.le_zero.mp h
      rfl
  | cons p d =>
      obtain ⟨name, c⟩ := p
      have hLe : skip ≤ name.length := h.trans (List.takeWhile_prefix _).length_le
      have hColor : (if color then changeColor none c else ([], none)).1.foldl (advance mbswidth) x
          = x := by
        split
        · exact advance_changeColor none c
        · rfl
      have hDrop := mbswidth_drop hBlank h
      rw [printDatum, printParts, if_neg (not_lt.mpr hLe)]
      dsimp only
      rw [List.foldl_append, hColor, List.foldl_cons, advance_printParts, advance, width, width,
        List.map_cons, List.sum_cons]
      dsimp only
      omega

/-- The width of an entry is at least that of its leading blanks. -/
theorem whitespace_le_width (hBlank : ∀ s, mbswidth (ch ' ' :: s) = mbswidth s + 1) (d : Datum) :
    whitespace d ≤ width mbswidth d := by
  cases d with
  | nil => exact le_rfl
  | cons p d =>
      have hDrop := mbswidth_drop hBlank (le_refl (whitespace (p :: d)))
      rw [width, List.map_cons, List.sum_cons]
      omega

theorem isPart_changeColor (cur : Option Bytes) (c : Bytes) :
    ∀ p ∈ (changeColor cur c).1, p.isPart = true := by
  unfold changeColor
  split_ifs <;> simp [Piece.isPart]

theorem isPart_printParts (cur : Option Bytes) (skip : Nat) (d : Datum) :
    ∀ p ∈ printParts color cur skip d, p.isPart = true := by
  induction d generalizing cur skip with
  | nil =>
      rw [printParts]
      split <;> simp [Piece.isPart]
  | cons p d ih =>
      obtain ⟨name, c⟩ := p
      rw [printParts]
      split
      · exact ih _ _
      · intro q hq
        rcases List.mem_append.mp hq with hq | hq
        · split at hq
          · exact isPart_changeColor cur c q hq
          · cases hq
        · rcases List.mem_cons.mp hq with rfl | hq
          · rfl
          · exact ih _ _ q hq

/-- Tabs and blanks lead to where they should. -/
theorem advance_indent {start stop : Nat} (h : start ≤ stop) :
    (indent start stop).foldl (advance mbswidth) start = stop := by
  fun_induction indent start stop with
  | case1 start hLt hTab ih =>
      rw [List.foldl_cons, advance, show (start / 8 + 1) * 8 = start + (8 - start % 8) by omega]
      exact ih (by omega)
  | case2 start hLt hTab ih =>
      rw [List.foldl_cons, advance]
      exact ih (by omega)
  | case3 start hLt => exact le_antisymm h (not_lt.mp hLt)

theorem isPart_indent (start stop : Nat) : ∀ p ∈ indent start stop, p.isPart = false := by
  fun_induction indent start stop with
  | case1 start hLt hTab ih => exact List.forall_mem_cons.mpr ⟨rfl, ih⟩
  | case2 start hLt hTab ih => exact List.forall_mem_cons.mpr ⟨rfl, ih⟩
  | case3 start hLt => nofun

end

/-! ## Rows -/

section
variable {mbswidth : Bytes → Nat} {lst : List Datum} {info : Info} {color : Bool}
  {rows cols r : Nat} {line : Line} {s : Row}

/-- An entry in column `c` of a row. -/
structure Shown (mbswidth : Bytes → Nat) (lst : List Datum) (info : Info) (color : Bool)
    (pieces : List Piece) (filesno c : Nat) (cell : Cell) : Prop where
  filesno : cell.filesno = filesno
  start : cell.start = (info.colArr.take c).sum
  entry : ∃ d w, lst[cell.filesno]? = some d ∧ info.wsArr[c]? = some w ∧ w ≤ whitespace d
    ∧ cell.pieces = printDatum color w d
  placed : ∃ before after, pieces = before ++ cell.pieces ++ after
    ∧ cursor mbswidth before = cell.start

/-- Row `r`, as far as it is printed. -/
structure Placed (mbswidth : Bytes → Nat) (lst : List Datum) (info : Info) (color : Bool)
    (rows r : Nat) (line : Line) : Prop where
  shown : ∀ c cell, line.cells[c]? = some cell →
    Shown mbswidth lst info color line.pieces (r + c * rows) c cell
  contents : line.pieces.filter Piece.isPart = line.cells.flatMap Cell.pieces

theorem Shown.append {pieces : List Piece} {filesno c : Nat} {cell : Cell}
    (h : Shown mbswidth lst info color pieces filesno c cell) (more : List Piece) :
    Shown mbswidth lst info color (pieces ++ more) filesno c cell := by
  obtain ⟨before, after, hPieces, hCursor⟩ := h.placed
  exact ⟨h.filesno, h.start, h.entry, before, after ++ more, by
    rw [hPieces, List.append_assoc (before ++ cell.pieces)], hCursor⟩

/-- One more entry is printed, and something between it and the next. -/
theorem Placed.concat (h : Placed mbswidth lst info color rows r line) {cell : Cell}
    {gap : List Piece} (hCell : ∀ p ∈ cell.pieces, p.isPart = true)
    (hGap : ∀ p ∈ gap, p.isPart = false)
    (hShown : Shown mbswidth lst info color (line.pieces ++ cell.pieces)
      (r + line.cells.length * rows) line.cells.length cell) :
    Placed mbswidth lst info color rows r
      ⟨line.pieces ++ cell.pieces ++ gap, line.cells ++ [cell]⟩ where
  shown := by
    intro c cell' hGet
    rcases Nat.lt_trichotomy c line.cells.length with hLt | rfl | hGt
    · rw [List.getElem?_append_left hLt] at hGet
      have hOld := (h.shown c cell' hGet).append (cell.pieces ++ gap)
      rwa [← List.append_assoc] at hOld
    · rw [List.getElem?_concat_length] at hGet
      obtain rfl := Option.some.inj hGet
      exact hShown.append gap
    · rw [List.getElem?_eq_none (by rw [List.length_append, List.length_singleton]; omega)] at hGet
      cases hGet
  contents := by
    have hSelf : cell.pieces.filter Piece.isPart = cell.pieces := List.filter_eq_self.mpr hCell
    have hNone : gap.filter Piece.isPart = [] :=
      List.filter_eq_nil_iff.mpr fun p hp => by simp [hGap p hp]
    rw [List.filter_append, List.filter_append, h.contents, hSelf, hNone, List.append_nil,
      List.flatMap_append, List.flatMap_singleton]

/-- The state of the loop over the entries of row `r`. -/
structure RowInv (mbswidth : Bytes → Nat) (lst : List Datum) (info : Info) (color : Bool)
    (rows r : Nat) (s : Row) : Prop where
  placed : Placed mbswidth lst info color rows r s.line
  count : s.line.cells.length = s.col
  filesno : s.filesno = r + s.col * rows
  lt : s.filesno < lst.length
  cursor : cursor mbswidth s.line.pieces = s.pos
  start : s.pos = (info.colArr.take s.col).sum

/-- A row that is printed to its end. -/
structure Complete (mbswidth : Bytes → Nat) (lst : List Datum) (info : Info) (color : Bool)
    (rows r : Nat) (line : Line) : Prop extends Placed mbswidth lst info color rows r line where
  all : lst.length ≤ r + line.cells.length * rows
  narrow : cursor mbswidth line.pieces ≤ info.lineLen

theorem index_eq {count c : Nat} (hr : r < (count + cols - 1) / cols) :
    index count cols (r + c * ((count + cols - 1) / cols)) = c := by
  rw [index, Nat.add_mul_div_right _ _ (by omega), Nat.div_eq_of_lt hr, Nat.zero_add]

theorem sum_take_succ {l : List Nat} {c len : Nat} (h : l[c]? = some len) :
    (l.take (c + 1)).sum = (l.take c).sum + len := by
  rw [List.take_add_one, h, List.sum_append]
  simp

/-- A turn of the loop over the entries of a row. -/
theorem RowInv.turn (hBlank : ∀ s, mbswidth (ch ' ' :: s) = mbswidth s + 1)
    (hFits : Fits mbswidth lst cols info) (hCols : 1 ≤ cols)
    (hRows : rows = (lst.length + cols - 1) / cols) (hr : r < rows)
    (h : RowInv mbswidth lst info color rows r s) :
    (∃ line, rowTurn mbswidth lst info rows color s = .inr (some line)
        ∧ Complete mbswidth lst info color rows r line)
      ∨ ∃ s', rowTurn mbswidth lst info rows color s = .inl s'
        ∧ RowInv mbswidth lst info color rows r s'
        ∧ lst.length - s'.filesno - 1 < lst.length - s.filesno - 1 := by
  obtain ⟨d, hd⟩ : ∃ d, lst[s.filesno]? = some d := ⟨_, List.getElem?_eq_getElem h.lt⟩
  obtain ⟨w, len, hWs, hCol, hLe, hNeeds⟩ := hFits.fits _ d hd
  have hIndex : index lst.length cols s.filesno = s.col := by
    rw [h.filesno, hRows]
    exact index_eq (hRows ▸ hr)
  have hColLt : s.col < cols := hIndex ▸ index_lt h.lt hCols
  rw [hIndex] at hWs hCol
  let cell : Cell := ⟨s.filesno, ColumnOutput.cursor mbswidth s.line.pieces, printDatum color w d⟩
  have hNext : ColumnOutput.cursor mbswidth (s.line.pieces ++ cell.pieces) + w
      = s.pos + width mbswidth d := by
    have hCursor := h.cursor
    rw [ColumnOutput.cursor] at hCursor ⊢
    rw [List.foldl_append, hCursor]
    exact advance_printDatum hBlank hLe
  have hWidth : width mbswidth d - w ≤ len := by
    refine le_trans (Nat.sub_le_sub_right (Nat.le_add_right _ _) w) hNeeds
  have hShown : Shown mbswidth lst info color (s.line.pieces ++ cell.pieces)
      (r + s.line.cells.length * rows) s.line.cells.length cell := {
    filesno := by rw [h.count]; exact h.filesno
    start := by rw [h.count, ← h.start]; exact h.cursor
    entry := ⟨d, w, hd, by rw [h.count]; exact hWs, hLe, rfl⟩
    placed := ⟨s.line.pieces, [], (List.append_nil _).symm, rfl⟩ }
  have hCell : ∀ p ∈ cell.pieces, p.isPart = true := isPart_printParts none w d
  have hTurn : rowTurn mbswidth lst info rows color s
      = if s.filesno + rows ≥ lst.length then
          .inr (some ⟨s.line.pieces ++ cell.pieces, s.line.cells ++ [cell]⟩)
        else .inl ⟨s.col + 1, s.filesno + rows, s.pos + len,
          ⟨s.line.pieces ++ cell.pieces ++ indent (s.pos + (width mbswidth d - w)) (s.pos + len),
            s.line.cells ++ [cell]⟩⟩ := by
    rw [rowTurn, hd, hWs, hCol]
  have hwWidth : w ≤ width mbswidth d := hLe.trans (whitespace_le_width hBlank d)
  by_cases hLast : s.filesno + rows ≥ lst.length
  · left
    refine ⟨_, hTurn.trans (if_pos hLast), ?_⟩
    have hPlaced := h.placed.concat hCell (List.forall_mem_nil fun p : Piece => p.isPart = false) hShown
    rw [List.append_nil] at hPlaced
    refine ⟨hPlaced, ?_, ?_⟩
    · rw [List.length_append, List.length_singleton, h.count, Nat.add_mul, Nat.one_mul,
        ← Nat.add_assoc, ← h.filesno]
      exact hLast
    · have hSum := sum_take_succ hCol
      have hMono : (info.colArr.take (s.col + 1)).sum ≤ (info.colArr.take cols).sum :=
        ((List.take_prefix_take_left hColLt).sublist).sum_le_sum fun _ _ => Nat.zero_le _
      rw [hFits.sum] at hMono
      have hStart := h.start
      dsimp only
      omega
  · right
    refine ⟨_, hTurn.trans (if_neg hLast), ?_, ?_⟩
    · exact {
        placed := h.placed.concat hCell (isPart_indent _ _) hShown
        count := by rw [List.length_append, List.length_singleton, h.count]
        filesno := by
          dsimp only
          rw [h.filesno, Nat.add_mul, Nat.one_mul, Nat.add_assoc]
        lt := not_le.mp hLast
        cursor := by
          have hGap : ColumnOutput.cursor mbswidth (s.line.pieces ++ cell.pieces)
              = s.pos + (width mbswidth d - w) := by omega
          dsimp only
          rw [ColumnOutput.cursor] at hGap ⊢
          rw [List.foldl_append, hGap]
          exact advance_indent (Nat.add_le_add_left hWidth _)
        start := by
          dsimp only
          rw [sum_take_succ hCol, h.start] }
    · have hPos : 0 < rows := Nat.zero_lt_of_lt hr
      dsimp only
      omega

theorem printRow_ok (hBlank : ∀ s, mbswidth (ch ' ' :: s) = mbswidth s + 1)
    (hFits : Fits mbswidth lst cols info) (hCols : 1 ≤ cols)
    (hRows : rows = (lst.length + cols - 1) / cols) (hr : r < rows) (hLt : r < lst.length) :
    ∃ line, printRow mbswidth lst info rows color r = some line
      ∧ Complete mbswidth lst info color rows r line := by
  have hStart : RowInv mbswidth lst info color rows r ⟨0, r, 0, ⟨[], []⟩⟩ := {
    placed := ⟨nofun, rfl⟩
    count := rfl
    filesno := by rw [Nat.zero_mul, Nat.add_zero]
    lt := hLt
    cursor := rfl
    start := rfl }
  obtain ⟨line?, hLoop, line, rfl, hComplete⟩ := loop_total
    (f := rowTurn mbswidth lst info rows color) (I := RowInv mbswidth lst info color rows r)
    (Q := fun line? => ∃ line, line? = some line ∧ Complete mbswidth lst info color rows r line)
    (n := lst.length) (fun s => lst.length - s.filesno - 1)
    (fun s h => by
      rcases h.turn hBlank hFits hCols hRows hr with ⟨line, hTurn, hComplete⟩ | hNext
      · exact .inl ⟨_, hTurn, line, rfl, hComplete⟩
      · exact .inr hNext)
    hStart (by dsimp only; omega)
  exact ⟨line, by rw [printRow, hLoop]; rfl, hComplete⟩

/-- The entries of a row are those whose numbers are `r` up to multiples of the number of rows. -/
theorem Complete.files (h : Complete mbswidth lst info color rows r line) (hr : r < rows) :
    line.cells.map Cell.filesno = (List.range lst.length).filter (· % rows = r) := by
  have hEq : line.cells.map Cell.filesno
      = (List.range line.cells.length).map fun c => r + c * rows := by
    apply List.ext_getElem
    · simp
    · intro c hc _
      rw [List.length_map] at hc
      simpa using (h.shown c _ (List.getElem?_eq_getElem hc)).filesno
  have hBelow : ∀ c < line.cells.length, r + c * rows < lst.length := by
    intro c hc
    have hShown := h.shown c _ (List.getElem?_eq_getElem hc)
    obtain ⟨d, w, hd, -⟩ := hShown.entry
    rw [← hShown.filesno]
    exact (List.getElem?_eq_some_iff.mp hd).1
  have hSorted : ((List.range line.cells.length).map fun c => r + c * rows).Pairwise (· < ·) := by
    rw [List.pairwise_map]
    exact List.pairwise_lt_range.imp fun hLt =>
      Nat.add_lt_add_left (Nat.mul_lt_mul_of_pos_right hLt (by omega)) r
  have hSorted' : ((List.range lst.length).filter (· % rows = r)).Pairwise (· < ·) :=
    List.pairwise_lt_range.filter _
  have hMem : ∀ i, i ∈ ((List.range line.cells.length).map fun c => r + c * rows)
      ↔ i ∈ (List.range lst.length).filter (· % rows = r) := by
    intro i
    simp only [List.mem_map, List.mem_range, List.mem_filter, decide_eq_true_eq]
    constructor
    · rintro ⟨c, hc, rfl⟩
      exact ⟨hBelow c hc, by rw [Nat.add_mul_mod_self_right, Nat.mod_eq_of_lt hr]⟩
    · rintro ⟨hi, hMod⟩
      have hDiv := Nat.mod_add_div' i rows
      refine ⟨i / rows, ?_, by rw [← hMod]; exact hDiv⟩
      have hAll := h.all
      rw [hMod] at hDiv
      by_contra hNot
      have hMul := Nat.mul_le_mul_right rows (not_lt.mp hNot)
      omega
  rw [hEq]
  refine List.Perm.eq_of_pairwise (fun a b _ _ hab hba => absurd hab (by omega)) hSorted hSorted' ?_
  exact (List.perm_ext_iff_of_nodup (hSorted.imp Nat.ne_of_lt) (hSorted'.imp Nat.ne_of_lt)).mpr hMem

end

/-! ## The whole output -/

/-- The output of entries in columns. -/
structure Columnar (mbswidth : Bytes → Nat) (lst : List Datum) (screen : Nat) (color : Bool)
    (lines : List Line) (cols : Nat) : Prop where
  rows : lines.length = (lst.length + cols - 1) / cols
  /-- Down the columns: row `r` has every entry whose number is `r` up to multiples of the number
  of rows. -/
  major : ∀ r line, lines[r]? = some line →
    line.cells.map Cell.filesno = (List.range lst.length).filter (· % lines.length = r)
  once : (lines.flatMap fun line => line.cells.map Cell.filesno).Perm (List.range lst.length)
  /-- Nothing else than tabs and blanks is printed besides. -/
  contents : ∀ line ∈ lines, line.pieces.filter Piece.isPart = line.cells.flatMap Cell.pieces
  /-- The entries of a column start at the same place, and lack the same number of blanks. -/
  aligned : ∃ start skip : Nat → Nat, ∀ line ∈ lines, ∀ c cell, line.cells[c]? = some cell →
    cell.start = start c
    ∧ (∃ d, lst[cell.filesno]? = some d ∧ skip c ≤ whitespace d
      ∧ cell.pieces = printDatum color (skip c) d)
    ∧ ∃ before after, line.pieces = before ++ cell.pieces ++ after
      ∧ cursor mbswidth before = cell.start
  narrow : cols ≠ 1 → ∀ line ∈ lines, cursor mbswidth line.pieces < screen

theorem columnar_nil (mbswidth : Bytes → Nat) (screen : Nat) (color : Bool) :
    Columnar mbswidth [] screen color [] 1 where
  rows := rfl
  major := nofun
  once := List.Perm.refl _
  contents := nofun
  aligned := ⟨fun _ => 0, fun _ => 0, nofun⟩
  narrow := nofun

/-- All rows together have all entries. -/
theorem perm_rows (n : Nat) {rows : Nat} (h : 0 < rows) :
    ((List.range rows).flatMap fun r => (List.range n).filter (· % rows = r)).Perm
      (List.range n) := by
  refine (List.perm_ext_iff_of_nodup ?_ List.nodup_range).mpr fun i => ?_
  · rw [List.nodup_flatMap]
    refine ⟨fun r _ => List.nodup_range.filter _, ?_⟩
    refine List.nodup_range.imp fun {r r'} hNe i hi hi' => hNe ?_
    rw [List.mem_filter, decide_eq_true_eq] at hi hi'
    exact hi.2.symm.trans hi'.2
  · simp only [List.mem_flatMap, List.mem_filter, List.mem_range, decide_eq_true_eq]
    exact ⟨fun ⟨_, _, hi, _⟩ => hi, fun hi => ⟨i % rows, Nat.mod_lt i h, hi, rfl⟩⟩

/-- Whatever the entries and the width of the terminal, they are printed in columns. -/
theorem print_columnar (mbswidth : Bytes → Nat)
    (hBlank : ∀ s, mbswidth (ch ' ' :: s) = mbswidth s + 1) (lst : List Datum) (screen : Nat)
    (color : Bool) :
    ∃ lines cols, print mbswidth lst screen color = some (lines, cols)
      ∧ Columnar mbswidth lst screen color lines cols := by
  by_cases hNil : lst = []
  · subst hNil
    exact ⟨[], 1, rfl, columnar_nil mbswidth screen color⟩
  obtain ⟨info, cols, hInfo, hCols, hFits, hNarrow⟩ :=
    getPrintInfo_ok mbswidth lst screen
  have hPos : 0 < lst.length := List.length_pos_iff.mpr hNil
  let rows := (lst.length + cols - 1) / cols
  have hRows : 0 < rows := rows_pos hPos hCols
  have hRowsLe : rows ≤ lst.length := rows_le hPos hCols
  obtain ⟨lines, hLines, hAll⟩ := mapM_total (f := printRow mbswidth lst info rows color)
    (P := Complete mbswidth lst info color rows) (l := List.range rows) fun r hr =>
      printRow_ok hBlank hFits hCols rfl (List.mem_range.mp hr)
        ((List.mem_range.mp hr).trans_le hRowsLe)
  have hLength : lines.length = rows := by rw [← hAll.length_eq, List.length_range]
  have hRow : ∀ r line, lines[r]? = some line →
      r < rows ∧ Complete mbswidth lst info color rows r line := by
    intro r line hLine
    obtain ⟨hLt, rfl⟩ := List.getElem?_eq_some_iff.mp hLine
    have hComplete := hAll.get (i := r) (by rw [hAll.length_eq]; exact hLt) hLt
    rw [List.get_eq_getElem, List.getElem_range] at hComplete
    exact ⟨hLength ▸ hLt, hComplete⟩
  have hMem : ∀ line ∈ lines, ∃ r, r < rows ∧ Complete mbswidth lst info color rows r line := by
    intro line hLine
    obtain ⟨r, hr, rfl⟩ := List.getElem_of_mem hLine
    exact ⟨r, hRow r _ (List.getElem?_eq_getElem hr)⟩
  have hFiles : lines.map (fun line => line.cells.map Cell.filesno)
      = (List.range rows).map fun r => (List.range lst.length).filter (· % rows = r) := by
    apply List.ext_getElem
    · simp [hLength]
    · intro r hr _
      rw [List.length_map] at hr
      have hComplete := (hRow r _ (List.getElem?_eq_getElem hr)).2
      simpa using hComplete.files (hLength ▸ hr)
  refine ⟨lines, cols, ?_, {
    rows := hLength
    major := fun r line hLine => by
      obtain ⟨hr, hComplete⟩ := hRow r line hLine
      rw [hLength]
      exact hComplete.files hr
    once := by
      rw [List.flatMap_def, hFiles, ← List.flatMap_def]
      exact perm_rows lst.length hRows
    contents := fun line hLine => by
      obtain ⟨r, -, hComplete⟩ := hMem line hLine
      exact hComplete.contents
    aligned := ⟨fun c => (info.colArr.take c).sum, fun c => info.wsArr[c]?.getD 0,
      fun line hLine c cell hCell => by
        obtain ⟨r, -, hComplete⟩ := hMem line hLine
        have hShown := hComplete.shown c cell hCell
        obtain ⟨d, w, hd, hWs, hLe, hPieces⟩ := hShown.entry
        dsimp only
        rw [hWs]
        exact ⟨hShown.start, ⟨d, hd, hLe, hPieces⟩, hShown.placed⟩⟩
    narrow := fun hMany line hLine => by
      obtain ⟨r, -, hComplete⟩ := hMem line hLine
      exact hComplete.narrow.trans_lt (hNarrow hMany) }⟩
  rw [print, if_neg hNil, hInfo, Option.bind_some]
  dsimp only
  rw [rows_eq lst.length hCols, hLines]
  rfl

/-- Three entries, where a byte is a character. -/
def listing : List Datum := [[([32, 97], [])], [([32, 98, 99], [1]), ([47], [])], [([32, 100], [])]]

theorem print_listing :
    (∀ s : Bytes, (ch ' ' :: s).length = s.length + 1) ∧
      ∃ lines cols, print List.length listing 10 true = some (lines, cols)
        ∧ Columnar List.length listing 10 true lines cols :=
  ⟨fun _ => rfl, print_columnar List.length (fun _ => rfl) listing 10 true⟩

end Lftp.Ports.ColumnOutput
