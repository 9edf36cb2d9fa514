import Lftp.Ports.MlsdFacts

/-!
# Which parser reads a listing

A translation of `Ftp::ParseLongList`: every line is given to all parsers until one is
ahead, and that one reads the rest. The loop keeps the parser with the fewest errors and
the second one as it goes.

* `run_first`: where some parser makes no error, the first of these in the table is taken.
* `run_tracks`: the set and the error count are those of the parser that is taken.
* `nothingDropped_iff`: when that parser drops nothing another one would keep.
-/

namespace Lftp.Ports.FtpListInfo

open Lftp.Verified Lftp.Ports.FileSets

/-! ## The loop -/

/-- `chomp`. -/
def chomp (c : UInt8) (s : Bytes) : Bytes := if s.getLast? = some c then s.dropLast else s

/-- The lines of a listing: each ends with a newline, and empty ones are skipped. -/
def listLines (buf : Bytes) : List Bytes :=
  ((buf.splitOn (ch '\n')).dropLast.map (chomp (ch '\r'))).filter (· ≠ [])

/-- The file that is added to a set: one slash at the end of a name is dropped. -/
def kept (info : FileInfo) : Option FileInfo :=
  let name := if 1 < info.name.length then chomp (ch '/') info.name else info.name
  if name.contains (ch '/') then none else some { info with name := name }

/-- `FileSet::Add`, on a set that is not sorted. -/
def addFile (set : FileSet) (fi : FileInfo) : FileSet :=
  { set with files := Rows.mergeOne FileInfo.name FileInfo.merge set.files fi }

def emptySet : FileSet := FileSet.ofSet none

/-- The local variables of `ParseLongList`; the index of a parser stands for the pointers
to its error count and to its set. -/
structure LongList where
  err : Nat → Nat
  set : Nat → FileSet
  bestErr1 : Nat
  bestErr2 : Nat
  guessed : Option Nat

def longListInit : LongList := ⟨fun _ => 0, fun _ => emptySet, 0, 1, none⟩

/-- What a parser turns a line into. -/
def entry (p : LineParser) (line : Bytes) : Option FileInfo := ((p (cstr line)).join).bind kept

/-- Whether a parser counts an error. -/
def isError (p : LineParser) (line : Bytes) : Bool := (p (cstr line)).isNone

/-- A line given to the parser `i`. -/
def parseWith (p : LineParser) (i : Nat) (line : Bytes) (s : LongList) : LongList :=
  { s with
    err := if isError p line then Function.update s.err i (s.err i + 1) else s.err
    set := (entry p line).elim s.set fun fi => Function.update s.set i (addFile (s.set i) fi) }

/-- The two comparisons after the parser `i`. -/
def compareErr (i : Nat) (s : LongList) : LongList :=
  let best₁ := if s.err i < s.err s.bestErr1 then i else s.bestErr1
  { s with
    bestErr1 := best₁
    bestErr2 := if s.err i < s.err s.bestErr2 ∧ best₁ ≠ i then i else s.bestErr2 }

section
variable (parsers : List LineParser)

def parserAt (i : Nat) : LineParser := parsers.getD i fun _ => none

/-- The turn of the parser `i`; no value where the best one has too many errors. -/
def parserTurn (line : Bytes) (i : Nat) (s : LongList) : Option LongList :=
  let s := compareErr i (parseWith (parserAt parsers i) i line s)
  if 16 < s.err s.bestErr1 then none else some s

/-- The turns of the first `k` parsers. -/
def parserTurns (line : Bytes) : Nat → LongList → Option LongList
  | 0, s => some s
  | k + 1, s => (parserTurns line k s).bind (parserTurn parsers line k)

/-- A turn of the loop over the lines. -/
def lineTurn (s : LongList) (line : Bytes) : Option LongList :=
  match s.guessed with
  | none =>
    (parserTurns parsers line parsers.length s).map fun s =>
      { s with guessed :=
          if (s.err s.bestErr1 + 1) * 16 < s.err s.bestErr2 then some s.bestErr1 else none }
  | some i => some (parseWith (parserAt parsers i) i line s)

/-- The parser whose set is returned. -/
def LongList.chosen (s : LongList) : Nat := s.guessed.getD s.bestErr1

/-- All lines; no value is the label `leave`. -/
def parseLines (lines : List Bytes) : Option LongList := lines.foldlM (lineTurn parsers) longListInit

/-- `Ftp::ParseLongList`: the set and the error count. -/
def parseLongList (buf : Bytes) : Option FileSet × Nat :=
  match parseLines parsers (listLines buf) with
  | none => (none, 0)
  | some s => (some (s.set s.chosen), s.err s.chosen)

/-! ## Sets and errors of one parser -/

/-- The errors of a parser. -/
def errors (p : LineParser) (lines : List Bytes) : Nat := lines.countP (isError p)

/-- The set of a parser. -/
def setOf (p : LineParser) (lines : List Bytes) : FileSet :=
  (lines.filterMap (entry p)).foldl addFile emptySet

def Accepts (p : LineParser) (lines : List Bytes) : Prop := ∀ line ∈ lines, isError p line = false

theorem errors_eq_zero {p : LineParser} {lines : List Bytes} :
    errors p lines = 0 ↔ Accepts p lines := by
  unfold errors Accepts
  rw [List.countP_eq_zero]
  simp only [Bool.not_eq_true]

theorem errors_snoc (p : LineParser) (lines : List Bytes) (line : Bytes) :
    errors p (lines ++ [line]) = errors p lines + if isError p line then 1 else 0 := by
  unfold errors
  rw [List.countP_append, List.countP_singleton]

theorem setOf_snoc (p : LineParser) (lines : List Bytes) (line : Bytes) :
    setOf p (lines ++ [line]) = (entry p line).elim (setOf p lines) (addFile (setOf p lines)) := by
  unfold setOf
  rw [List.filterMap_append, List.foldl_append]
  cases hEntry : entry p line with
  | none => rw [List.filterMap_cons_none hEntry]; rfl
  | some fi => rw [List.filterMap_cons_some hEntry]; rfl

theorem files_foldl_addFile (infos : List FileInfo) (set : FileSet) :
    (infos.foldl addFile set).files
      = infos.foldl (Rows.mergeOne FileInfo.name FileInfo.merge) set.files := by
  induction infos generalizing set with
  | nil => rfl
  | cons fi infos ih => exact ih (addFile set fi)

/-- The files of a set in the order of their names, and what is found under a name. -/
theorem setOf_files (p : LineParser) (lines : List Bytes) :
    Rows.Increasing FileInfo.name (setOf p lines).files ∧
      ∀ name, Rows.lookup FileInfo.name (setOf p lines).files name
        = ((lines.filterMap (entry p)).filter fun fi => compare fi.name name == .eq).foldl
          (fun o fi => Rows.join FileInfo.merge o (some fi)) none := by
  unfold setOf
  rw [files_foldl_addFile]
  exact Rows.foldl_mergeOne (fun f g _ => FileSet.merge_name f g) List.Pairwise.nil _

/-- The names in a set are those of the entries. -/
theorem name_of_setOf {p : LineParser} {lines : List Bytes} {f : FileInfo}
    (hf : f ∈ (setOf p lines).files) :
    ∃ line ∈ lines, ∃ fi, entry p line = some fi ∧ fi.name = f.name := by
  obtain ⟨hIncreasing, hLookup⟩ := setOf_files p lines
  have hFound := Rows.lookup_mem hIncreasing hf
  rw [hLookup] at hFound
  cases hSame : (lines.filterMap (entry p)).filter fun fi => compare fi.name f.name == .eq with
  | nil =>
      rw [hSame] at hFound
      cases hFound
  | cons fi rest =>
      have hMem := List.mem_filter.mp (hSame ▸ List.mem_cons_self : fi ∈ _)
      obtain ⟨line, hLine, hEntry⟩ := List.mem_filterMap.mp hMem.1
      exact ⟨line, hLine, fi, hEntry, Std.LawfulEqOrd.eq_of_compare (beq_iff_eq.mp hMem.2)⟩

/-- The parser `i` has read the lines. -/
def Tallied (s : LongList) (lines : List Bytes) (i : Nat) : Prop :=
  s.err i = errors (parserAt parsers i) lines ∧ s.set i = setOf (parserAt parsers i) lines

variable {parsers} {s s' : LongList} {lines : List Bytes} {line : Bytes} {i j k : Nat}

theorem tallied_congr (hErr : s'.err j = s.err j) (hSet : s'.set j = s.set j)
    (h : Tallied parsers s lines j) : Tallied parsers s' lines j :=
  ⟨hErr.trans h.1, hSet.trans h.2⟩

theorem parseWith_self (h : Tallied parsers s lines i) :
    Tallied parsers (parseWith (parserAt parsers i) i line s) (lines ++ [line]) i := by
  unfold Tallied parseWith
  rw [errors_snoc, setOf_snoc, ← h.1, ← h.2]
  constructor
  · dsimp only
    split
    · exact Function.update_self _ _ _
    · rfl
  · dsimp only
    cases entry (parserAt parsers i) line with
    | none => rfl
    | some fi => exact Function.update_self _ _ _

theorem parseWith_other (p : LineParser) (line : Bytes) (hNe : j ≠ i) :
    (parseWith p i line s).err j = s.err j ∧ (parseWith p i line s).set j = s.set j := by
  unfold parseWith
  constructor
  · dsimp only
    split
    · exact Function.update_of_ne hNe _ _
    · rfl
  · dsimp only
    cases entry p line with
    | none => rfl
    | some fi => exact Function.update_of_ne hNe _ _

theorem parserTurn_eq (h : parserTurn parsers line i s = some s') :
    s' = compareErr i (parseWith (parserAt parsers i) i line s) := by
  unfold parserTurn at h
  dsimp only at h
  split at h
  · cases h
  · exact (Option.some.inj h).symm

/-- The first `k` parsers have read one line more. -/
theorem parserTurns_tallied (h : parserTurns parsers line k s = some s')
    (hs : ∀ j < parsers.length, Tallied parsers s lines j) :
    (∀ j < parsers.length, Tallied parsers s' (if j < k then lines ++ [line] else lines) j)
      ∧ s'.guessed = s.guessed ∧ (s'.bestErr1 = s.bestErr1 ∨ s'.bestErr1 < k) := by
  induction k generalizing s' with
  | zero =>
      cases h
      refine ⟨fun j hj => ?_, rfl, .inl rfl⟩
      rw [if_neg (Nat.not_lt_zero j)]
      exact hs j hj
  | succ k ih =>
      obtain ⟨t, ht, hTurn⟩ := Option.bind_eq_some_iff.mp h
      obtain ⟨hTallied, hGuessed, hBest⟩ := ih ht
      rw [parserTurn_eq hTurn]
      refine ⟨fun j hj => ?_, hGuessed, ?_⟩
      · rcases Nat.lt_trichotomy j k with hLt | rfl | hGt
        · have hOld := hTallied j hj
          rw [if_pos hLt] at hOld
          rw [if_pos (by omega)]
          obtain ⟨hErr, hSet⟩ := parseWith_other (s := t) (parserAt parsers k) line
            (Nat.ne_of_lt hLt)
          exact tallied_congr hErr hSet hOld
        · have hOld := hTallied j hj
          rw [if_neg (Nat.lt_irrefl j)] at hOld
          rw [if_pos (Nat.lt_succ_self j)]
          exact parseWith_self hOld
        · have hOld := hTallied j hj
          rw [if_neg (by omega)] at hOld
          rw [if_neg (by omega)]
          obtain ⟨hErr, hSet⟩ := parseWith_other (s := t) (parserAt parsers k) line
            (Nat.ne_of_gt hGt)
          exact tallied_congr hErr hSet hOld
      · show (if _ then k else t.bestErr1) = _ ∨ (if _ then k else t.bestErr1) < k + 1
        split
        · exact .inr (Nat.lt_succ_self k)
        · exact hBest.imp_right fun hLt => Nat.lt_succ_of_lt hLt

/-- What is known of the parsers after some lines; once a parser is guessed, of that one. -/
def Tracks (parsers : List LineParser) (s : LongList) (lines : List Bytes) : Prop :=
  s.chosen < parsers.length ∧ Tallied parsers s lines s.chosen
    ∧ (s.guessed = none → ∀ j < parsers.length, Tallied parsers s lines j)

theorem lineTurn_tracks (h : lineTurn parsers s line = some s') (hs : Tracks parsers s lines) :
    Tracks parsers s' (lines ++ [line]) := by
  obtain ⟨hChosen, hTallied, hAll⟩ := hs
  cases hGuessed : s.guessed with
  | some i =>
      rw [lineTurn, hGuessed] at h
      cases h
      have hi : s.chosen = i := by rw [LongList.chosen, hGuessed]; rfl
      have hi' : (parseWith (parserAt parsers i) i line s).chosen = i := hi
      rw [hi] at hChosen hTallied
      refine ⟨hi'.symm ▸ hChosen, ?_, fun hNone => ?_⟩
      · rw [hi']
        exact parseWith_self hTallied
      · exact absurd (hGuessed.symm.trans hNone) nofun
  | none =>
      rw [lineTurn, hGuessed] at h
      obtain ⟨t, ht, rfl⟩ := Option.map_eq_some_iff.mp h
      obtain ⟨hTurns, -, hBest⟩ := parserTurns_tallied ht (hAll hGuessed)
      have hOne : s.bestErr1 = s.chosen := by rw [LongList.chosen, hGuessed]; rfl
      have hLt : t.bestErr1 < parsers.length := by
        rcases hBest with hBest | hBest
        · rw [hBest, hOne]
          exact hChosen
        · exact hBest
      have hEvery : ∀ j < parsers.length, Tallied parsers t (lines ++ [line]) j := by
        intro j hj
        have hTurn := hTurns j hj
        rwa [if_pos hj] at hTurn
      generalize hGuess : (if (t.err t.bestErr1 + 1) * 16 < t.err t.bestErr2 then
        some t.bestErr1 else none) = guess
      have hSame : guess.getD t.bestErr1 = t.bestErr1 := by
        rw [← hGuess]
        split <;> rfl
      unfold Tracks LongList.chosen
      dsimp only
      rw [hSame]
      exact ⟨hLt, hEvery _ hLt, fun _ => hEvery⟩

/-- The set and the error count are those of the parser that is taken. -/
theorem run_tracks (hSome : 0 < parsers.length) (h : parseLines parsers lines = some s) :
    Tracks parsers s lines := by
  have hInit : Tracks parsers longListInit [] :=
    ⟨hSome, ⟨rfl, rfl⟩, fun _ _ _ => ⟨rfl, rfl⟩⟩
  exact foldlM_rule (fun s s' done line hs hTurn => lineTurn_tracks hTurn hs) h hInit

/-! ## Where a parser makes no error -/

/-- Before the turn of the parser `k`, where the parser `p` has made no error and those before
it have: the best one is not behind `p`, and it has no error after the turn of `p`. -/
structure Leads (s : LongList) (p k : Nat) : Prop where
  clean : s.err p = 0
  le : s.bestErr1 ≤ p
  small : s.err s.bestErr1 ≤ 1
  fresh : k ≤ s.bestErr1 → s.err s.bestErr1 = 0
  best : p < k → s.err s.bestErr1 = 0
  second : p < k → s.bestErr1 ≠ p →
    s.err s.bestErr2 ≤ 1 ∧ (k ≤ s.bestErr2 → s.err s.bestErr2 = 0)

theorem parseWith_err (p : LineParser) (line : Bytes) :
    (parseWith p i line s).err i ≤ s.err i + 1
      ∧ (isError p line = false → (parseWith p i line s).err i = s.err i) := by
  unfold parseWith
  dsimp only
  split
  · rename_i hError
    rw [Function.update_self]
    exact ⟨Nat.le_refl _, fun hNone => absurd (hError.symm.trans hNone) nofun⟩
  · exact ⟨Nat.le_succ _, fun _ => rfl⟩

/-- The comparisons, after the parser `k` has made at most one error more. -/
theorem compareErr_leads {t : LongList} {p : Nat} (h : Leads s p k)
    (hUp : t.err k ≤ s.err k + 1) (hOther : ∀ j, j ≠ k → t.err j = s.err j)
    (hBest₁ : t.bestErr1 = s.bestErr1) (hBest₂ : t.bestErr2 = s.bestErr2) (hClean : t.err p = 0) :
    Leads (compareErr k t) p (k + 1) := by
  obtain ⟨-, hLe, hSmall, hFresh, hBest, hSecond⟩ := h
  rw [← hBest₁] at hLe hSmall hFresh hBest hSecond
  rw [← hBest₂] at hSecond
  have hSmall' : t.err t.bestErr1 ≤ 1 := by
    by_cases hk : t.bestErr1 = k
    · have := hFresh (Nat.le_of_eq hk.symm)
      rw [hk] at this ⊢
      omega
    · rw [hOther _ hk]
      exact hSmall
  have hFresh' : k + 1 ≤ t.bestErr1 → t.err t.bestErr1 = 0 := by
    intro hk
    rw [hOther _ (by omega)]
    exact hFresh (by omega)
  have hBest' : p < k → t.err t.bestErr1 = 0 := by
    intro hk
    rw [hOther _ (by omega)]
    exact hBest hk
  have hSecond' : p < k → t.bestErr1 ≠ p →
      t.err t.bestErr2 ≤ 1 ∧ (k + 1 ≤ t.bestErr2 → t.err t.bestErr2 = 0) := by
    intro hp hNe
    obtain ⟨hOne, hZero⟩ := hSecond hp hNe
    by_cases hk : t.bestErr2 = k
    · have := hZero (Nat.le_of_eq hk.symm)
      rw [hk] at this ⊢
      omega
    · rw [hOther _ hk]
      exact ⟨hOne, fun _ => hZero (by omega)⟩
  have hHere : p = k → t.err k = 0 := fun hp => hp ▸ hClean
  unfold compareErr
  constructor
  · exact hClean
  · dsimp only
    split <;> omega
  · dsimp only
    split <;> omega
  · dsimp only
    split <;> omega
  · dsimp only
    split <;> omega
  · dsimp only
    split <;> split <;> omega

theorem parserTurn_leads {p : Nat} (h : Leads s p k)
    (hAccepts : isError (parserAt parsers p) line = false) :
    ∃ s', parserTurn parsers line k s = some s' ∧ Leads s' p (k + 1) := by
  obtain ⟨hUp, hSame⟩ := parseWith_err (i := k) (s := s) (parserAt parsers k) line
  have hOther : ∀ j, j ≠ k → (parseWith (parserAt parsers k) k line s).err j = s.err j :=
    fun j hj => (parseWith_other (parserAt parsers k) line hj).1
  have hBest₁ : (parseWith (parserAt parsers k) k line s).bestErr1 = s.bestErr1 := rfl
  have hBest₂ : (parseWith (parserAt parsers k) k line s).bestErr2 = s.bestErr2 := rfl
  have hClean : (parseWith (parserAt parsers k) k line s).err p = 0 := by
    by_cases hp : p = k
    · subst hp
      rw [hSame hAccepts, h.clean]
    · rw [hOther p hp, h.clean]
  generalize hTurn : parseWith (parserAt parsers k) k line s = t at hUp hOther hBest₁ hBest₂ hClean
  have hLeads : Leads (compareErr k t) p (k + 1) :=
    compareErr_leads h hUp hOther hBest₁ hBest₂ hClean
  have hFew : ¬ 16 < (compareErr k t).err (compareErr k t).bestErr1 := by
    have := hLeads.small
    omega
  refine ⟨compareErr k t, ?_, hLeads⟩
  unfold parserTurn
  rw [hTurn]
  exact if_neg hFew

theorem parserTurns_leads {p : Nat} (h : Leads s p 0)
    (hAccepts : isError (parserAt parsers p) line = false) :
    ∃ s', parserTurns parsers line k s = some s' ∧ Leads s' p k := by
  induction k with
  | zero => exact ⟨s, rfl, h⟩
  | succ k ih =>
      obtain ⟨t, ht, hLeads⟩ := ih
      obtain ⟨s', hs', hLeads'⟩ := parserTurn_leads hLeads hAccepts
      exact ⟨s', by rw [parserTurns, ht, Option.bind_some, hs'], hLeads'⟩

/-- Between two lines: the parser `p` is guessed, or none is and the best one is not behind. -/
def Ahead (s : LongList) (p : Nat) : Prop :=
  s.guessed = some p ∨ s.guessed = none ∧ Leads s p 0

theorem lineTurn_ahead {p : Nat} (h : Ahead s p) (hp : p < parsers.length)
    (hAccepts : isError (parserAt parsers p) line = false) :
    ∃ s', lineTurn parsers s line = some s' ∧ Ahead s' p := by
  rcases h with hGuessed | ⟨hGuessed, hLeads⟩
  · refine ⟨parseWith (parserAt parsers p) p line s, ?_, .inl hGuessed⟩
    rw [lineTurn, hGuessed]
  · obtain ⟨t, ht, hTurns⟩ := parserTurns_leads (k := parsers.length) hLeads hAccepts
    rw [lineTurn, hGuessed]
    dsimp only
    rw [ht]
    refine ⟨_, rfl, ?_⟩
    have hZero := hTurns.best hp
    by_cases hGuess : (t.err t.bestErr1 + 1) * 16 < t.err t.bestErr2
    · -- a second best one with errors is not in front of `p`
      have hBest : t.bestErr1 = p := by
        by_contra hNe
        have := (hTurns.second hp hNe).1
        omega
      refine .inl ?_
      show (if _ then some t.bestErr1 else none) = some p
      rw [if_pos hGuess, hBest]
    · refine .inr ⟨if_neg hGuess, ?_⟩
      exact ⟨hTurns.clean, hTurns.le, hTurns.small, fun _ => hZero, nofun, nofun⟩

/-- Where a parser makes no error, one that is not behind it in the table is taken, which
makes none either. -/
theorem run_first {p : Nat} (hp : p < parsers.length) (hAccepts : Accepts (parserAt parsers p) lines) :
    ∃ s, parseLines parsers lines = some s ∧ s.chosen ≤ p ∧ s.err s.chosen = 0
      ∧ Accepts (parserAt parsers s.chosen) lines := by
  have hInit : Ahead longListInit p :=
    .inr ⟨rfl, rfl, Nat.zero_le p, Nat.zero_le 1, fun _ => rfl, nofun, nofun⟩
  obtain ⟨s, hs, hAhead⟩ : ∃ s, parseLines parsers lines = some s ∧ Ahead s p :=
    foldlM_total (fun s line hLine h => lineTurn_ahead h hp (hAccepts line hLine)) hInit
  have hTallied := (run_tracks (Nat.zero_lt_of_lt hp) hs).2.1
  refine ⟨s, hs, ?_⟩
  rcases hAhead with hGuessed | ⟨hGuessed, hLeads⟩
  · have hChosen : s.chosen = p := by rw [LongList.chosen, hGuessed]; rfl
    rw [hChosen] at hTallied ⊢
    exact ⟨Nat.le_refl p, hTallied.1.trans (errors_eq_zero.mpr hAccepts), hAccepts⟩
  · have hChosen : s.chosen = s.bestErr1 := by rw [LongList.chosen, hGuessed]; rfl
    have hZero : s.err s.chosen = 0 := by
      rw [hChosen]
      exact hLeads.fresh (Nat.zero_le _)
    exact ⟨hChosen ▸ hLeads.le, hZero, errors_eq_zero.mp (hTallied.1.symm.trans hZero)⟩

/-! ## All listings -/

/-- A listing that some parser accepts is read by a parser that accepts it and drops no line of
which one that accepts the listing makes an entry. -/
def NothingDropped (parsers : List LineParser) (buf : Bytes) : Prop :=
  (∃ j < parsers.length, Accepts (parserAt parsers j) (listLines buf)) →
    ∃ i < parsers.length, (parseLines parsers (listLines buf)).map LongList.chosen = some i
      ∧ Accepts (parserAt parsers i) (listLines buf)
      ∧ parseLongList parsers buf = (some (setOf (parserAt parsers i) (listLines buf)), 0)
      ∧ ∀ j < parsers.length, Accepts (parserAt parsers j) (listLines buf) →
        ∀ line ∈ listLines buf, (entry (parserAt parsers j) line).isSome = true →
          (entry (parserAt parsers i) line).isSome = true

/-- The first parser of the table that accepts the listing drops no such line. -/
def FirstKeeps (parsers : List LineParser) (buf : Bytes) : Prop :=
  ∀ i < parsers.length, Accepts (parserAt parsers i) (listLines buf) →
    (∀ k < i, ¬ Accepts (parserAt parsers k) (listLines buf)) →
    ∀ j < parsers.length, Accepts (parserAt parsers j) (listLines buf) →
      ∀ line ∈ listLines buf, (entry (parserAt parsers j) line).isSome = true →
        (entry (parserAt parsers i) line).isSome = true

/-- The parser that is taken is the first one that accepts the listing. -/
theorem run_least {p : Nat} (hp : p < parsers.length) (hAccepts : Accepts (parserAt parsers p) lines)
    (hFirst : ∀ k < p, ¬ Accepts (parserAt parsers k) lines) :
    ∃ s, parseLines parsers lines = some s ∧ s.chosen = p ∧ s.err p = 0
      ∧ s.set p = setOf (parserAt parsers p) lines := by
  obtain ⟨s, hs, hLe, hErr, hChosen⟩ := run_first hp hAccepts
  have hEq : s.chosen = p := by
    by_contra hNe
    exact hFirst _ (by omega) hChosen
  have hTallied := (run_tracks (Nat.zero_lt_of_lt hp) hs).2.1
  rw [hEq] at hErr hTallied
  exact ⟨s, hs, hEq, hErr, hTallied.2⟩

theorem nothingDropped_iff (parsers : List LineParser) (buf : Bytes) :
    NothingDropped parsers buf ↔ FirstKeeps parsers buf := by
  constructor
  · intro h p hp hAccepts hFirst
    obtain ⟨i, hi, hRun, -, -, hKeeps⟩ := h ⟨p, hp, hAccepts⟩
    obtain ⟨s, hs, hChosen, -⟩ := run_least hp hAccepts hFirst
    rw [hs, Option.map_some, hChosen] at hRun
    rw [Option.some.inj hRun]
    exact hKeeps
  · rintro h ⟨j, hj, hAccepts⟩
    obtain ⟨s, hs, hLe, hErr, hChosen⟩ := run_first hj hAccepts
    have hTracks := run_tracks (Nat.zero_lt_of_lt hj) hs
    have hFirst : ∀ k < s.chosen, ¬ Accepts (parserAt parsers k) (listLines buf) := by
      intro k hk hAccepts'
      obtain ⟨s', hs', hLe', -⟩ := run_first (Nat.lt_trans hk hTracks.1) hAccepts'
      rw [hs, Option.some.injEq] at hs'
      rw [← hs'] at hLe'
      omega
    refine ⟨s.chosen, hTracks.1, by rw [hs]; rfl, hChosen, ?_, h _ hTracks.1 hChosen hFirst⟩
    rw [parseLongList, hs, ← hTracks.2.1.2]
    exact congrArg (Prod.mk _) hErr

end

end Lftp.Ports.FtpListInfo
