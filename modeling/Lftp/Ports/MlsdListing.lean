import Lftp.Ports.LongList

/-!
# Listings of MLSD lines

Lines of facts and a name, as `MLSD` sends them, and what the parsers make of them.

* `parse_text`: what the MLSD parser makes of a line.
* `entry_shorter`: every other parser takes a part of the name.
-/

namespace Lftp.Ports.FtpListInfo

open Lftp.Verified Lftp.Ports.FileSets

/-! ## Lines -/

/-- A line with one `Type` fact, and a size in digits where it has one. -/
structure MlsdLine where
  facts : List Fact
  oneType : (facts.filter fun f => f.named (bytes "Type")).length = 1
  size_digits : ∀ f ∈ facts, f.named (bytes "Size") = true →
    f.value ≠ [] ∧ ∀ c ∈ f.value, isDigit c = true
  name : Bytes
  name_ne : name ≠ []
  name_byte : ch '/' ∉ name ∧ ch '\n' ∉ name ∧ 0 ∉ name

namespace MlsdLine

def text (l : MlsdLine) : Bytes := lineText l.facts l.name

/-- The type of the file; no value is one that the parser does not know. -/
def typ (l : MlsdLine) : Option FileType :=
  (l.facts.find? fun f => f.named (bytes "Type")).bind fun f => typeOf f.value

/-- The size of the file, that of the last `Size` fact. -/
def size (l : MlsdLine) : Option Nat :=
  (l.facts.filter fun f => f.named (bytes "Size")).getLast?.map fun f => horner 0 f.value

/-- The mode that `Perm` and `UNIX.mode` tell, `-1` without them. -/
def mode (l : MlsdLine) : Int := ((l.facts.filterMap modeTold).getLast?).getD (-1)

variable (l : MlsdLine)

theorem facts_ne : l.facts ≠ [] := by
  intro h
  have hOne := l.oneType
  rw [h] at hOne
  cases hOne

theorem text_byte : ∀ c ∈ l.text, c ≠ ch '\n' ∧ c ≠ 0 := by
  intro c hc
  rw [text, lineText, List.mem_append, List.mem_flatMap, List.mem_cons] at hc
  rcases hc with ⟨f, -, hc⟩ | rfl | hc
  · rcases List.mem_append.mp hc with hc | hc
    · have hByte := f.text_byte c hc
      exact ⟨fun h => hByte.1 (h ▸ by decide), hByte.2⟩
    · rw [List.mem_singleton.mp hc]
      decide
  · decide
  · exact ⟨fun h => l.name_byte.2.1 (h ▸ hc), fun h => l.name_byte.2.2 (h ▸ hc)⟩

theorem text_ne : l.text ≠ [] :=
  List.append_ne_nil_of_right_ne_nil _ (List.cons_ne_nil _ _)

theorem cstr_text : cstr l.text = l.text := cstr_of_notMem fun h => (l.text_byte 0 h).2 rfl

/-- The type that the facts tell. -/
theorem typeTold_facts : l.facts.filterMap typeTold = l.typ.toList := by
  have hOne := l.oneType
  rw [List.length_eq_one_iff] at hOne
  obtain ⟨f, hf⟩ := hOne
  have hFind : l.facts.find? (fun f => f.named (bytes "Type")) = some f := by
    rw [← List.head?_filter, hf]
    rfl
  have hFilter : l.facts.filterMap typeTold
      = (l.facts.filter fun f => f.named (bytes "Type")).filterMap fun f => typeOf f.value := by
    rw [List.filterMap_filter]
    rfl
  rw [hFilter, hf, typ, hFind, Option.bind_some]
  cases hType : typeOf f.value with
  | none => simp [hType]
  | some t => simp [hType]

theorem scanLong_digits {s : Bytes} (hNe : s ≠ []) (hDigits : ∀ c ∈ s, isDigit c = true) :
    scanLong s = some (clamp (horner 0 s), []) := by
  have hScan := scanInt_digits hNe hDigits (r := []) (by rintro _ ⟨⟩)
  rw [List.append_nil] at hScan
  rw [scanLong, hScan]
  rfl

/-- The size that the facts tell. -/
theorem sizeTold_facts :
    (l.facts.filterMap sizeTold).getLast? = l.size.map fun n : Nat => clamp n := by
  have hMap : l.facts.filterMap sizeTold
      = (l.facts.filter fun f => f.named (bytes "Size")).map
        fun f => clamp (horner 0 f.value : Int) := by
    have hFilter : l.facts.filterMap sizeTold
        = (l.facts.filter fun f => f.named (bytes "Size")).filterMap
          fun f => (scanLong f.value).map Prod.fst := by
      rw [List.filterMap_filter]
      rfl
    rw [hFilter, ← List.filterMap_eq_map]
    apply List.filterMap_congr
    intro f hf
    obtain ⟨hf, hName⟩ := List.mem_filter.mp hf
    obtain ⟨hNe, hDigits⟩ := l.size_digits f hf hName
    rw [scanLong_digits hNe hDigits]
    rfl
  rw [hMap, List.getLast?_map, size, Option.map_map]
  rfl

/-- The record that the MLSD parser makes. -/
def info (env : Env) : FileInfo := (folded env l.facts).info l.name

/-- What the MLSD parser makes of a line. -/
theorem parse_text (env : Env) : parseFtpLongListMLSD env l.text
    = if l.typ = none then none else some (some (l.info env)) := by
  rw [text, parse_outcome env l.facts_ne, outcome, folded_type, typeTold_facts]
  cases hType : l.typ with
  | none => rw [if_pos (.inr rfl), if_pos rfl]
  | some t =>
      have ht : t ≠ .unknown := by
        have hMem : t ∈ l.facts.filterMap typeTold := by
          rw [typeTold_facts, hType]
          exact List.mem_cons_self
        obtain ⟨f, -, hf⟩ := List.mem_filterMap.mp hMem
        exact typeTold_ne hf
      exact (if_neg (not_or.mpr ⟨l.name_ne, ht⟩)).trans (if_neg nofun).symm

end MlsdLine

/-- The lines with their ends. -/
def listing (lines : List MlsdLine) : Bytes := lines.flatMap fun l => l.text ++ bytes "\r\n"

theorem listLines_listing (lines : List MlsdLine) :
    listLines (listing lines) = lines.map MlsdLine.text := by
  have hSplit : (listing lines).splitOn (ch '\n')
      = (lines.map fun l => l.text ++ [ch '\r']) ++ [[]] := by
    induction lines with
    | nil => rfl
    | cons l lines ih =>
        have hLine : ch '\n' ∉ l.text ++ [ch '\r'] := by
          rw [List.mem_append, not_or]
          exact ⟨fun h => (l.text_byte _ h).1 rfl, by decide⟩
        have hText : listing (l :: lines) = (l.text ++ [ch '\r']) ++ ch '\n' :: listing lines := by
          simp [listing, bytes]
        rw [hText, List.splitOn_append_cons_self_of_not_mem hLine, ih]
        rfl
  have hChomp : ∀ l : MlsdLine, chomp (ch '\r') (l.text ++ [ch '\r']) = l.text := by
    intro l
    rw [chomp, if_pos (List.getLast?_concat ..), List.dropLast_concat]
  unfold listLines
  rw [hSplit, List.dropLast_concat, List.map_map, List.filter_eq_self.mpr]
  · exact List.map_congr_left fun l _ => hChomp l
  · intro s hs
    obtain ⟨l, -, rfl⟩ := List.mem_map.mp hs
    show decide (chomp _ _ ≠ []) = true
    rw [hChomp]
    exact decide_eq_true l.text_ne

/-! ## Other parsers -/

/-- The facts with their semicolons. -/
def factsText (facts : List Fact) : Bytes := facts.flatMap fun f => f.text ++ [ch ';']

theorem factsText_byte (facts : List Fact) :
    ∀ c ∈ factsText facts, c ≠ ch ' ' ∧ c ≠ ch '\t' := by
  intro c hc
  obtain ⟨f, -, hc⟩ := List.mem_flatMap.mp hc
  rcases List.mem_append.mp hc with hc | hc
  · have hByte := (f.text_byte c hc).1
    exact ⟨fun h => hByte (h ▸ by decide), fun h => hByte (h ▸ by decide)⟩
  · rw [List.mem_singleton.mp hc]
    decide

/-- The facts are the first token of a line. -/
theorem strtok_text (l : MlsdLine) : strtok blanks l.text = some (factsText l.facts, l.name) := by
  have hNe : factsText l.facts ≠ [] := by
    cases hFacts : l.facts with
    | nil => exact absurd hFacts l.facts_ne
    | cons f facts =>
        exact List.append_ne_nil_of_left_ne_nil (List.append_ne_nil_of_left_ne_nil f.text_ne _) _
  apply strtok_append hNe _ rfl
  intro c hc
  have hByte := factsText_byte l.facts c hc
  simp [blanks, bytes, hByte]

theorem length_restName {rest name : Bytes} (h : restName rest = some name) :
    name.length ≤ rest.length := by
  unfold restName at h
  obtain ⟨t, ht, h⟩ := Option.bind_eq_some_iff.mp h
  rw [strtokRest_eq ht] at h
  dsimp only at h
  split at h
  · cases h
  · cases h
    exact (List.dropWhile_suffix _).length_le

theorem findArrow_prefix {name s name' target : Bytes}
    (h : findArrow name s = some (name', target)) : name'.length ≤ name.length + s.length := by
  fun_induction findArrow name s with
  | case1 => cases h
  | case2 name c s hHere =>
      cases h
      exact Nat.le_add_right _ _
  | case3 name c s hNot ih =>
      have hLe := ih h
      rw [List.length_append, List.length_singleton] at hLe
      rw [List.length_cons]
      omega

theorem length_setLsName (fi : FileInfo) (name : Bytes) :
    (setLsName fi name).name.length ≤ name.length := by
  unfold setLsName
  split
  · exact Nat.le_refl _
  · rename_i name' target h
    split at h
    · have hLe := findArrow_prefix h
      rwa [List.length_nil, Nat.zero_add] at hLe
    · cases h

/-- The parser finds at most a part of the name in a line of facts. -/
def Shortens (p : LineParser) : Prop :=
  ∀ (l : MlsdLine) (fi : FileInfo), p l.text = some (some fi) → fi.name.length < l.name.length

theorem unix_shortens (env : Env) : Shortens (parseFtpLongListUnix env) := by
  intro l fi h
  have hLs : parseLsLine env l.text = some fi := by
    unfold parseFtpLongListUnix at h
    split at h
    · cases h
    split at h
    · cases h
    split at h
    · cases h
    · obtain ⟨fi', hLs, hSame⟩ := Option.map_eq_some_iff.mp h
      rw [hLs, Option.some.inj hSame]
  unfold parseLsLine at hLs
  rw [strtok_text] at hLs
  obtain ⟨_, ⟨⟩, hLs⟩ := Option.bind_eq_some_iff.mp hLs
  obtain ⟨type, -, hLs⟩ := Option.bind_eq_some_iff.mp hLs
  obtain ⟨⟨t₁, rest₁⟩, h₁, hLs⟩ := Option.bind_eq_some_iff.mp hLs
  obtain ⟨⟨t₂, rest₂⟩, h₂, hLs⟩ := Option.bind_eq_some_iff.mp hLs
  obtain ⟨⟨t₃, rest₃⟩, h₃, hLs⟩ := Option.bind_eq_some_iff.mp hLs
  obtain ⟨⟨t₄, rest₄⟩, h₄, hLs⟩ := Option.bind_eq_some_iff.mp hLs
  obtain ⟨⟨f, t₅, rest₅⟩, h₅, hLs⟩ := Option.bind_eq_some_iff.mp hLs
  obtain ⟨⟨day, rest₆⟩, h₆, hLs⟩ := Option.bind_eq_some_iff.mp hLs
  obtain ⟨⟨t₇, rest₇⟩, h₇, hLs⟩ := Option.bind_eq_some_iff.mp hLs
  obtain ⟨name, h₈, hLs⟩ := Option.bind_eq_some_iff.mp hLs
  have hFive : rest₅.length ≤ rest₄.length := by
    dsimp only at h₅
    split at h₅
    · obtain ⟨⟨month, rest⟩, hMonth, hSame⟩ := Option.map_eq_some_iff.mp h₅
      cases hSame
      exact Nat.le_of_lt (length_strtok hMonth)
    · cases h₅
      exact Nat.le_refl _
  rw [strtokRest_eq h₈] at hLs
  cases hLs
  have hDrop : ∀ b : Bool, (if b = true then rest₇.drop 1 else rest₇).length ≤ rest₇.length := by
    intro b
    split
    · exact (List.drop_suffix 1 rest₇).length_le
    · exact Nat.le_refl _
  refine Nat.lt_of_le_of_lt ((length_setLsName _ _).trans (hDrop _)) ?_
  have hOne : rest₁.length < l.name.length := length_strtok h₁
  have hTwo : rest₂.length < rest₁.length := length_strtok h₂
  have hThree : rest₃.length < rest₂.length := length_strtok h₃
  have hFour : rest₄.length < rest₃.length := length_strtok h₄
  have hSix : rest₆.length < rest₅.length := length_strtok h₆
  have hSeven : rest₇.length < rest₆.length := length_strtok h₇
  omega

theorem nt_shortens (env : Env) : Shortens (parseFtpLongListNT env) := by
  intro l fi h
  unfold parseFtpLongListNT at h
  rw [strtok_text] at h
  obtain ⟨_, ⟨⟩, h⟩ := Option.bind_eq_some_iff.mp h
  obtain ⟨⟨month, day, year⟩, -, h⟩ := Option.bind_eq_some_iff.mp h
  obtain ⟨⟨t₁, rest₁⟩, h₁, h⟩ := Option.bind_eq_some_iff.mp h
  obtain ⟨⟨hour, minute, am⟩, -, h⟩ := Option.bind_eq_some_iff.mp h
  obtain ⟨⟨t₂, rest₂⟩, h₂, h⟩ := Option.bind_eq_some_iff.mp h
  obtain ⟨f, -, h⟩ := Option.bind_eq_some_iff.mp h
  obtain ⟨name, hName, h⟩ := Option.bind_eq_some_iff.mp h
  cases h
  have hOne : rest₁.length < l.name.length := length_strtok h₁
  have hTwo : rest₂.length < rest₁.length := length_strtok h₂
  have hLe : name.length ≤ rest₂.length := length_restName hName
  show name.length < l.name.length
  omega

theorem as400_shortens (env : Env) : Shortens (parseFtpLongListAS400 env) := by
  intro l fi h
  unfold parseFtpLongListAS400 at h
  rw [strtok_text] at h
  obtain ⟨_, ⟨⟩, h⟩ := Option.bind_eq_some_iff.mp h
  obtain ⟨⟨t₁, rest₁⟩, h₁, h⟩ := Option.bind_eq_some_iff.mp h
  obtain ⟨size, -, h⟩ := Option.bind_eq_some_iff.mp h
  obtain ⟨⟨t₂, rest₂⟩, h₂, h⟩ := Option.bind_eq_some_iff.mp h
  obtain ⟨⟨month, day, year⟩, -, h⟩ := Option.bind_eq_some_iff.mp h
  obtain ⟨⟨t₃, rest₃⟩, h₃, h⟩ := Option.bind_eq_some_iff.mp h
  obtain ⟨⟨hour, minute, second⟩, -, h⟩ := Option.bind_eq_some_iff.mp h
  obtain ⟨⟨t₄, rest₄⟩, h₄, h⟩ := Option.bind_eq_some_iff.mp h
  obtain ⟨⟨t₅, rest₅⟩, h₅, h⟩ := Option.bind_eq_some_iff.mp h
  obtain ⟨name, hName, h⟩ := Option.bind_eq_some_iff.mp h
  have hLess : name.length < l.name.length := by
    have hOne : rest₁.length < l.name.length := length_strtok h₁
    have hTwo : rest₂.length < rest₁.length := length_strtok h₂
    have hThree : rest₃.length < rest₂.length := length_strtok h₃
    have hFour : rest₄.length < rest₃.length := length_strtok h₄
    have hFive : rest₅.length < rest₄.length := length_strtok h₅
    have hLe : name.length ≤ rest₅.length := length_restName hName
    omega
  have hTake : ∀ slash, (name.take slash).length < l.name.length := fun slash =>
    Nat.lt_of_le_of_lt (List.take_prefix slash name).length_le hLess
  split at h
  · cases h
    exact hLess
  · cases h
  · cases h
    split
    · exact hTake _
    · exact hTake _

theorem os2_shortens (env : Env) : Shortens (parseFtpLongListOS2 env) := by
  intro l fi h
  unfold parseFtpLongListOS2 at h
  rw [strtok_text] at h
  obtain ⟨_, ⟨⟩, h⟩ := Option.bind_eq_some_iff.mp h
  obtain ⟨size, -, h⟩ := Option.bind_eq_some_iff.mp h
  obtain ⟨⟨t₁, rest₁⟩, h₁, h⟩ := Option.bind_eq_some_iff.mp h
  obtain ⟨⟨f, t₂, rest₂⟩, h₂, h⟩ := Option.bind_eq_some_iff.mp h
  obtain ⟨⟨month, day, year⟩, -, h⟩ := Option.bind_eq_some_iff.mp h
  obtain ⟨⟨t₃, rest₃⟩, h₃, h⟩ := Option.bind_eq_some_iff.mp h
  obtain ⟨⟨hour, minute⟩, -, h⟩ := Option.bind_eq_some_iff.mp h
  obtain ⟨name, hName, h⟩ := Option.bind_eq_some_iff.mp h
  cases h
  have hTwo : rest₂.length ≤ rest₁.length := by
    dsimp only at h₂
    split at h₂
    · obtain ⟨⟨t, rest⟩, hNext, hSame⟩ := Option.map_eq_some_iff.mp h₂
      cases hSame
      exact Nat.le_of_lt (length_strtok hNext)
    · cases h₂
      exact Nat.le_refl _
  have hOne : rest₁.length < l.name.length := length_strtok h₁
  have hThree : rest₃.length < rest₂.length := length_strtok h₃
  have hLe : name.length ≤ rest₃.length := length_restName hName
  show name.length < l.name.length
  omega

theorem macWebStar_shortens (env : Env) : Shortens (parseFtpLongListMacWebStar env) := by
  intro l fi h
  unfold parseFtpLongListMacWebStar at h
  rw [strtok_text] at h
  obtain ⟨_, ⟨⟩, h⟩ := Option.bind_eq_some_iff.mp h
  dsimp only at h
  by_cases hIgnored : (bytes "bcps").contains ((factsText l.facts).headD 0) = true
  · rw [if_pos hIgnored] at h
    cases h
  rw [if_neg hIgnored] at h
  obtain ⟨type, -, h⟩ := Option.bind_eq_some_iff.mp h
  obtain ⟨perms, -, h⟩ := Option.bind_eq_some_iff.mp h
  obtain ⟨⟨t₁, rest₁⟩, h₁, h⟩ := Option.bind_eq_some_iff.mp h
  obtain ⟨⟨f, rest₂⟩, h₂, h⟩ := Option.bind_eq_some_iff.mp h
  obtain ⟨⟨t₃, rest₃⟩, h₃, h⟩ := Option.bind_eq_some_iff.mp h
  obtain ⟨mon, -, h⟩ := Option.bind_eq_some_iff.mp h
  obtain ⟨⟨t₄, rest₄⟩, h₄, h⟩ := Option.bind_eq_some_iff.mp h
  obtain ⟨⟨t₅, rest₅⟩, h₅, h⟩ := Option.bind_eq_some_iff.mp h
  obtain ⟨year, -, h⟩ := Option.bind_eq_some_iff.mp h
  obtain ⟨name, hName, h⟩ := Option.bind_eq_some_iff.mp h
  have hTwo : rest₂.length ≤ rest₁.length := by
    dsimp only at h₂
    split at h₂
    · obtain ⟨⟨t, rest⟩, hNext, h₂⟩ := Option.bind_eq_some_iff.mp h₂
      obtain ⟨⟨t', rest'⟩, hNext', h₂⟩ := Option.bind_eq_some_iff.mp h₂
      have hLess : rest.length < rest₁.length := length_strtok hNext
      have hLess' : rest'.length < rest.length := length_strtok hNext'
      dsimp only at h₂
      split at h₂
      · cases h₂
        omega
      · cases h₂
    · obtain ⟨⟨t, rest⟩, hNext, hSame⟩ := Option.map_eq_some_iff.mp h₂
      cases hSame
      exact Nat.le_of_lt (length_strtok hNext)
  rw [strtokRest_eq hName] at h
  cases h
  refine Nat.lt_of_le_of_lt (length_setLsName _ _) ?_
  have hOne : rest₁.length < l.name.length := length_strtok h₁
  have hThree : rest₃.length < rest₂.length := length_strtok h₃
  have hFour : rest₄.length < rest₃.length := length_strtok h₄
  have hFive : rest₅.length < rest₄.length := length_strtok h₅
  show rest₅.length < l.name.length
  omega

theorem eplfFact_name (v : Eplf) (c : UInt8) (s : Bytes) : (eplfFact v c s).name = v.name := by
  unfold eplfFact
  split_ifs <;> rfl

/-- A name in EPLF stands after a tab. -/
theorem eplfLoop_name {fuel : Nat} {v : Eplf} {s name : Bytes}
    (h : (eplfLoop fuel v s).name = some name) (hNone : v.name = none) :
    ∃ before, s = before ++ ch '\t' :: name := by
  fun_induction eplfLoop fuel v s with
  | case1 => exact absurd (hNone.symm.trans h) nofun
  | case2 => exact absurd (hNone.symm.trans h) nofun
  | case3 fuel v s =>
      cases h
      exact ⟨[], rfl⟩
  | case4 => cases h
  | case5 fuel v c s hTab hKnown hComma =>
      rw [eplfFact_name] at h
      exact absurd (hNone.symm.trans h) nofun
  | case6 fuel v c s hTab hKnown d next hComma ih =>
      obtain ⟨before, rfl⟩ := ih h ((eplfFact_name v c s).trans hNone)
      have hSplit := List.takeWhile_append_dropWhile (p := fun x => decide (x ≠ ch ','))
        (l := c :: s)
      rw [hComma] at hSplit
      refine ⟨(c :: s).takeWhile (fun x => decide (x ≠ ch ',')) ++ d :: before, hSplit.symm.trans ?_⟩
      rw [List.append_assoc]
      rfl

theorem eplf_shortens : Shortens parseFtpLongListEPLF := by
  intro l fi h
  unfold parseFtpLongListEPLF at h
  split at h
  · cases h
  dsimp only at h
  split at h
  · cases h
  rename_i name hName
  split at h
  · cases h
  have hLess : name.length < l.name.length := by
    obtain ⟨before, hSplit⟩ := eplfLoop_name hName rfl
    have hText : l.text = factsText l.facts ++ ch ' ' :: l.name := rfl
    have hWhole : l.text = (l.text.take 1 ++ before) ++ ch '\t' :: name := by
      rw [List.append_assoc, ← hSplit, List.take_append_drop]
    rw [hText, List.append_eq_append_iff] at hWhole
    have hTab : ch '\t' ∉ factsText l.facts := fun hc => (factsText_byte l.facts _ hc).2 rfl
    rcases hWhole with ⟨a, -, ha⟩ | ⟨a, hFacts, ha⟩
    · cases a with
      | nil => exact absurd (List.cons.inj ha).1 (by decide)
      | cons x a =>
          rw [(List.cons.inj ha).2]
          show name.length < (a ++ ch '\t' :: name).length
          rw [List.length_append, List.length_cons]
          omega
    · cases a with
      | nil => exact absurd (List.cons.inj ha).1 (by decide)
      | cons x a =>
          rw [hFacts, ← (List.cons.inj ha).1] at hTab
          exact absurd (List.mem_append_right _ List.mem_cons_self) hTab
  generalize eplfLoop l.text.length _ (l.text.drop 1) = v at h
  cases h
  split_ifs <;> exact hLess

/-- A file of another parser has a part of the name. -/
theorem entry_shorter {p : LineParser} (hp : Shortens p) {l : MlsdLine} {fi : FileInfo}
    (h : entry p l.text = some fi) : fi.name.length < l.name.length := by
  rw [entry, l.cstr_text] at h
  obtain ⟨info, hInfo, hKept⟩ := Option.bind_eq_some_iff.mp h
  have hLess := hp l info (Option.join_eq_some_iff.mp hInfo)
  have hChomp : ∀ s : Bytes, (chomp (ch '/') s).length ≤ s.length := by
    intro s
    unfold chomp
    split
    · exact (List.dropLast_prefix s).length_le
    · exact Nat.le_refl _
  have hCut : (if 1 < info.name.length then chomp (ch '/') info.name else info.name).length
      ≤ info.name.length := by
    split
    · exact hChomp info.name
    · exact Nat.le_refl _
  unfold kept at hKept
  dsimp only at hKept
  generalize (if 1 < info.name.length then chomp (ch '/') info.name else info.name) = name
    at hCut hKept
  split at hKept
  · cases hKept
  · cases hKept
    exact Nat.lt_of_le_of_lt hCut hLess

/-- All parsers of the table but the fourth. -/
theorem parserAt_shortens (env : Env) {i : Nat} (hi : i < (lineParsers env).length) (hNe : i ≠ 3) :
    Shortens (parserAt (lineParsers env) i) := by
  match i with
  | 0 => exact unix_shortens env
  | 1 => exact nt_shortens env
  | 2 => exact eplf_shortens
  | 3 => exact absurd rfl hNe
  | 4 => exact as400_shortens env
  | 5 => exact os2_shortens env
  | 6 => exact macWebStar_shortens env
  | i + 7 =>
      have hLength : (lineParsers env).length = 7 := rfl
      omega

end Lftp.Ports.FtpListInfo
