import Lftp.Ports.FtpListInfo
import Lftp.Verified.Calendar

/-!
# Lines of `ls -l`

`FileInfo::parse_ls_line` is given a part of a listing. It copies that part, and takes
the long name from the listing itself. `LsEntry.text` is what `ls -l` prints.

* `parseLsSlice_line`: on a whole C string the two overloads agree.
* `parseLsLine_text`: what the columns of a printed line are read as.
* `findArrow_iff`: where the name of a symbolic link is cut off again.
* `ls_line_exact`: what is read from the part alone, and which files are read back.
-/

namespace Lftp.Ports.FtpListInfo

open Lftp.Verified Lftp.Ports.FileSets

/-- `FileInfo::parse_ls_line` on the first `len` bytes of `buf`, which the long name is not
cut to. -/
def parseLsSlice (env : Env) (buf : Bytes) (len : Nat) : Option FileInfo :=
  (parseLsLine env (cstr (buf.take len))).map fun fi => { fi with longname := some (cstr buf) }

/-- A file without its long name. -/
def shortInfo (fi : FileInfo) : FileInfo := { fi with longname := none }

/-- Apart from the long name, what is read is that of the part alone. -/
theorem parseLsSlice_take (env : Env) (buf : Bytes) (len : Nat) :
    (parseLsSlice env buf len).map shortInfo = (parseLsSlice env (buf.take len) len).map shortInfo := by
  unfold parseLsSlice
  rw [List.take_take, Nat.min_self, Option.map_map, Option.map_map]
  rfl

/-! ## Printed lines -/

/-- A bit of the permissions. -/
def formatBit (p mask : Nat) (c : UInt8) : UInt8 := if p &&& mask ≠ 0 then c else ch '-'

/-- The bit of execution with one of the others. -/
def formatExec (p mask exec : Nat) (upper lower : UInt8) : UInt8 :=
  if p &&& mask ≠ 0 then (if p &&& exec ≠ 0 then lower else upper) else formatBit p exec (ch 'x')

/-- `format_perms` -/
def formatPerms (p : Nat) : Bytes :=
  [formatBit p 0o400 (ch 'r'), formatBit p 0o200 (ch 'w'),
    formatExec p 0o4000 0o100 (ch 'S') (ch 's'), formatBit p 0o40 (ch 'r'),
    formatBit p 0o20 (ch 'w'), formatExec p 0o2000 0o10 (ch 'S') (ch 's'),
    formatBit p 0o4 (ch 'r'), formatBit p 0o2 (ch 'w'), formatExec p 0o1000 0o1 (ch 'T') (ch 't')]

theorem and_bit (m k : Nat) : m &&& 2 ^ k = 0 ∨ m &&& 2 ^ k = 2 ^ k := by
  rw [Nat.and_two_pow]
  cases m.testBit k with
  | false => exact .inl (Nat.zero_mul _)
  | true => exact .inr (Nat.one_mul _)

theorem permBit_format (m k : Nat) {flag : UInt8} (hFlag : flag ≠ ch '-') :
    permBit (formatBit m (2 ^ k) flag) flag (2 ^ k) = some (m &&& 2 ^ k) := by
  unfold formatBit permBit
  rcases and_bit m k with hBit | hBit
  · rw [hBit, if_neg (not_not.mpr rfl), if_neg hFlag.symm, if_pos rfl]
  · rw [hBit, if_pos (Nat.two_pow_pos k).ne', if_pos rfl]

theorem permExec_format (m j k : Nat) :
    permExec (formatExec m (2 ^ j) (2 ^ k) (ch 'S') (ch 's')) (2 ^ j) (2 ^ k)
      = some ((m &&& 2 ^ j) ||| (m &&& 2 ^ k)) := by
  have hPlain : permBit (formatBit m (2 ^ k) (ch 'x')) (ch 'x') (2 ^ k) = some (m &&& 2 ^ k) :=
    permBit_format m k (by decide)
  unfold formatExec
  rcases and_bit m j with hSticky | hSticky
  · rw [hSticky, if_neg (not_not.mpr rfl), Nat.zero_or, ← hPlain]
    unfold formatBit
    split <;> rfl
  · rw [hSticky, if_pos (Nat.two_pow_pos j).ne']
    rcases and_bit m k with hExec | hExec
    · rw [hExec, if_neg (not_not.mpr rfl), Nat.or_zero]
      rfl
    · rw [hExec, if_pos (Nat.two_pow_pos k).ne']
      rfl

/-- The last byte, with the others in `p`. -/
def permLast (p : Nat) (x : UInt8) : Option Nat :=
  if x = ch 'T' then some (p ||| 0o1000)
  else if x = ch 't' then some (p ||| 0o1000 ||| 0o1)
  else if x = ch 'l' ∨ x = ch 'L' then some ((p ||| 0o2000) - ((p ||| 0o2000) &&& 0o10))
  else (permBit x (ch 'x') 0o1).map fun x => p ||| x

theorem permLast_format (m p : Nat) :
    permLast p (formatExec m (2 ^ 9) (2 ^ 0) (ch 'T') (ch 't'))
      = some (p ||| (m &&& 2 ^ 9) ||| (m &&& 2 ^ 0)) := by
  have hPlain : permBit (formatBit m (2 ^ 0) (ch 'x')) (ch 'x') (2 ^ 0) = some (m &&& 2 ^ 0) :=
    permBit_format m 0 (by decide)
  unfold formatExec
  rcases and_bit m 9 with hSticky | hSticky
  · rw [hSticky, if_neg (not_not.mpr rfl), Nat.or_zero]
    have hLast : permLast p (formatBit m (2 ^ 0) (ch 'x'))
        = (permBit (formatBit m (2 ^ 0) (ch 'x')) (ch 'x') (2 ^ 0)).map fun x => p ||| x := by
      unfold formatBit
      split <;> rfl
    rw [hLast, hPlain, Option.map_some]
  · rw [hSticky, if_pos (Nat.two_pow_pos 9).ne']
    rcases and_bit m 0 with hExec | hExec
    · rw [hExec, if_neg (not_not.mpr rfl), Nat.or_zero]
      rfl
    · rw [hExec, if_pos (Nat.two_pow_pos 0).ne']
      rfl

theorem parsePerms_formatPerms {m : Nat} (h : m < 0o10000) : parsePerms (formatPerms m) = some m := by
  have hAll : m &&& 0o7777 = m := by
    rw [show 0o7777 = 2 ^ 12 - 1 from rfl, Nat.and_two_pow_sub_one_eq_mod, Nat.mod_eq_of_lt h]
  have hRead (k mask : Nat) (hMask : 2 ^ k = mask) :
      permBit (formatBit m mask (ch 'r')) (ch 'r') mask = some (m &&& mask) :=
    hMask ▸ permBit_format m k (by decide)
  have hWrite (k mask : Nat) (hMask : 2 ^ k = mask) :
      permBit (formatBit m mask (ch 'w')) (ch 'w') mask = some (m &&& mask) :=
    hMask ▸ permBit_format m k (by decide)
  have hExec (j mask k exec : Nat) (hMask : 2 ^ j = mask) (hExec : 2 ^ k = exec) :
      permExec (formatExec m mask exec (ch 'S') (ch 's')) mask exec
        = some ((m &&& mask) ||| (m &&& exec)) :=
    hMask ▸ hExec ▸ permExec_format m j k
  have hParse : parsePerms (formatPerms m) = permLast
      ((m &&& 0o400) ||| (m &&& 0o200) ||| ((m &&& 0o4000) ||| (m &&& 0o100)) ||| (m &&& 0o40)
        ||| (m &&& 0o20) ||| ((m &&& 0o2000) ||| (m &&& 0o10)) ||| (m &&& 0o4) ||| (m &&& 0o2))
      (formatExec m (2 ^ 9) (2 ^ 0) (ch 'T') (ch 't')) := by
    unfold parsePerms formatPerms parsePerms.perms
    simp only [hRead 8 0o400 rfl, hWrite 7 0o200 rfl, hExec 11 0o4000 6 0o100 rfl rfl,
      hRead 5 0o40 rfl, hWrite 4 0o20 rfl, hExec 10 0o2000 3 0o10 rfl rfl, hRead 2 0o4 rfl,
      hWrite 1 0o2 rfl, Option.bind_eq_bind, Option.bind_some]
    rfl
  rw [hParse, permLast_format]
  simp only [← Nat.and_or_distrib_left]
  exact congrArg some hAll

/-- The kinds of files, with the target of a symbolic link. -/
inductive LsKind
  | normal
  | directory
  | symlink (target : Bytes)

/-- The time of the last half year, or the year. -/
inductive LsTime
  | clock (hour minute : Nat)
  | year (y : Nat)

/-- A byte inside a column. -/
def WordByte (c : UInt8) : Prop := blanks.contains c = false ∧ c ≠ 0

instance (c : UInt8) : Decidable (WordByte c) :=
  inferInstanceAs (Decidable (blanks.contains c = false ∧ c ≠ 0))

/-- A name without blanks. -/
structure LsWord where
  bytes : Bytes
  ne : bytes ≠ []
  byte : ∀ c ∈ bytes, WordByte c

structure LsEntry where
  kind : LsKind
  mode : Nat
  nlinks : Nat
  user : LsWord
  group : LsWord
  size : Nat
  month : Fin 12
  day : Nat
  time : LsTime
  name : Bytes
  mode_lt : mode < 0o10000
  day_lt : day < 32
  time_lt : ∀ hour minute, time = .clock hour minute → hour < 24 ∧ minute < 60
  name_ne : name ≠ []
  name_nul : 0 ∉ name
  target_ne : ∀ target, kind = .symlink target → target ≠ [] ∧ 0 ∉ target
  /-- The name of a symbolic link has no arrow. -/
  name_arrow : ∀ target, kind = .symlink target → ¬ bytes " -> " <:+: name

/-- The blanks that put the number of links, the group, the size and the name's columns in line
with those of the other files. -/
structure LsPads where
  nlinks : Nat
  group : Nat
  size : Nat

namespace LsEntry

variable (e : LsEntry)

def kindByte : UInt8 :=
  match e.kind with
  | .normal => ch '-'
  | .directory => ch 'd'
  | .symlink _ => ch 'l'

def fileType : FileType :=
  match e.kind with
  | .normal => .normal
  | .directory => .directory
  | .symlink _ => .symlink

/-- The target of a symbolic link. -/
def target : Option Bytes :=
  match e.kind with
  | .symlink target => some target
  | _ => none

/-- The type and the permissions. -/
def permsText : Bytes := e.kindByte :: formatPerms e.mode

def monthText : Bytes := monthNames.getD e.month []

/-- A day has two columns. -/
def dayText : Bytes := decimal e.day

/-- The year has five columns, as the time. -/
def timeText : Bytes :=
  match e.time with
  | .clock hour minute => pad2 hour ++ ch ':' :: pad2 minute
  | .year y => decimal y

def timePad : Nat :=
  match e.time with
  | .clock _ _ => 0
  | .year _ => 1

def nameText : Bytes :=
  match e.kind with
  | .symlink target => e.name ++ (bytes " -> " ++ target)
  | _ => e.name

/-- A column: blanks on its left, and one on its right. -/
def column (pad : Nat) (word rest : Bytes) : Bytes :=
  List.replicate pad (ch ' ') ++ (word ++ ch ' ' :: rest)

/-- The line of `ls -l`. -/
def text (p : LsPads) : Bytes :=
  column 0 e.permsText (column p.nlinks (decimal e.nlinks) (column 0 e.user.bytes
    (column p.group e.group.bytes (column p.size (decimal e.size) (column 0 e.monthText
      (column (2 - e.dayText.length) e.dayText (column e.timePad e.timeText e.nameText)))))))

end LsEntry

/-- The file is the one that was printed. -/
structure IsLsFile (e : LsEntry) (fi : FileInfo) : Prop where
  type : fi.knows .type = true ∧ fi.filetype = e.fileType
  mode : fi.knows .mode = true ∧ fi.mode = e.mode
  nlinks : fi.knows .nlinks = true ∧ fi.nlinks = e.nlinks
  user : fi.knows .user = true ∧ fi.user = some e.user.bytes
  group : fi.knows .group = true ∧ fi.group = some e.group.bytes
  size : fi.knows .size = true ∧ fi.size = e.size
  name : fi.knows .name = true ∧ fi.name = e.name
  target : fi.symlink = e.target

/-- The line, with more of the listing behind it, gives the file. -/
def LsEntry.ReadsBack (env : Env) (p : LsPads) (rest : Bytes) (e : LsEntry) : Prop :=
  ∃ fi, parseLsSlice env (e.text p ++ rest) (e.text p).length = some fi ∧ IsLsFile e fi

/-- The numbers fit their types, and the name of a symbolic link does not run into the arrow. -/
structure LsEntry.Fits (e : LsEntry) : Prop where
  nlinks : e.nlinks < 2 ^ 31
  size : e.size < 2 ^ 63
  arrow : ∀ target, e.kind = .symlink target → ∀ a, a ++ bytes " ->" = e.name → a = []

/-! ## The arrow -/

/-- An arrow before an arrow: there is one in the text already, or the text ends like one. -/
theorem arrow_append {b t : Bytes} (hNe : b ≠ [])
    (h : (bytes " -> ").isPrefixOf (b ++ (bytes " -> " ++ t)) = true) :
    b = bytes " ->" ∨ bytes " -> " <+: b := by
  rw [List.isPrefixOf_iff_prefix] at h
  match b with
  | [] => exact absurd rfl hNe
  | [c₁] =>
      obtain ⟨s, hs⟩ := h
      exact absurd (List.cons.inj (List.cons.inj hs).2).1 (by decide)
  | [c₁, c₂] =>
      obtain ⟨s, hs⟩ := h
      exact absurd (List.cons.inj (List.cons.inj (List.cons.inj hs).2).2).1 (by decide)
  | [c₁, c₂, c₃] =>
      obtain ⟨s, hs⟩ := h
      obtain ⟨h₁, hs⟩ := List.cons.inj hs
      obtain ⟨h₂, hs⟩ := List.cons.inj hs
      obtain ⟨h₃, hs⟩ := List.cons.inj hs
      rw [← h₁, ← h₂, ← h₃]
      exact .inl rfl
  | c₁ :: c₂ :: c₃ :: c₄ :: b =>
      obtain ⟨s, hs⟩ := h
      obtain ⟨h₁, hs⟩ := List.cons.inj hs
      obtain ⟨h₂, hs⟩ := List.cons.inj hs
      obtain ⟨h₃, hs⟩ := List.cons.inj hs
      obtain ⟨h₄, hs⟩ := List.cons.inj hs
      rw [← h₁, ← h₂, ← h₃, ← h₄]
      exact .inr ⟨b, rfl⟩

/-- Text without an arrow at any of its places is passed over. -/
theorem findArrow_skip {r t : Bytes} : ∀ {name : Bytes}, (∀ a b, a ++ b = r → b ≠ [] →
      name ++ a = [] ∨ (bytes " -> ").isPrefixOf (b ++ t) = false) →
    findArrow name (r ++ t) = findArrow (name ++ r) t := by
  induction r with
  | nil =>
      intro name _
      rw [List.append_nil, List.nil_append]
  | cons c r ih =>
      intro name h
      have hHere : ¬ (name ≠ [] ∧ (bytes " -> ").isPrefixOf (c :: (r ++ t)) = true
          ∧ 4 < (c :: (r ++ t)).length) := by
        rintro ⟨hNe, hArrow, -⟩
        rcases h [] (c :: r) rfl (List.cons_ne_nil c r) with hNil | hNone
        · exact hNe ((List.append_nil name).symm.trans hNil)
        · rw [List.cons_append, hArrow] at hNone
          cases hNone
      have hRest : ∀ a b, a ++ b = r → b ≠ [] →
          name ++ [c] ++ a = [] ∨ (bytes " -> ").isPrefixOf (b ++ t) = false := by
        intro a b hSplit hb
        have hNext := h (c :: a) b (by rw [List.cons_append, hSplit]) hb
        rwa [← List.append_cons]
      rw [List.cons_append, findArrow, if_neg hHere, ih hRest, ← List.append_cons]

theorem findArrow_here {name t : Bytes} (hName : name ≠ []) (ht : t ≠ []) :
    findArrow name (bytes " -> " ++ t) = some (name, t) := by
  have hPrefix : (bytes " -> ").isPrefixOf (bytes " -> " ++ t) = true :=
    List.isPrefixOf_iff_prefix.mpr (List.prefix_append _ t)
  have hLength : 4 < (bytes " -> " ++ t).length := by
    rw [List.length_append]
    exact Nat.lt_add_of_pos_right (List.length_pos_of_ne_nil ht)
  exact if_pos ⟨hName, hPrefix, hLength⟩

/-- The name of a symbolic link is cut off again. -/
theorem findArrow_link {name t : Bytes} (hName : name ≠ []) (ht : t ≠ [])
    (hArrow : ¬ bytes " -> " <:+: name) (h : ∀ a, a ++ bytes " ->" = name → a = []) :
    findArrow [] (name ++ (bytes " -> " ++ t)) = some (name, t) := by
  rw [findArrow_skip, List.nil_append, findArrow_here hName ht]
  intro a b hSplit hb
  cases hPrefix : (bytes " -> ").isPrefixOf (b ++ (bytes " -> " ++ t)) with
  | false => exact .inr rfl
  | true =>
      rcases arrow_append hb hPrefix with rfl | ⟨s, hs⟩
      · exact .inl (h a hSplit)
      · exact absurd ⟨a, s, by rw [← hSplit, ← hs, List.append_assoc]⟩ hArrow

/-- A name that runs into the arrow is cut short. -/
theorem findArrow_short {a t : Bytes} (ha : a ≠ []) (hArrow : ¬ bytes " -> " <:+: a ++ bytes " ->") :
    findArrow [] (a ++ bytes " ->" ++ (bytes " -> " ++ t)) = some (a, bytes "-> " ++ t) := by
  have hText : a ++ bytes " ->" ++ (bytes " -> " ++ t)
      = a ++ (bytes " -> " ++ (bytes "-> " ++ t)) := by
    rw [List.append_assoc]
    rfl
  rw [hText, findArrow_skip, List.nil_append, findArrow_here ha (by nofun)]
  intro x b hSplit hb
  refine .inr (Bool.eq_false_iff.mpr fun hPrefix => ?_)
  have hWhole : (bytes " -> ").isPrefixOf ((b ++ bytes " ->") ++ (bytes " -> " ++ t)) = true := by
    rw [List.append_assoc]
    exact hPrefix
  rcases arrow_append (by simp [hb]) hWhole with hEq | ⟨s, hs⟩
  · exact hb (List.append_left_eq_self.mp hEq)
  · exact hArrow ⟨x, s, by rw [List.append_assoc, hs, ← List.append_assoc, hSplit]⟩

/-! ## The columns -/

theorem wordByte_of_isDigit {c : UInt8} (h : isDigit c = true) : WordByte c := by
  refine ⟨not_blank_of_isDigit h, ?_⟩
  rintro rfl
  cases h

theorem wordByte_decimal (n : Nat) : ∀ c ∈ decimal n, WordByte c :=
  fun c hc => wordByte_of_isDigit (isDigit_of_mem_decimal n c hc)

theorem strtok_column {word : Bytes} (hNe : word ≠ []) (hWord : ∀ c ∈ word, WordByte c) (pad : Nat)
    (rest : Bytes) : strtok blanks (LsEntry.column pad word rest) = some (word, rest) :=
  strtok_word blank_replicate hNe (fun c hc => (hWord c hc).1) rfl rest

theorem strtok_number (n pad : Nat) (rest : Bytes) :
    strtok blanks (LsEntry.column pad (decimal n) rest) = some (decimal n, rest) :=
  strtok_column (decimal_ne_nil n) (wordByte_decimal n) pad rest

theorem nul_column {word rest : Bytes} (hWord : ∀ c ∈ word, WordByte c) (hRest : 0 ∉ rest)
    (pad : Nat) : 0 ∉ LsEntry.column pad word rest := by
  intro h
  rcases List.mem_append.mp h with h | h
  · exact absurd (List.eq_of_mem_replicate h) (by decide)
  · rcases List.mem_append.mp h with h | h
    · exact (hWord 0 h).2 rfl
    · exact hRest ((List.mem_cons.mp h).resolve_left (by decide))

theorem scanLong_number (n : Nat) : scanLong (decimal n) = some (clamp n, []) := by
  have hScan : scanInt (decimal n) = some ((n : Int), []) := by
    have hAll := scanInt_decimal n (r := []) (by rintro _ ⟨⟩)
    rwa [List.append_nil] at hAll
  simp only [scanLong, hScan, Option.map_some]

theorem setLsSize_number (fi : FileInfo) (n : Nat) :
    setLsSize fi (decimal n) = fi.setSize (clamp n) := by
  unfold setLsSize
  rw [scanLong_number]

theorem atoi_number (n : Nat) : atoi (decimal n) = toInt n := by
  have hScan : scanInt (decimal n) = some ((n : Int), []) := by
    have hAll := scanInt_decimal n (r := []) (by rintro _ ⟨⟩)
    rwa [List.append_nil] at hAll
  simp only [atoi, hScan, Option.map_some, Option.getD_some]

theorem isDigit_headD_decimal (n : Nat) : isDigit ((decimal n).headD 0) = true := by
  cases hDigits : decimal n with
  | nil => exact absurd hDigits (decimal_ne_nil n)
  | cons c s => exact isDigit_of_mem_decimal n c (by rw [hDigits]; exact List.mem_cons_self)

theorem scanClock_pad2 {hour minute : Nat} (hHour : hour < 100) (hMinute : minute < 100) :
    scanClock (pad2 hour ++ ch ':' :: pad2 minute) = some ((hour : Int), (minute : Int), []) := by
  have hLast := scanWidth_pad2 hMinute []
  have hLit (s : Bytes) : scanLit [ch ':'] (ch ':' :: s) = some s := scanLit_append [ch ':'] s
  rw [List.append_nil] at hLast
  simp only [scanClock, Option.bind_eq_bind, scanWidth_pad2 hHour, hLit, hLast, Option.bind_some]

namespace LsEntry

variable (e : LsEntry)

theorem formatBit_word (p mask : Nat) {c : UInt8} (h : WordByte c) : WordByte (formatBit p mask c) := by
  unfold formatBit
  split
  · exact h
  · exact ⟨rfl, by decide⟩

theorem formatExec_word (p mask exec : Nat) {upper lower : UInt8} (hUpper : WordByte upper)
    (hLower : WordByte lower) : WordByte (formatExec p mask exec upper lower) := by
  unfold formatExec
  split_ifs
  · exact hLower
  · exact hUpper
  · exact formatBit_word p exec (by decide)

theorem permsText_word : ∀ c ∈ e.permsText, WordByte c := by
  have hBit (mask : Nat) {c : UInt8} (h : WordByte c) := formatBit_word e.mode mask h
  have hExec (mask exec : Nat) {upper lower : UInt8} (hUpper : WordByte upper)
      (hLower : WordByte lower) := formatExec_word e.mode mask exec hUpper hLower
  intro c hc
  simp only [permsText, formatPerms, List.mem_cons, List.not_mem_nil, or_false] at hc
  rcases hc with rfl | rfl | rfl | rfl | rfl | rfl | rfl | rfl | rfl | rfl
  · unfold kindByte
    split <;> decide
  · exact hBit _ (by decide)
  · exact hBit _ (by decide)
  · exact hExec _ _ (by decide) (by decide)
  · exact hBit _ (by decide)
  · exact hBit _ (by decide)
  · exact hExec _ _ (by decide) (by decide)
  · exact hBit _ (by decide)
  · exact hBit _ (by decide)
  · exact hExec _ _ (by decide) (by decide)

theorem monthText_word : e.monthText ≠ [] ∧ ∀ c ∈ e.monthText, WordByte c := by
  have hAll : ∀ m : Fin 12, monthNames.getD m [] ≠ [] ∧
      ((monthNames.getD m []).all fun c => !blanks.contains c && c != 0) = true := by
    decide
  refine ⟨(hAll e.month).1, fun c hc => ?_⟩
  simpa [WordByte] using List.all_eq_true.mp (hAll e.month).2 c hc

theorem timeText_word : e.timeText ≠ [] ∧ ∀ c ∈ e.timeText, WordByte c := by
  unfold timeText
  cases hTime : e.time with
  | clock hour minute =>
      obtain ⟨hHour, hMinute⟩ := e.time_lt hour minute hTime
      refine ⟨by unfold pad2; nofun, fun c hc => ?_⟩
      dsimp only at hc
      rw [List.mem_append, List.mem_cons] at hc
      rcases hc with hc | rfl | hc
      · exact wordByte_of_isDigit (isDigit_pad2 (by omega) c hc)
      · exact ⟨rfl, by decide⟩
      · exact wordByte_of_isDigit (isDigit_pad2 (by omega) c hc)
  | year y => exact ⟨decimal_ne_nil y, wordByte_decimal y⟩

theorem nameText_nul : 0 ∉ e.nameText := by
  unfold nameText
  cases hKind : e.kind with
  | normal => exact e.name_nul
  | directory => exact e.name_nul
  | symlink target =>
      intro h
      rcases List.mem_append.mp h with h | h
      · exact e.name_nul h
      · rcases List.mem_append.mp h with h | h
        · exact absurd h (by decide)
        · exact (e.target_ne target hKind).2 h

theorem text_nul (p : LsPads) : 0 ∉ e.text p :=
  nul_column e.permsText_word (nul_column (wordByte_decimal _) (nul_column e.user.byte
    (nul_column e.group.byte (nul_column (wordByte_decimal _) (nul_column e.monthText_word.2
      (nul_column (wordByte_decimal _) (nul_column e.timeText_word.2 e.nameText_nul _) _) _) _) _)
        _) _) _

/-- A year does not look like a time, and a second blank is in front of it. -/
theorem no_anomaly (rest : Bytes) :
    ((scanClock e.timeText).isNone && !blanks.contains ((column e.timePad e.timeText rest).headD 0))
      = false := by
  unfold timeText timePad column
  cases hTime : e.time with
  | clock hour minute =>
      obtain ⟨hHour, hMinute⟩ := e.time_lt hour minute hTime
      dsimp only
      rw [scanClock_pad2 (by omega) (by omega)]
      rfl
  | year y =>
      dsimp only
      rw [Bool.and_eq_false_iff]
      exact .inr rfl

theorem lsType_permsText : lsType e.permsText = some e.fileType := by
  unfold permsText lsType kindByte fileType
  cases e.kind <;> rfl

/-- What the columns before the name say. -/
def info (date prec : Int) : FileInfo :=
  ((((((blankInfo.setType e.fileType).setMode e.mode).setNlink (toInt e.nlinks)).setUser
    (some e.user.bytes)).setGroup (some e.group.bytes)).setSize (clamp e.size)).setDate date prec

theorem knows_info (date prec : Int) (x : Attr) :
    (e.info date prec).knows x = decide (x ≠ .name ∧ x ≠ .symlink) := by
  unfold info
  rw [knows_setDate, knows_setSize, knows_setGroup _ _ rfl, knows_setUser _ _ rfl, knows_setNlink,
    knows_setMode, knows_setType, knows_blank]
  cases x <;> rfl

theorem parseLsLine_text (env : Env) (p : LsPads) : ∃ date prec,
    parseLsLine env (e.text p)
      = some { setLsName (e.info date prec) e.nameText with longname := some (e.text p) } := by
  have hPerms := strtok_column (by unfold permsText; nofun) e.permsText_word 0
  have hUser := strtok_column e.user.ne e.user.byte 0
  have hGroup := strtok_column e.group.ne e.group.byte p.group
  have hMonth := strtok_column e.monthText_word.1 e.monthText_word.2 0
  have hTime := strtok_column e.timeText_word.1 e.timeText_word.2 e.timePad
  have hName : strtokRest e.nameText = some e.nameText := by
    refine if_neg ?_
    unfold nameText
    split
    · exact fun h => e.name_ne (List.append_eq_nil_iff.mp h).1
    · exact e.name_ne
  have hMode : parsePerms (e.permsText.drop 1) = some e.mode := parsePerms_formatPerms e.mode_lt
  unfold parseLsLine text dayText
  simp only [Option.bind_eq_bind, Option.bind_some, hPerms, lsType_permsText, hMode, Option.elim_some,
    strtok_number, hUser, hGroup, hMonth, hTime, hName, atoi_number, isDigit_headD_decimal, if_true,
    Option.map_some, setLsSize_number, no_anomaly, Bool.false_and, Bool.false_eq_true, if_false]
  exact ⟨_, _, rfl⟩

/-- A file with a name and a target, which only a symbolic link has. -/
def named (date prec : Int) (name : Bytes) (target : Option Bytes) : FileInfo :=
  setName (target.elim (e.info date prec) fun s => (e.info date prec).setSymlink (some s)) name

theorem knows_named (date prec : Int) (name : Bytes) (target : Option Bytes) (x : Attr) (hx : x ≠ .symlink) :
    (e.named date prec name target).knows x = true := by
  unfold named
  cases target with
  | none =>
      rw [Option.elim_none, knows_setName, knows_info]
      cases x with
      | symlink => exact absurd rfl hx
      | _ => rfl
  | some s =>
      rw [Option.elim_some, knows_setName, knows_setSymlink, knows_info]
      cases x <;> rfl

theorem toInt_eq_iff (n : Nat) : toInt n = n ↔ n < 2 ^ 31 := by
  unfold toInt clamp
  rw [Int.bmod_def]
  omega

theorem clamp_eq_iff (n : Nat) : clamp n = n ↔ n < 2 ^ 63 := by
  unfold clamp
  omega

/-- A file with the columns of the line is the one printed where the numbers fit and the name
and the target are right. -/
theorem isLsFile_named (date prec : Int) (name : Bytes) (target longname : Option Bytes)
    (hTarget : target.isSome = true → e.fileType = .symlink) :
    IsLsFile e { e.named date prec name target with longname := longname } ↔
      (e.nlinks < 2 ^ 31 ∧ e.size < 2 ^ 63) ∧ name = e.name ∧ target = e.target := by
  have hKnows (x : Attr) (hx : x ≠ .symlink) :
      ({ e.named date prec name target with longname := longname } : FileInfo).knows x = true :=
    e.knows_named date prec name target x hx
  have hFields : e.named date prec name target = { e.named date prec name target with
      name := name, symlink := target, mode := e.mode, nlinks := toInt e.nlinks,
      user := some e.user.bytes, group := some e.group.bytes, size := clamp e.size,
      filetype := e.fileType } := by
    unfold named
    cases target with
    | none => rfl
    | some s =>
        rw [hTarget rfl]
        rfl
  rw [hFields] at hKnows ⊢
  constructor
  · intro h
    exact ⟨⟨(toInt_eq_iff _).mp h.nlinks.2, (clamp_eq_iff _).mp h.size.2⟩, h.name.2, h.target⟩
  · rintro ⟨⟨hLinks, hSize⟩, hName, hLink⟩
    exact {
      type := ⟨hKnows .type nofun, rfl⟩
      mode := ⟨hKnows .mode nofun, rfl⟩
      nlinks := ⟨hKnows .nlinks nofun, (toInt_eq_iff _).mpr hLinks⟩
      user := ⟨hKnows .user nofun, rfl⟩
      group := ⟨hKnows .group nofun, rfl⟩
      size := ⟨hKnows .size nofun, (clamp_eq_iff _).mpr hSize⟩
      name := ⟨hKnows .name nofun, hName⟩
      target := hLink }

/-- What the name's column is split into. -/
def split : Bytes × Option Bytes :=
  match (if e.fileType = .symlink then findArrow [] e.nameText else none) with
  | none => (e.nameText, none)
  | some (name, target) => (name, some target)

theorem setLsName_info (date prec : Int) :
    setLsName (e.info date prec) e.nameText = e.named date prec e.split.1 e.split.2 := by
  have hType : (e.info date prec).filetype = e.fileType := rfl
  unfold setLsName split
  rw [hType]
  generalize (if e.fileType = .symlink then findArrow [] e.nameText else none) = found
  cases found <;> rfl

theorem split_link : e.split.2.isSome = true → e.fileType = .symlink := by
  unfold split
  split
  · nofun
  · rename_i hArrow
    intro
    by_contra hType
    rw [if_neg hType] at hArrow
    cases hArrow

theorem split_plain (h : ∀ target, e.kind ≠ .symlink target) :
    e.split = (e.name, none) ∧ e.target = none := by
  unfold split nameText fileType target
  cases hKind : e.kind with
  | normal => exact ⟨rfl, rfl⟩
  | directory => exact ⟨rfl, rfl⟩
  | symlink target => exact absurd hKind (h target)

theorem split_symlink {s : Bytes} (h : e.kind = .symlink s) {name target : Bytes}
    (hFind : findArrow [] (e.name ++ (bytes " -> " ++ s)) = some (name, target)) :
    e.split = (name, some target) := by
  unfold split nameText fileType
  rw [h]
  dsimp only
  rw [if_pos rfl, hFind]

/-- The name is split as it was put together unless it runs into the arrow. -/
theorem split_iff : (e.split.1 = e.name ∧ e.split.2 = e.target) ↔
    ∀ target, e.kind = .symlink target → ∀ a, a ++ bytes " ->" = e.name → a = [] := by
  by_cases hLink : ∃ s, e.kind = .symlink s
  · obtain ⟨s, hKind⟩ := hLink
    have hTarget : e.target = some s := by rw [target, hKind]
    constructor
    · rintro ⟨hName, -⟩ _ - a ha
      by_contra hNe
      have hArrow := e.name_arrow s hKind
      rw [← ha] at hArrow
      have hShort := findArrow_short (t := s) hNe hArrow
      rw [ha] at hShort
      rw [e.split_symlink hKind hShort] at hName
      have hLength := congrArg List.length ha
      rw [← hName, List.length_append] at hLength
      exact absurd hLength (Nat.ne_of_gt (Nat.lt_add_of_pos_right (by decide)))
    · intro h
      have hFind := findArrow_link e.name_ne (e.target_ne s hKind).1 (e.name_arrow s hKind)
        (h s hKind)
      rw [e.split_symlink hKind hFind, hTarget]
      exact ⟨rfl, rfl⟩
  · have hPlain : ∀ s, e.kind ≠ .symlink s := fun s hs => hLink ⟨s, hs⟩
    obtain ⟨hSplit, hTarget⟩ := e.split_plain hPlain
    rw [hSplit, hTarget]
    exact iff_of_true ⟨rfl, rfl⟩ fun s hs => absurd hs (hPlain s)

theorem parseLsSlice_text (env : Env) (p : LsPads) (rest : Bytes) : ∃ date prec,
    parseLsSlice env (e.text p ++ rest) (e.text p).length
      = some { e.named date prec e.split.1 e.split.2 with
          longname := some (e.text p ++ cstr rest) } := by
  obtain ⟨date, prec, hParse⟩ := e.parseLsLine_text env p
  refine ⟨date, prec, ?_⟩
  unfold parseLsSlice
  rw [List.take_left, cstr_of_notMem (e.text_nul p), hParse, setLsName_info, Option.map_some,
    cstr_append_of_notMem (e.text_nul p)]

/-- The long name of a printed line goes on to the end of the listing. -/
theorem longname_text (env : Env) (p : LsPads) (rest : Bytes) :
    ∀ fi ∈ parseLsSlice env (e.text p ++ rest) (e.text p).length,
      fi.longname = some (e.text p ++ cstr rest) := by
  obtain ⟨date, prec, hSlice⟩ := e.parseLsSlice_text env p rest
  rw [hSlice]
  rintro fi ⟨⟩
  rfl

/-- A printed line gives its file exactly where it fits. -/
theorem readsBack_iff (env : Env) (p : LsPads) (rest : Bytes) :
    e.ReadsBack env p rest ↔ e.Fits := by
  obtain ⟨date, prec, hSlice⟩ := e.parseLsSlice_text env p rest
  have hNamed := e.isLsFile_named date prec e.split.1 e.split.2 (some (e.text p ++ cstr rest))
    e.split_link
  rw [e.split_iff] at hNamed
  unfold ReadsBack
  rw [hSlice]
  constructor
  · rintro ⟨fi, hFi, hIs⟩
    cases hFi
    obtain ⟨⟨hLinks, hSize⟩, hArrow⟩ := hNamed.mp hIs
    exact ⟨hLinks, hSize, hArrow⟩
  · rintro ⟨hLinks, hSize, hArrow⟩
    exact ⟨_, rfl, hNamed.mpr ⟨⟨hLinks, hSize⟩, hArrow⟩⟩

end LsEntry

/-- What is read of a part of a listing, apart from the long name, depends on that part alone;
and a printed line is read back exactly where its numbers fit and the name of a symbolic link
does not run into the arrow. -/
theorem ls_line_exact (env : Env) :
    (∀ buf len, (parseLsSlice env buf len).map shortInfo
      = (parseLsSlice env (buf.take len) len).map shortInfo) ∧
    ∀ (p : LsPads) (rest : Bytes) (e : LsEntry), e.ReadsBack env p rest ↔ e.Fits :=
  ⟨parseLsSlice_take env, fun p rest e => e.readsBack_iff env p rest⟩

/-- A file of root. -/
def rootFile (kind : LsKind) (name : Bytes) (hName : name ≠ [] ∧ 0 ∉ name)
    (hTarget : ∀ target, kind = .symlink target → (target ≠ [] ∧ 0 ∉ target) ∧
      ¬ bytes " -> " <:+: name) : LsEntry where
  kind := kind
  mode := 0o755
  nlinks := 1
  user := ⟨bytes "root", by decide, forall_of_all (by decide)⟩
  group := ⟨bytes "root", by decide, forall_of_all (by decide)⟩
  size := 33
  month := 1
  day := 14
  time := .year 1996
  name := name
  mode_lt := by decide
  day_lt := by decide
  time_lt := nofun
  name_ne := hName.1
  name_nul := hName.2
  target_ne target h := (hTarget target h).1
  name_arrow target h := (hTarget target h).2

def plainFile : LsEntry := rootFile .normal (bytes "a") (by decide) nofun

def plainLine : Bytes := plainFile.text ⟨0, 0, 0⟩

/-- The long name takes in the rest of the listing, and a link whose name ends like an arrow
is cut short. -/
theorem not_ls_line_exact :
    parseLsSlice stillClock (plainLine ++ bytes "\nb") plainLine.length
        ≠ parseLsSlice stillClock plainLine plainLine.length ∧
    ∃ h, ¬ (rootFile (.symlink (bytes "t")) (bytes "a ->") (by decide) h).ReadsBack stillClock
      ⟨0, 0, 0⟩ [] := by
  constructor
  · intro h
    have hLong := plainFile.longname_text stillClock ⟨0, 0, 0⟩
    have hWhole := hLong []
    rw [List.append_nil] at hWhole
    obtain ⟨date, prec, hSlice⟩ := plainFile.parseLsSlice_text stillClock ⟨0, 0, 0⟩ (bytes "\nb")
    have hFirst := hLong (bytes "\nb") _ hSlice
    have hSecond := hWhole _ (h.symm.trans hSlice)
    have hEq := Option.some.inj (hFirst.symm.trans hSecond)
    exact absurd (List.append_cancel_left hEq) (by decide)
  · have hTarget : ∀ target, LsKind.symlink (bytes "t") = .symlink target →
        (target ≠ [] ∧ 0 ∉ target) ∧ ¬ bytes " -> " <:+: bytes "a ->" := by
      rintro _ ⟨⟩
      decide
    refine ⟨hTarget, fun h => ?_⟩
    have hFits := (LsEntry.readsBack_iff _ stillClock ⟨0, 0, 0⟩ []).mp h
    exact absurd (hFits.arrow _ rfl (bytes "a") rfl) (by decide)

end Lftp.Ports.FtpListInfo
