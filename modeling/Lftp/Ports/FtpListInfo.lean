import Lftp.Ports.FtpControl
import Lftp.Ports.FileMerge
import Lftp.Verified.Segments
import Lftp.Verified.Tokens

/-!
# Line parsers for FTP listings

A translation of the seven line parsers of `FtpListInfo.cc` with
`FileInfo::parse_ls_line` and what they read numbers and dates with. A line is a C
string; what `mktime` makes of a broken-down time is given by the environment.

A parser gives no value where it counts an error, and no file where it ignores the line.
-/

namespace Lftp.Ports.FtpListInfo

open Lftp.Verified Lftp.Ports.FileSets
open Lftp.Ports.ParseCmd (toLower)
open Lftp.Ports.Ftp (startsNoCase)

/-! ## Numbers -/

/-- `strtoll` and its kin stop at the bounds of their type. -/
def clamp (n : Int) : Int := max (-2 ^ 63) (min n (2 ^ 63 - 1))

/-- `%lld` and `%ld`. -/
def scanLong (s : Bytes) : Option (Int × Bytes) := (scanInt s).map fun (n, rest) => (clamp n, rest)

/-- A `long` stored as an `int`. -/
def toInt (n : Int) : Int := (clamp n).bmod (2 ^ 32)

def atoi (s : Bytes) : Int := ((scanInt s).map fun (n, _) => toInt n).getD 0

def isOctal (c : UInt8) : Bool := 48 ≤ c.toNat && c.toNat ≤ 55

/-- `%o` for an `int`. -/
def scanOctal (s : Bytes) : Option Int :=
  let (neg, s) := scanSign (Verified.skipSpace s)
  let digits := s.takeWhile isOctal
  if digits = [] then none
  else
    let n := digits.foldl (fun n c => n * 8 + digitVal c) 0
    let n : Int := if 2 ^ 64 ≤ n then 2 ^ 64 - 1 else if neg then -n else n
    some (n.bmod (2 ^ 32))

/-- `strcasecmp(s1,s2)==0`. -/
def sameNoCase (s₁ s₂ : Bytes) : Bool := s₁.map toLower = s₂.map toLower

/-! ## Dates -/

/-- `struct tm`. -/
structure Tm where
  sec : Int
  min : Int
  hour : Int
  mday : Int
  mon : Int
  year : Int
  isdst : Int
deriving DecidableEq

/-- The local time and the C library's calendar; the time zone is that of the session. -/
structure Env where
  now : Tm
  mktimeFromUtc : Tm → Int
  mktimeFromTz : Tm → Int

/-- A clock that stands still. -/
def stillClock : Env := ⟨⟨0, 0, 0, 1, 0, 70, 0⟩, fun _ => 0, fun _ => 0⟩

/-- `Ftp::ConvertFtpDate`. -/
def convertFtpDate (env : Env) (s : Bytes) : Int :=
  let year := (scanWidth 4 s).bind fun (year, rest) =>
    -- a year 19100 for 2000
    if 1910 ≤ year ∧ year ≤ 1930 then
      (scanWidth 5 s).map fun (year, rest) => (year - 19100 + 2000, rest)
    else some (year, rest)
  let date := do
    let (year, rest) ← year
    let (month, rest) ← scanWidth 2 rest
    let (day, rest) ← scanWidth 2 rest
    let (hour, rest) ← scanWidth 2 rest
    let (minute, rest) ← scanWidth 2 rest
    let (second, _) ← scanWidth 2 rest
    some (env.mktimeFromUtc ⟨second, minute, hour, day, month - 1, year - 1900, 0⟩)
  date.getD noDate

def monthNames : List Bytes :=
  ["Jan", "Feb", "Mar", "Apr", "May", "Jun", "Jul", "Aug", "Sep", "Oct", "Nov", "Dec"].map bytes

/-- `parse_month`. -/
def parseMonth (m : Bytes) : Option Int :=
  (monthNames.findIdx? fun name => sameNoCase name m).map Int.ofNat

/-- `guess_year`. -/
def guessYear (env : Env) (month day : Int) : Int :=
  let year := env.now.year + 1900
  if env.now.mon * 32 + env.now.mday + 6 < month * 32 + day then year - 1 else year

/-- Three numbers of two digits with `sep` between them. -/
def scanTriple (sep : UInt8) (s : Bytes) : Option (Int × Int × Int) := do
  let (a, rest) ← scanWidth 2 s
  let rest ← scanLit [sep] rest
  let (b, rest) ← scanWidth 2 rest
  let rest ← scanLit [sep] rest
  let (c, _) ← scanWidth 2 rest
  some (a, b, c)

/-- `%2d:%2d`, and what follows. -/
def scanClock (s : Bytes) : Option (Int × Int × Bytes) := do
  let (hour, rest) ← scanWidth 2 s
  let rest ← scanLit [ch ':'] rest
  let (minute, rest) ← scanWidth 2 rest
  some (hour, minute, rest)

/-- The year of a date with two digits. -/
def fullYear (year : Int) : Int := if 70 ≤ year then year + 1900 else year + 2000

/-! ## Permissions -/

/-- One of two bytes: the bit, or a dash. -/
def permBit (c flag : UInt8) (mask : Nat) : Option Nat :=
  if c = flag then some mask else if c = ch '-' then some 0 else none

/-- The third byte of the owner's and of the group's permissions. -/
def permExec (c : UInt8) (sticky exec : Nat) : Option Nat :=
  if c = ch 'S' then some sticky
  else if c = ch 's' then some (sticky ||| exec)
  else permBit c (ch 'x') exec

/-- `parse_perms`. -/
def parsePerms (s : Bytes) : Option Nat :=
  match s with
  | [r₁, w₁, x₁, r₂, w₂, x₂, r₃, w₃, x₃] => perms r₁ w₁ x₁ r₂ w₂ x₂ r₃ w₃ x₃
  | [r₁, w₁, x₁, r₂, w₂, x₂, r₃, w₃, x₃, acl] =>
    if acl = ch '+' then perms r₁ w₁ x₁ r₂ w₂ x₂ r₃ w₃ x₃ else none
  | _ => none
where
  perms (r₁ w₁ x₁ r₂ w₂ x₂ r₃ w₃ x₃ : UInt8) : Option Nat := do
    let r₁ ← permBit r₁ (ch 'r') 0o400
    let w₁ ← permBit w₁ (ch 'w') 0o200
    let x₁ ← permExec x₁ 0o4000 0o100
    let r₂ ← permBit r₂ (ch 'r') 0o40
    let w₂ ← permBit w₂ (ch 'w') 0o20
    let x₂ ← permExec x₂ 0o2000 0o10
    let r₃ ← permBit r₃ (ch 'r') 0o4
    let w₃ ← permBit w₃ (ch 'w') 0o2
    let p := r₁ ||| w₁ ||| x₁ ||| r₂ ||| w₂ ||| x₂ ||| r₃ ||| w₃
    if x₃ = ch 'T' then some (p ||| 0o1000)
    else if x₃ = ch 't' then some (p ||| 0o1000 ||| 0o1)
    else if x₃ = ch 'l' ∨ x₃ = ch 'L' then
      -- mandatory locking takes the group's permission away
      some ((p ||| 0o2000) - ((p ||| 0o2000) &&& 0o10))
    else (permBit x₃ (ch 'x') 0o1).map fun x => p ||| x

/-! ## Files -/

/-- `FileInfo::Init`. -/
def blankInfo : FileInfo where
  name := []
  longname := none
  symlink := none
  mode := 0xffffffff
  date := ⟨noDate, 0⟩
  size := -1
  user := none
  group := none
  nlinks := 0
  filetype := .unknown
  defined := 0
  rank := 0

/-- `SetName`. -/
def setName (f : FileInfo) (n : Bytes) : FileInfo := ({ f with name := n }).define Defined.name

section

variable (f : FileInfo) (x : Attr)

theorem knows_define (m : Nat) : (f.define m).knows x = (f.knows x || FileSets.bit m x.bit) :=
  FileInfo.bit_or f.defined m x.bit

@[simp] theorem knows_blank : blankInfo.knows x = false := by cases x <;> decide

@[simp] theorem knows_setName (n : Bytes) :
    (setName f n).knows x = (f.knows x || decide (x = .name)) := by
  rw [setName, knows_define]
  cases x <;> rfl

@[simp] theorem knows_setDate (time prec : Int) :
    (f.setDate time prec).knows x = (f.knows x || decide (x = .date)) := by
  rw [FileInfo.setDate, knows_define]
  cases x <;> rfl

@[simp] theorem knows_setSize (s : Int) :
    (f.setSize s).knows x = (f.knows x || decide (x = .size)) := by
  rw [FileInfo.setSize, knows_define]
  cases x <;> rfl

@[simp] theorem knows_setMode (m : Nat) :
    (f.setMode m).knows x = (f.knows x || decide (x = .mode)) := by
  rw [FileInfo.setMode, knows_define]
  cases x <;> rfl

@[simp] theorem knows_setNlink (n : Int) :
    (f.setNlink n).knows x = (f.knows x || decide (x = .nlinks)) := by
  rw [FileInfo.setNlink, knows_define]
  cases x <;> rfl

theorem knows_setUser (h : f.user = none) (u : Bytes) :
    (f.setUser (some u)).knows x = (f.knows x || decide (x = .user)) := by
  rw [FileInfo.setUser, if_neg (by rw [h]; rintro ⟨⟩), knows_define]
  cases x <;> rfl

theorem knows_setGroup (h : f.group = none) (g : Bytes) :
    (f.setGroup (some g)).knows x = (f.knows x || decide (x = .group)) := by
  rw [FileInfo.setGroup, if_neg (by rw [h]; rintro ⟨⟩), knows_define]
  cases x <;> rfl

@[simp] theorem knows_setSymlink (s : Option Bytes) :
    (f.setSymlink s).knows x = (f.knows x || decide (x = .type ∨ x = .symlink)) := by
  rw [FileInfo.setSymlink, knows_define]
  cases x <;> rfl

@[simp] theorem knows_setType (type : FileType) :
    (f.setType type).knows x = (f.knows x || decide (x = .type)) := by
  rw [FileInfo.setType, knows_define]
  cases x <;> rfl

end

/-- A parser of one line. -/
abbrev LineParser := Bytes → Option (Option FileInfo)

def blanks : Bytes := bytes " \t"

theorem not_blank_of_isDigit {c : UInt8} (h : isDigit c = true) : blanks.contains c = false := by
  refine Bool.eq_false_iff.mpr fun hBlank => ?_
  have hMem : c ∈ ([ch ' ', ch '\t'] : Bytes) := List.contains_iff_mem.mp hBlank
  rcases List.mem_pair.mp hMem with rfl | rfl
  · exact absurd h (by decide)
  · exact absurd h (by decide)

theorem blank_replicate {n : Nat} : ∀ c ∈ List.replicate n (ch ' '), blanks.contains c = true := by
  intro c hc
  rw [List.eq_of_mem_replicate hc]
  rfl

/-- The arrow of a symbolic link after a name: the name is not empty, and neither is the target. -/
def findArrow : Bytes → Bytes → Option (Bytes × Bytes)
  | _, [] => none
  | name, c :: s =>
    if name ≠ [] ∧ (bytes " -> ").isPrefixOf (c :: s) ∧ 4 < (c :: s).length then
      some (name, (c :: s).drop 4)
    else findArrow (name ++ [c]) s

/-- The name of a line of `ls`, cut at the arrow of a symbolic link. -/
def setLsName (fi : FileInfo) (name : Bytes) : FileInfo :=
  match (if fi.filetype = .symlink then findArrow [] name else none) with
  | none => setName fi name
  | some (name, target) => setName (fi.setSymlink (some target)) name

/-! ## `ls -l` -/

/-- The size, where the whole token is a number. -/
def setLsSize (fi : FileInfo) (t : Bytes) : FileInfo :=
  match scanLong t with
  | some (size, []) => fi.setSize size
  | _ => fi

/-- The type that the first byte of the permissions tells. -/
def lsType (t : Bytes) : Option FileType :=
  if t.head? = some (ch 'l') then some .symlink
  else if t.head? = some (ch 'd') then some .directory
  else if t.head? = some (ch '-') then some .normal
  else none

/-- `FileInfo::parse_ls_line`. -/
def parseLsLine (env : Env) (line : Bytes) : Option FileInfo := do
  let (t, rest) ← strtok blanks line
  let type ← lsType t
  let fi := blankInfo.setType type
  let fi := (parsePerms (t.drop 1)).elim fi fi.setMode
  let (t, rest) ← strtok blanks rest
  let fi := fi.setNlink (atoi t)
  let (t, rest) ← strtok blanks rest
  let fi := fi.setUser (some t)
  let (groupOrSize, rest) ← strtok blanks rest
  let (t, rest) ← strtok blanks rest
  -- the group may be missing
  let (fi, t, rest) ← (if isDigit (t.headD 0) then
      (strtok blanks rest).map fun (month, rest) =>
        (setLsSize (fi.setGroup (some groupOrSize)) t, month, rest)
    else some (setLsSize fi groupOrSize, t, rest))
  let mon := (parseMonth t).getD 0
  let (dayOfMonth, afterDay) ← strtok blanks rest
  let mday := atoi dayOfMonth
  let (t, rest) ← strtok blanks afterDay
  let yearAnomaly := (scanClock t).isNone && !blanks.contains (afterDay.headD 0)
  let (date, prec) : Tm × Int := match scanClock t with
    | some (hour, minute, _) => (⟨30, minute, hour, mday, mon, guessYear env mon mday - 1900, -1⟩, 30)
    | none => (⟨0, 0, 12, mday, mon, atoi t - 1900, -1⟩, 12 * 60 * 60)
  let fi := fi.setDate (env.mktimeFromTz date) prec
  let name ← strtokRest rest
  let name := if yearAnomaly && name.head? = some (ch ' ') then name.drop 1 else name
  some { setLsName fi name with longname := some line }

/-- `ParseFtpLongList_UNIX`. -/
def parseFtpLongListUnix (env : Env) : LineParser := fun line =>
  if ((scanLit (bytes "total") line).bind scanInt).isSome then some none
  else if startsNoCase (bytes "Status of ") line then some none
  else if line.head?.all (bytes "bcpsD").contains then some none
  else (parseLsLine env line).map some

/-! ## Windows NT, AS/400 and OS/2 -/

/-- What `strtok` leaves for a name, without spaces in front. -/
def restName (rest : Bytes) : Option Bytes := do
  let t ← strtokRest rest
  let t := t.dropWhile (· = ch ' ')
  if t = [] then none else some t

/-- `ParseFtpLongList_NT`. -/
def parseFtpLongListNT (env : Env) : LineParser := fun line => do
  let (t, rest) ← strtok blanks line
  let (month, day, year) ← scanTriple (ch '-') t
  let (t, rest) ← strtok blanks rest
  let (hour, minute, am) ← scanClock t
  let (t, rest) ← strtok blanks rest
  -- noon is taken for midnight
  let hour := if am.head? = some (ch 'P') then (if hour + 12 = 24 then 0 else hour + 12) else hour
  let fi := blankInfo.setDate
    (env.mktimeFromTz ⟨30, minute, hour, day, month - 1, fullYear year - 1900, -1⟩) 30
  let fi ← (if t = bytes "<DIR>" then some (fi.setType .directory)
    else (scanLong t).map fun (size, _) => (fi.setType .normal).setSize size)
  let name ← restName rest
  some (some (setName fi name))

/-- `ParseFtpLongList_AS400`. -/
def parseFtpLongListAS400 (env : Env) : LineParser := fun line => do
  let (user, rest) ← strtok blanks line
  let (t, rest) ← strtok blanks rest
  let (size, _) ← scanLong t
  let (t, rest) ← strtok blanks rest
  let (month, day, year) ← scanTriple (ch '/') t
  let (t, rest) ← strtok blanks rest
  let (hour, minute, second) ← scanTriple (ch ':') t
  -- this token is not looked at
  let (_, rest) ← strtok blanks rest
  let mtime := env.mktimeFromTz ⟨second, minute, hour, day, month - 1, fullYear year - 1900, -1⟩
  let (t, rest) ← strtok blanks rest
  let type : FileType := if t = bytes "*DIR" then .directory else .normal
  let name ← restName rest
  let known (name : Bytes) (type : FileType) : FileInfo :=
    ((((setName blankInfo name).setType type).setSize size).setDate mtime 0).setUser (some user)
  match name.idxOf? (ch '/') with
  | none => some (some (known name type))
  | some 0 => some none
  | some slash =>
    let dir := name.take slash
    some (some (if name.drop (slash + 1) ≠ [] then (setName blankInfo dir).setType .directory
      else known dir .directory))

/-- `ParseFtpLongList_OS2`. -/
def parseFtpLongListOS2 (env : Env) : LineParser := fun line => do
  let (t, rest) ← strtok blanks line
  let (size, _) ← scanLong t
  let (t, rest) ← strtok blanks rest
  let fi := (blankInfo.setSize size).setType .normal
  let (fi, t, rest) ← (if t = bytes "DIR" then
      (strtok blanks rest).map fun (t, rest) => (fi.setType .directory, t, rest)
    else some (fi, t, rest))
  let (month, day, year) ← scanTriple (ch '-') t
  let (t, rest) ← strtok blanks rest
  -- `sscanf` with two directives is expected to return 3
  let conversions := if (scanClock t).isSome then 2 else if (scanWidth 2 t).isSome then 1 else 0
  let (hour, minute) ← (if conversions = 3 then
      (scanClock t).map fun (hour, minute, _) => (hour, minute)
    else none)
  let fi := fi.setDate
    (env.mktimeFromTz ⟨30, minute, hour, day, month - 1, fullYear year - 1900, -1⟩) 30
  let name ← restName rest
  some (some (setName fi name))

/-! ## EPLF -/

/-- The variables of `ParseFtpLongList_EPLF`. -/
structure Eplf where
  name : Option Bytes
  size : Int
  date : Int
  dir : Bool
  typeKnown : Bool
  perms : Int

/-- What a fact says. -/
def eplfFact (v : Eplf) (c : UInt8) (s : Bytes) : Eplf :=
  if c = ch 's' then { v with size := ((scanLong s).map Prod.fst).getD v.size }
  else if c = ch 'm' then { v with date := ((scanLong s).map Prod.fst).getD v.date }
  else if c = ch '/' then { v with dir := true, typeKnown := true }
  else if c = ch 'r' then { v with dir := false, typeKnown := true }
  else if c = ch 'u' ∧ s.head? = some (ch 'p') then
    { v with perms := (scanOctal (s.drop 1)).getD (-1) }
  else v

/-- The loop over the facts; the first argument bounds the number of turns. -/
def eplfLoop : Nat → Eplf → Bytes → Eplf
  | 0, v, _ => v
  | _, v, [] => v
  | fuel + 1, v, c :: s =>
    if c = ch '\t' then { v with name := some s }
    else if !(bytes "sm/riu").contains c then { v with name := none }
    else
      match (c :: s).dropWhile (· ≠ ch ',') with
      | [] => eplfFact v c s
      | _ :: next => eplfLoop fuel (eplfFact v c s) next

/-- `ParseFtpLongList_EPLF`. -/
def parseFtpLongListEPLF : LineParser := fun line =>
  if line.length < 2 || line.head? ≠ some (ch '+') then none
  else
    let v := eplfLoop line.length ⟨none, -1, noDate, false, false, -1⟩ (line.drop 1)
    match v.name with
    | none => none
    | some name =>
      if !v.typeKnown then none
      else
        let fi := setName blankInfo name
        let fi := if v.size ≠ -1 then fi.setSize v.size else fi
        let fi := if v.date ≠ noDate then fi.setDate v.date 0 else fi
        let fi := fi.setType (if v.dir then .directory else .normal)
        some (some (if v.perms ≠ -1 then fi.setMode (v.perms % 2 ^ 32).toNat else fi))

/-! ## WebSTAR -/

/-- `parse_year_or_time`: no year where the third byte is a colon, which may be one behind the
token. -/
def parseYearOrTime (t rest : Bytes) : Option (Int × Int × Int) :=
  if (t ++ 0 :: rest)[2]? = some (ch ':') then
    (scanClock t).map fun (hour, minute, _) => (-1, hour, minute)
  else (scanInt t).map fun (year, _) => (toInt year, 0, 0)

/-- `ParseFtpLongList_MacWebStar`. -/
def parseFtpLongListMacWebStar (env : Env) : LineParser := fun line => do
  let (t, rest) ← strtok blanks line
  if (bytes "bcps").contains (t.headD 0) then some none
  else do
    let type ← lsType t
    let fi := blankInfo.setType type
    -- permissions are meaningless here
    let _ ← parsePerms (t.drop 1)
    let (t, rest) ← strtok blanks rest
    let (fi, rest) ← (if t ≠ bytes "folder" then do
        let (_, rest) ← strtok blanks rest
        let (t, rest) ← strtok blanks rest
        if isDigit (t.headD 0) then some ((scanLong t).elim fi fun n => fi.setSize n.1, rest)
        else none
      else (strtok blanks rest).map fun (_, rest) => (fi, rest))
    let (t, rest) ← strtok blanks rest
    let mon ← parseMonth t
    let (dayOfMonth, rest) ← strtok blanks rest
    let mday := atoi dayOfMonth
    let (t, rest) ← strtok blanks rest
    let (year, hour, minute) ← parseYearOrTime t rest
    let (date, prec) : Tm × Int :=
      if year = -1 then (⟨30, minute, hour, mday, mon, guessYear env mon mday - 1900, -1⟩, 30)
      else (⟨30, minute, 12, mday, mon, year, -1⟩, 12 * 60 * 60)
    let fi := fi.setDate (env.mktimeFromTz date) prec
    let name ← strtokRest rest
    some (some (setLsName fi name))

/-! ## MLSD -/

/-- The variables of `ParseFtpLongList_MLSD`. -/
structure Mlsd where
  size : Int
  date : Int
  owner : Option Bytes
  group : Option Bytes
  type : FileType
  perms : Int
deriving DecidableEq

def mlsdInit : Mlsd := ⟨-1, noDate, none, none, .unknown, -1⟩

/-- The bits of a letter of `Perm`. -/
def permLetter (c : UInt8) : Nat :=
  if toLower c = (ch 'e').toNat then 0o111
  else if toLower c = (ch 'l').toNat then 0o444
  else if toLower c = (ch 'r').toNat then 0o444
  else if toLower c = (ch 'c').toNat then 0o200
  else if toLower c = (ch 'w').toNat then 0o200
  else 0

/-- A turn of the loop over the facts. -/
def mlsdFact (env : Env) (v : Mlsd) (tok : Bytes) : Mlsd :=
  if sameNoCase tok (bytes "Type=cdir") || sameNoCase tok (bytes "Type=pdir")
      || sameNoCase tok (bytes "Type=dir") then { v with type := .directory }
  else if sameNoCase tok (bytes "Type=file") then { v with type := .normal }
  else if sameNoCase tok (bytes "Type=OS.unix=symlink") then { v with type := .symlink }
  else if startsNoCase (bytes "Modify=") tok then
    { v with date := convertFtpDate env (tok.drop 7) }
  else if startsNoCase (bytes "Size=") tok then
    { v with size := ((scanLong (tok.drop 5)).map Prod.fst).getD v.size }
  else if startsNoCase (bytes "Perm=") tok then
    { v with perms := Int.ofNat ((tok.drop 5).foldl (fun perms c => perms ||| permLetter c) 0) }
  else if startsNoCase (bytes "UNIX.mode=") tok then
    { v with perms := (scanOctal (tok.drop 10)).getD (-1) }
  else if startsNoCase (bytes "UNIX.owner=") tok then { v with owner := some (tok.drop 11) }
  else if startsNoCase (bytes "UNIX.group=") tok then { v with group := some (tok.drop 11) }
  else if startsNoCase (bytes "UNIX.uid=") tok then
    { v with owner := v.owner.or (some (tok.drop 9)) }
  else if startsNoCase (bytes "UNIX.gid=") tok then
    { v with group := v.group.or (some (tok.drop 9)) }
  else v

/-- The record that the variables make. -/
def Mlsd.info (v : Mlsd) (name : Bytes) : FileInfo :=
  let fi := setName blankInfo name
  let fi := if v.size != -1 then fi.setSize v.size else fi
  let fi := if v.date != noDate then fi.setDate v.date 0 else fi
  let fi := fi.setType v.type
  let fi := if v.perms != -1 then fi.setMode (v.perms % 2 ^ 32).toNat else fi
  let fi := if v.owner.isSome then fi.setUser v.owner else fi
  if v.group.isSome then fi.setGroup v.group else fi

/-- `ParseFtpLongList_MLSD`; some servers put no semicolon after the last fact. -/
def parseFtpLongListMLSD (env : Env) : LineParser := fun line => do
  let (facts, name) ← (cut (bytes "; ") line).or (cut (bytes " ") line)
  let v := (tokens (ch ';') facts).foldl (mlsdFact env) mlsdInit
  if name = [] ∨ v.type = .unknown then none else some (some (v.info name))

/-- `Ftp::line_parsers`. -/
def lineParsers (env : Env) : List LineParser :=
  [parseFtpLongListUnix env, parseFtpLongListNT env, parseFtpLongListEPLF,
    parseFtpLongListMLSD env, parseFtpLongListAS400 env, parseFtpLongListOS2 env,
    parseFtpLongListMacWebStar env]

example : (parseFtpLongListMLSD ⟨⟨0, 0, 0, 0, 0, 0, 0⟩, fun _ => 0, fun _ => 0⟩
    (bytes "Type=file;Size=12303;Perm=r; mailserv.FAQ")).bind
      (fun fi => fi.map fun fi => (fi.name, fi.size, fi.mode, fi.filetype))
      = some (bytes "mailserv.FAQ", 12303, 0o444, .normal) := by
  decide +kernel

end Lftp.Ports.FtpListInfo
