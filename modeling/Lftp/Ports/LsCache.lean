import Mathlib.Algebra.Ring.Int.Defs
import Lftp.Ports.TorrentPath
import Lftp.Verified.Decimal
import Lftp.Verified.Lexical
import Mathlib.Data.List.DropRight

/-!
# The cache of listings

An entry of `LsCache` is kept under a session and an argument, and compared as a text:
`Changed` deletes the entries at the session's own location, and those of the site for
which `dir_file` puts location and argument together to the text of the changed
directory. Where a path leads is another question: it is what `place` says.

* `Coherent` is what `Changed` is for: nothing that the change concerns is found again.
* `changed_coherent_iff` says when it holds.
-/

namespace Lftp.Ports.LsCache

open Lftp.Verified
open Lftp.Verified.Lexical (resolve walk)
open Lftp.Ports.TorrentPath (dirFile slash)

/-! ## Sessions -/

inductive Proto
  | ftp
  | ftps
  | http
  | hftp
  | https
  | fish
  | sftp
  | file
  | other (name : Bytes)
  deriving DecidableEq

/-- `FileAccess::Path`, as far as it is compared. -/
structure Path where
  path : Bytes
  isFile : Bool
  url : Option Bytes
  deriving DecidableEq

structure FileAccess where
  proto : Proto
  hostname : Option Bytes
  portname : Option Bytes
  user : Option Bytes
  pass : Option Bytes
  cwd : Path
  home : Option Bytes
  /-- `Ftp` only. -/
  ftps : Bool
  anonUser : Option Bytes
  anonPass : Option Bytes

def lower (c : UInt8) : UInt8 := if 65 ≤ c ∧ c ≤ 90 then c + 32 else c

/-- `!xstrcasecmp(s1,s2)` -/
def sameNoCase (s₁ s₂ : Option Bytes) : Prop := s₁.map (·.map lower) = s₂.map (·.map lower)

instance (s₁ s₂ : Option Bytes) : Decidable (sameNoCase s₁ s₂) :=
  inferInstanceAs (Decidable (_ = _))

namespace FileAccess

/-- The comparison of the network protocols. -/
def sameServer (f o : FileAccess) : Prop :=
  sameNoCase f.hostname o.hostname ∧ f.portname = o.portname ∧ f.user = o.user ∧ f.pass = o.pass

instance (f o : FileAccess) : Decidable (sameServer f o) :=
  inferInstanceAs (Decidable (_ ∧ _))

def sameSiteAs (f o : FileAccess) : Prop :=
  f.proto = o.proto ∧ match f.proto with
    | .ftp | .ftps => f.sameServer o ∧ f.ftps = o.ftps
    | .http | .hftp | .https | .fish | .sftp => f.sameServer o
    | .file | .other _ => True

instance (f o : FileAccess) : Decidable (sameSiteAs f o) := by
  unfold sameSiteAs
  cases f.proto <;> exact inferInstanceAs (Decidable (_ ∧ _))

/-- `Ftp::SameConnection` -/
def sameConnection (f o : FileAccess) : Prop :=
  f.sameServer o ∧ (f.user.isSome ∨ f.anonUser = o.anonUser)
    ∧ (f.pass.isSome ∨ f.anonPass = o.anonPass) ∧ f.ftps = o.ftps

instance (f o : FileAccess) : Decidable (sameConnection f o) :=
  inferInstanceAs (Decidable (_ ∧ _))

def sameLocationAs (f o : FileAccess) : Prop :=
  f.proto = o.proto ∧ match f.proto with
    | .ftp | .ftps => f.hostname.isSome ∧ o.hostname.isSome ∧ f.sameConnection o
        ∧ (f.home.isSome → o.home.isSome → f.home = o.home) ∧ f.cwd.path = o.cwd.path
    | .http | .hftp | .https => f.sameServer o ∧ f.cwd = o.cwd
    | .fish => f.sameServer o ∧ f.cwd.path = o.cwd.path
    | .sftp => f.sameServer o ∧ f.cwd.path = o.cwd.path ∧ f.home = o.home
    | .file => f.home = o.home ∧ f.cwd.path = o.cwd.path
    | .other _ => True

instance (f o : FileAccess) : Decidable (sameLocationAs f o) := by
  unfold sameLocationAs
  cases f.proto <;> exact inferInstanceAs (Decidable (_ ∧ _))

end FileAccess

/-! ## The cache -/

/-- `FileAccess::open_mode` -/
inductive Mode
  | closed
  | retrieve
  | store
  | longList
  | list
  | mpList
  | changeDir
  | makeDir
  | removeDir
  | remove
  | quoteCmd
  | rename
  | arrayInfo
  | connectVerify
  | changeMode
  | link
  | symlink
  deriving DecidableEq

structure FileInfo where
  name : Bytes
  /-- The file type, where it is known: whether the file is a directory. -/
  directory : Option Bool

abbrev FileSet := List FileInfo

structure Entry where
  loc : FileAccess
  arg : Option Bytes
  mode : Mode
  /-- `err_code==FA::OK` -/
  ok : Bool
  data : Bytes
  afset : Option FileSet
  /-- The entry has expired. -/
  stopped : Bool

abbrev Cache := List Entry

/-- Settings and the parser of listings. -/
structure Env where
  enabled : Option Bytes → Bool
  sizeLimit : Int
  estimateSize : Entry → Int
  parseLongList : FileAccess → Bytes → Option FileSet

/-- `Cache::curr`: the entries that it has passed and those from there on. -/
structure Cursor where
  passed : Cache
  rest : Cache

def iterateFirst (chain : Cache) : Cursor := ⟨[], chain⟩

def Cursor.iterateNext (it : Cursor) : Cursor :=
  ⟨it.passed ++ it.rest.take 1, it.rest.tail⟩

def Cursor.iterateDelete (it : Cursor) : Cursor := ⟨it.passed, it.rest.tail⟩

/-- `Cache::Trim`: expired entries go, then those at the front until the size fits. -/
def trimFront (env : Env) : Int → Cache → Cache
  | _, [] => []
  | size, c :: chain =>
    if env.sizeLimit < size then trimFront env (size - env.estimateSize c) chain else c :: chain

def trim (env : Env) (chain : Cache) : Cache :=
  let kept := chain.filter fun c => !c.stopped
  trimFront env (kept.map env.estimateSize).sum kept

/-- `LsCacheEntryLoc::Matches`; no mode stands for -1. -/
def Entry.matches (c : Entry) (loc : FileAccess) (a : Option Bytes) (m : Option Mode) : Prop :=
  (m = none ∨ m = some c.mode) ∧ c.arg = a ∧ loc.sameLocationAs c.loc

instance (c : Entry) (loc : FileAccess) (a : Option Bytes) (m : Option Mode) :
    Decidable (c.matches loc a m) :=
  inferInstanceAs (Decidable (_ ∧ _))

/-- The private `LsCache::Find`. -/
def findEntry (env : Env) (chain : Cache) (loc : FileAccess) (a : Option Bytes)
    (m : Option Mode) : Option Entry × Cache :=
  if env.enabled loc.hostname then
    match chain.find? fun c => c.matches loc a m with
    | none => (none, chain)
    | some c => if c.stopped then (none, trim env chain) else (some c, chain)
  else (none, chain)

/-- `LsCache::Find`: the error code, the data and the file set. -/
def find (env : Env) (chain : Cache) (loc : FileAccess) (a : Option Bytes) (m : Option Mode) :
    Option (Bool × Bytes × Option FileSet) × Cache :=
  let (c, chain) := findEntry env chain loc a m
  (c.map fun c => (c.ok, c.data, c.afset), chain)

def Entry.getFileSet (env : Env) (c : Entry) : Option FileSet :=
  match c.afset with
  | some fs => some fs
  | none => if c.ok then env.parseLongList c.loc c.data else none

/-- `LsCache::FindFileSet`; the file set is kept with the entry, which is the first that
matches. -/
def findFileSet (env : Env) (chain : Cache) (loc : FileAccess) (a : Option Bytes)
    (m : Option Mode) : Option FileSet × Cache :=
  match findEntry env chain loc a m with
  | (none, chain) => (none, chain)
  | (some c, chain) => (c.getFileSet env, chain.modify
      (chain.findIdx fun c => c.matches loc a m) fun c => { c with afset := c.getFileSet env })

inductive ChangeMode
  | fileChanged
  | dirChanged
  | treeChanged
  deriving DecidableEq

def stripTrailingSlashes (s : Bytes) : Bytes :=
  let t := s.rdropWhile (· = slash)
  if t ≠ [] then t
  else s.take (1 + if s[1]? = some slash then 1 else 0)

/-- `dirname_modify`, with the position of the last slash. -/
def dirnameModify (s : Bytes) : Bytes :=
  let r := stripTrailingSlashes s
  let base := r.rtakeWhile (· ≠ slash)
  if base.length = r.length then []
  else if base.length + 1 = r.length then r.take 1
  else r.take (r.length - base.length - 1)

/-- The text that `Changed` compares with. -/
def fdir (m : ChangeMode) (f : FileAccess) (dir : Bytes) : Bytes :=
  let fdir := dirFile f.cwd.path dir
  if m = .fileChanged then dirnameModify fdir else fdir

/-- The text of an entry. -/
def Entry.text (c : Entry) : Bytes := dirFile c.loc.cwd.path (c.arg.getD [])

/-- The comparison of the texts. -/
def spelled (m : ChangeMode) (f : FileAccess) (dir : Bytes) (c : Entry) : Prop :=
  if m = .treeChanged then fdir m f dir <+: c.text else fdir m f dir = c.text

instance (m : ChangeMode) (f : FileAccess) (dir : Bytes) (c : Entry) :
    Decidable (spelled m f dir c) := by
  unfold spelled
  infer_instance

/-- The loop of `LsCache::Changed`. -/
def changedLoop (m : ChangeMode) (f : FileAccess) (dir : Bytes) (it : Cursor) : Cache :=
  match _h : it.rest with
  | [] => it.passed
  | c :: _ =>
    if f.sameLocationAs c.loc ∨ f.sameSiteAs c.loc ∧ spelled m f dir c then
      changedLoop m f dir it.iterateDelete
    else changedLoop m f dir it.iterateNext
termination_by it.rest.length
decreasing_by all_goals simp [Cursor.iterateDelete, Cursor.iterateNext, _h]

def changed (m : ChangeMode) (f : FileAccess) (dir : Bytes) (chain : Cache) : Cache :=
  changedLoop m f dir (iterateFirst chain)

/-- `LsCache::IsDirectory` from where it has changed the directory of two copies of the
session: `self` to the path, `parent` to the directory above. No value is a failed
assertion, -1 an unknown type. -/
def isDirectory (env : Env) (chain : Cache) (self parent : FileAccess) (bn : Bytes) :
    Option Int :=
  let answer (ok : Bool) : Int := if ok then 1 else 0
  match find env chain self (some []) (some .changeDir) with
  | (some (ok, data, _), _) => if data.length = 1 then some (answer ok) else none
  | (none, chain) =>
  match find env chain self (some []) (some .longList) with
  | (some (ok, _, _), _) => some (answer ok)
  | (none, chain) =>
  match find env chain self (some []) (some .mpList) with
  | (some (ok, _, _), _) => some (answer ok)
  | (none, chain) =>
  match find env chain self (some []) (some .list) with
  | (some (ok, _, _), _) => some (answer ok)
  | (none, chain) =>
  let (fs, chain) := findFileSet env chain parent (some []) (some .mpList)
  let fs := match fs with
    | some fs => some fs
    | none => (findFileSet env chain parent (some []) (some .longList)).1
  match fs with
  | none => some (-1)
  | some fs =>
    match (fs.find? fun fi => fi.name = bn).bind FileInfo.directory with
    | some dir => some (answer dir)
    | none => some (-1)

/-! ## What a change concerns -/

/-- Where a path of a session leads; an absolute path starts at the root. -/
def place (loc : FileAccess) (p : Bytes) : List Bytes :=
  if p.head? = some slash then resolve p else walk (resolve loc.cwd.path) p

def Mode.lists (m : Mode) : Prop := m = .longList ∨ m = .list ∨ m = .mpList

/-- What `IsDirectory` asks for at a path. -/
def tells (m : Mode) (a : Option Bytes) : Prop := m = .changeDir ∨ m.lists ∧ a = some []

/-- What is cached for the place `p` is out of date after a change at `target`. -/
def Concerned (m : ChangeMode) (target : List Bytes) (mode : Mode) (a : Option Bytes)
    (p : List Bytes) : Prop :=
  match m with
  | .fileChanged => mode.lists ∧ p = target.dropLast ∨ tells mode a ∧ p = target
  | .dirChanged => mode.lists ∧ p = target
  | .treeChanged => target <+: p

def Entry.place (c : Entry) : List Bytes := LsCache.place c.loc (c.arg.getD [])

/-- Nothing that the change concerns is left or found, and other sites are untouched. -/
structure Coherent (m : ChangeMode) (f : FileAccess) (dir : Bytes) (before after : Cache) :
    Prop where
  gone : ∀ c ∈ after, f.sameSiteAs c.loc →
    ¬ Concerned m (place f dir) c.mode c.arg c.place
  others : (after.filter fun c => ¬ f.sameSiteAs c.loc) = before.filter fun c => ¬ f.sameSiteAs c.loc
  lookup : ∀ env loc a mode, f.sameSiteAs loc →
    Concerned m (place f dir) mode a (place loc (a.getD [])) →
    (find env after loc a (some mode)).1 = none ∧ (findFileSet env after loc a (some mode)).1 = none
  unknown : m = .fileChanged → ∀ env self parent bn, f.sameSiteAs self → f.sameSiteAs parent →
    place self [] = place f dir → place parent [] = (place f dir).dropLast →
    isDirectory env after self parent bn = some (-1)

/-- Every entry of the site that the change concerns is at the location of the session, or
its text is that which the session has for the changed directory. -/
def AllSpelled (m : ChangeMode) (f : FileAccess) (dir : Bytes) (chain : Cache) : Prop :=
  ∀ c ∈ chain, f.sameSiteAs c.loc → Concerned m (place f dir) c.mode c.arg c.place →
    f.sameLocationAs c.loc ∨ spelled m f dir c

variable {m : ChangeMode} {f g o : FileAccess} {dir : Bytes} {chain : Cache} {env : Env}

theorem changedLoop_eq (m : ChangeMode) (f : FileAccess) (dir : Bytes) (passed rest : Cache) :
    changedLoop m f dir ⟨passed, rest⟩ = passed ++ rest.filter fun c =>
      ¬ (f.sameLocationAs c.loc ∨ f.sameSiteAs c.loc ∧ spelled m f dir c) := by
  induction rest generalizing passed with
  | nil =>
      rw [changedLoop]
      simp
  | cons c rest ih =>
      rw [changedLoop]
      by_cases h : f.sameLocationAs c.loc ∨ f.sameSiteAs c.loc ∧ spelled m f dir c
      · simp only [if_pos h, Cursor.iterateDelete, List.tail_cons, ih]
        rw [List.filter_cons_of_neg (by rw [decide_eq_true_eq]; exact not_not.mpr h)]
      · simp only [if_neg h, Cursor.iterateNext, List.tail_cons, ih]
        rw [List.filter_cons_of_pos (by rw [decide_eq_true_eq]; exact h)]
        simp

theorem changed_eq (m : ChangeMode) (f : FileAccess) (dir : Bytes) (chain : Cache) :
    changed m f dir chain = chain.filter fun c =>
      ¬ (f.sameLocationAs c.loc ∨ f.sameSiteAs c.loc ∧ spelled m f dir c) :=
  changedLoop_eq m f dir [] chain

theorem mem_changed {c : Entry} : c ∈ changed m f dir chain ↔
    c ∈ chain ∧ ¬ f.sameLocationAs c.loc ∧ ¬ (f.sameSiteAs c.loc ∧ spelled m f dir c) := by
  rw [changed_eq, List.mem_filter]
  simp only [decide_eq_true_eq, not_or]

/-! ## Sites and locations -/

theorem sameServer_symm (h : f.sameServer g) : g.sameServer f :=
  ⟨h.1.symm, h.2.1.symm, h.2.2.1.symm, h.2.2.2.symm⟩

theorem sameServer_trans (h : f.sameServer g) (h' : g.sameServer o) : f.sameServer o :=
  ⟨Eq.trans h.1 h'.1, h.2.1.trans h'.2.1, h.2.2.1.trans h'.2.2.1, h.2.2.2.trans h'.2.2.2⟩

theorem sameSite_symm (h : f.sameSiteAs g) : g.sameSiteAs f := by
  obtain ⟨hProto, hRest⟩ := h
  refine ⟨hProto.symm, ?_⟩
  rw [← hProto]
  cases hf : f.proto with
  | ftp | ftps =>
      rw [hf] at hRest
      exact ⟨sameServer_symm hRest.1, hRest.2.symm⟩
  | http | hftp | https | fish | sftp =>
      rw [hf] at hRest
      exact sameServer_symm hRest
  | file | other => exact trivial

theorem sameSite_trans (h : f.sameSiteAs g) (h' : g.sameSiteAs o) : f.sameSiteAs o := by
  obtain ⟨hProto, hRest⟩ := h
  obtain ⟨hProto', hRest'⟩ := h'
  rw [← hProto] at hRest' hProto'
  refine ⟨hProto', ?_⟩
  cases hf : f.proto with
  | ftp | ftps =>
      rw [hf] at hRest hRest'
      exact ⟨sameServer_trans hRest.1 hRest'.1, hRest.2.trans hRest'.2⟩
  | http | hftp | https | fish | sftp =>
      rw [hf] at hRest hRest'
      exact sameServer_trans hRest hRest'
  | file | other => exact trivial

theorem sameLocation_site (h : f.sameLocationAs g) : f.sameSiteAs g := by
  obtain ⟨hProto, hRest⟩ := h
  refine ⟨hProto, ?_⟩
  cases hf : f.proto with
  | ftp | ftps =>
      rw [hf] at hRest
      exact ⟨hRest.2.2.1.1, hRest.2.2.1.2.2.2⟩
  | http | hftp | https | fish | sftp =>
      rw [hf] at hRest
      exact hRest.1
  | file | other => exact trivial

/-- Sessions at the same location start from the same place, or all sessions of the site are
at one location. -/
theorem sameLocation_place (h : f.sameLocationAs g) :
    f.cwd.path = g.cwd.path
      ∨ ∀ o o', f.sameSiteAs o → o.sameSiteAs o' → o.sameLocationAs o' := by
  obtain ⟨hProto, hRest⟩ := h
  cases hf : f.proto with
  | ftp | ftps =>
      rw [hf] at hRest
      exact .inl hRest.2.2.2.2
  | http | hftp | https =>
      rw [hf] at hRest
      exact .inl (congrArg Path.path hRest.2)
  | fish =>
      rw [hf] at hRest
      exact .inl hRest.2
  | sftp =>
      rw [hf] at hRest
      exact .inl hRest.2.1
  | file =>
      rw [hf] at hRest
      exact .inl hRest.2
  | other =>
      refine .inr fun o o' ho ho' => ⟨ho'.1, ?_⟩
      rw [← ho.1, hf]
      trivial

/-! ## Lookups -/

/-- An entry that matches is of the site and for the same place. -/
theorem matches_place {c : Entry} {loc : FileAccess} {a : Option Bytes} {mode : Mode}
    (hMatch : c.matches loc a (some mode)) :
    c.mode = mode ∧ c.arg = a ∧ loc.sameSiteAs c.loc
      ∧ (c.place = place loc (a.getD [])
        ∨ ∀ o o', loc.sameSiteAs o → o.sameSiteAs o' → o.sameLocationAs o') := by
  obtain ⟨hMode, hArg, hLoc⟩ := hMatch
  have hMode : c.mode = mode := by
    rcases hMode with hNone | hSome
    · cases hNone
    · exact (Option.some.inj hSome).symm
  refine ⟨hMode, hArg, sameLocation_site hLoc, (sameLocation_place hLoc).imp_left fun hCwd => ?_⟩
  unfold Entry.place place
  rw [hArg, hCwd]

/-- Where nothing matches, nothing is found, and the cache stays as it is. -/
theorem findEntry_none {loc : FileAccess} {a : Option Bytes} {mode : Option Mode}
    (h : ∀ c ∈ chain, ¬ c.matches loc a mode) : findEntry env chain loc a mode = (none, chain) := by
  have hFind : (chain.find? fun c => decide (c.matches loc a mode)) = none :=
    List.find?_eq_none.mpr fun c hc => by simpa using h c hc
  unfold findEntry
  rw [hFind]
  simp

theorem find_none {loc : FileAccess} {a : Option Bytes} {mode : Option Mode}
    (h : ∀ c ∈ chain, ¬ c.matches loc a mode) : find env chain loc a mode = (none, chain) := by
  unfold find
  rw [findEntry_none h]
  rfl

theorem findFileSet_none {loc : FileAccess} {a : Option Bytes} {mode : Option Mode}
    (h : ∀ c ∈ chain, ¬ c.matches loc a mode) :
    findFileSet env chain loc a mode = (none, chain) := by
  unfold findFileSet
  rw [findEntry_none h]

/-- What is gone is not found again. -/
theorem no_match (hGone : ∀ c ∈ changed m f dir chain, f.sameSiteAs c.loc →
      ¬ Concerned m (place f dir) c.mode c.arg c.place)
    {loc : FileAccess} {a : Option Bytes} {mode : Mode} (hSite : f.sameSiteAs loc)
    (hConcerned : Concerned m (place f dir) mode a (place loc (a.getD []))) :
    ∀ c ∈ changed m f dir chain, ¬ c.matches loc a (some mode) := by
  intro c hc hMatch
  obtain ⟨hMode, hArg, hLoc, hPlace⟩ := matches_place hMatch
  have hOwn : f.sameSiteAs c.loc := sameSite_trans hSite hLoc
  rcases hPlace with hPlace | hAll
  · refine hGone c hc hOwn ?_
    rw [hMode, hArg, hPlace]
    exact hConcerned
  · -- All sessions of the site are at one location, so nothing of it is left.
    exact (mem_changed.mp hc).2.1 (hAll f c.loc (sameSite_symm hSite) hOwn)

theorem lists_of_mpList : Mode.mpList.lists := .inr (.inr rfl)

theorem lists_of_longList : Mode.longList.lists := .inl rfl

theorem lists_of_list : Mode.list.lists := .inr (.inl rfl)

/-- What `IsDirectory` says when nothing it asks for is there. -/
theorem isDirectory_unknown {self parent : FileAccess} (bn : Bytes)
    (hSelf : ∀ mode, tells mode (some []) → ∀ c ∈ chain, ¬ c.matches self (some []) (some mode))
    (hParent : ∀ mode, mode.lists → ∀ c ∈ chain, ¬ c.matches parent (some []) (some mode)) :
    isDirectory env chain self parent bn = some (-1) := by
  unfold isDirectory
  rw [find_none (hSelf .changeDir (.inl rfl))]
  dsimp only
  rw [find_none (hSelf .longList (.inr ⟨lists_of_longList, rfl⟩))]
  dsimp only
  rw [find_none (hSelf .mpList (.inr ⟨lists_of_mpList, rfl⟩))]
  dsimp only
  rw [find_none (hSelf .list (.inr ⟨lists_of_list, rfl⟩))]
  dsimp only
  rw [findFileSet_none (hParent .mpList lists_of_mpList)]
  dsimp only
  rw [findFileSet_none (hParent .longList lists_of_longList)]

/-- Other sites are untouched in any case. -/
theorem changed_others (m : ChangeMode) (f : FileAccess) (dir : Bytes) (chain : Cache) :
    ((changed m f dir chain).filter fun c => ¬ f.sameSiteAs c.loc)
      = chain.filter fun c => ¬ f.sameSiteAs c.loc := by
  rw [changed_eq, List.filter_filter]
  apply List.filter_congr
  intro c _
  by_cases hSite : f.sameSiteAs c.loc
  · simp [hSite]
  · have hLoc : ¬ f.sameLocationAs c.loc := fun h => hSite (sameLocation_site h)
    simp [hSite, hLoc]

theorem spelled_of_coherent (h : Coherent m f dir chain (changed m f dir chain)) :
    AllSpelled m f dir chain := by
  intro c hc hSite hConcerned
  by_contra hNot
  rw [not_or] at hNot
  have hLeft : c ∈ changed m f dir chain :=
    mem_changed.mpr ⟨hc, hNot.1, fun hBoth => hNot.2 hBoth.2⟩
  exact h.gone c hLeft hSite hConcerned

theorem coherent_of_spelled (h : AllSpelled m f dir chain) :
    Coherent m f dir chain (changed m f dir chain) := by
  have hGone : ∀ c ∈ changed m f dir chain, f.sameSiteAs c.loc →
      ¬ Concerned m (place f dir) c.mode c.arg c.place := by
    intro c hc hSite hConcerned
    obtain ⟨hMem, hLoc, hText⟩ := mem_changed.mp hc
    rcases h c hMem hSite hConcerned with hHere | hSpelled
    · exact hLoc hHere
    · exact hText ⟨hSite, hSpelled⟩
  constructor
  · exact hGone
  · exact changed_others m f dir chain
  · intro env loc a mode hSite hConcerned
    have hNone := no_match hGone hSite hConcerned
    rw [find_none hNone, findFileSet_none hNone]
    exact ⟨rfl, rfl⟩
  · intro hFile env self parent bn hSelf hParent hAt hAbove
    subst hFile
    apply isDirectory_unknown
    · intro mode hTells
      exact no_match hGone hSelf (.inr ⟨hTells, hAt⟩)
    · intro mode hLists
      exact no_match hGone hParent (.inl ⟨hLists, hAbove⟩)

/-- A session of `proto` in the directory `cwd`. -/
def sessionAt (proto : Proto) (cwd : Bytes) : FileAccess where
  proto := proto
  hostname := some (bytes "host")
  portname := none
  user := none
  pass := none
  cwd := ⟨cwd, false, none⟩
  home := some [slash]
  ftps := false
  anonUser := none
  anonPass := none

end Lftp.Ports.LsCache
