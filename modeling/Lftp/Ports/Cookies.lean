import Mathlib.Data.List.DropRight
import Mathlib.Data.List.Nodup
import Mathlib.Data.Option.Basic
import Lftp.Ports.FtpControl
import Lftp.Verified.Lines
import Lftp.Verified.Loop
import Lftp.Verified.Segments

/-!
# Cookies

`SetCookie` keeps a cookie as a value of the setting `http:cookie`, whose closure says where it is
sent: the domain, the path and whether only to https, with semicolons between them.
`CookieClosureMatch` takes the closure apart again. A text of cookies has one after another, with
semicolons and perhaps spaces between them; `CookieMerge` puts the cookies of one text into
another.

The scan for attributes always starts at the beginning of the closure, where it has just put a
NUL, so it finds one attribute at most.

* `closureMatch_iff` says where a cookie with one of the attributes is sent.
* `cookieMerge_oneEach` says what two texts make if no search for a name passes a cookie behind a
  semicolon without a space, where it looks one byte too far.
-/

namespace Lftp.Ports.Cookies

open Lftp.Verified
open Lftp.Ports.Ftp (startsNoCase)

/-! ## Merging -/

/-- The strings that `strtok` finds between semicolons. -/
def tokens (s : Bytes) : List Bytes := (s.splitOn (ch ';')).filter (· ≠ [])

/-- An entry that is `secure` and not a cookie. -/
def isSecure (entry : Bytes) : Bool :=
  startsNoCase (bytes "secure") entry
    && (entry.length = 6 || entry[6]? = some (ch ' ') || entry[6]? = some (ch ';'))

/-- `path= expires= domain= secure` -/
def isAttribute (entry : Bytes) : Bool :=
  startsNoCase (bytes "path=") entry || startsNoCase (bytes "expires=") entry
    || startsNoCase (bytes "domain=") entry || isSecure entry

/-- `skip_all(i,' ')` -/
def skipSpaces (s : Bytes) (i : Nat) : Nat := i + ((s.drop i).takeWhile (· = ch ' ')).length

/-- `rtrim(c)` -/
def rtrim (c : UInt8) (s : Bytes) : Bytes := s.rdropWhile (· = c)

/-- A turn of the loop that looks for the cookie with this name at `i` and removes it. -/
def findTurn (name : Option Bytes) (all : Bytes) (i : Nat) : Nat ⊕ Bytes :=
  if i < all.length then
    let scan := all.drop i
    let semicolon := scan.idxOf? (ch ';')
    let eq := (scan.idxOf? (ch '=')).filter fun e => semicolon.all fun s => e ≤ s
    let len := (name.getD []).length
    if (eq = none ∧ name = none) ∨ (eq = some len ∧ scan.take len = name.getD []) then
      .inr (semicolon.elim (all.take i) fun s => all.take i ++ all.drop (skipSpaces all (i + s + 1)))
    else semicolon.elim (.inr all) fun s => .inl (skipSpaces all (i + s + 1 + 1))
  else .inr all

/-- The old cookie is removed. -/
def removeOld (name : Option Bytes) (all : Bytes) : Option Bytes :=
  loop (findTurn name all) (all.length + 1) (skipSpaces all 0)

/-- A cookie is appended. -/
def appendCookie (entry : Bytes) (all : Bytes) : Bytes :=
  let all := rtrim (ch ';') (rtrim (ch ' ') all)
  (if all = [] then [] else all ++ bytes "; ") ++ entry

/-- The name of an entry, if it has one. -/
def nameOf (entry : Bytes) : Option Bytes :=
  (entry.idxOf? (ch '=')).map fun i => entry.take i

/-- The cookies of these entries are put into `all`. -/
def mergeEntries : List Bytes → Bytes → Option Bytes
  | [], all => some all
  | entry :: rest, all =>
    let entry := if entry.head? = some (ch ' ') then entry.tail else entry
    if entry = [] then some all
    else if isAttribute entry then mergeEntries rest all
    else do
      let all ← removeOld (nameOf entry) all
      mergeEntries rest (appendCookie entry all)

/-- `CookieMerge` -/
def cookieMerge (all add : Bytes) : Option Bytes := mergeEntries (tokens add) all

/-! ## Where a cookie is sent -/

structure Attributes where
  domain : Bytes
  path : Option Bytes
  secure : Bool
  deriving DecidableEq

/-- The domain behind `domain=`. -/
def newDomain (s : Bytes) : Bytes := if s.head? = some (ch '.') then ch '*' :: s else s

/-- What `SetCookie` reads. -/
def readAttributes : List Bytes → Attributes → Attributes
  | [], a => a
  | entry :: rest, a =>
    let entry := entry.dropWhile (· = ch ' ')
    if entry = [] then a
    else if startsNoCase (bytes "expires=") entry then readAttributes rest a
    else if isSecure entry then readAttributes rest { a with secure := true }
    else if startsNoCase (bytes "path=") entry then
      readAttributes rest { a with path := some (entry.drop 5) }
    else if startsNoCase (bytes "domain=") entry then
      readAttributes rest { a with domain := newDomain (entry.drop 7) }
    else readAttributes rest a

def attributes (hostname value : Bytes) : Attributes :=
  readAttributes (tokens value) ⟨hostname, none, false⟩

/-- A path that restricts a cookie. -/
def restricts (path : Option Bytes) : Bool := path.any fun p => p ≠ [] && p ≠ bytes "/"

def Attributes.closure (a : Attributes) : Bytes :=
  a.domain ++ (if restricts a.path then bytes ";path=" ++ a.path.getD [] else [])
    ++ (if a.secure then bytes ";secure" else [])

/-- The values of `http:cookie` with their closures. -/
abbrev Store := List (Option Bytes × Bytes)

structure Env where
  fnmatch : Bytes → Bytes → Bool
  /-- `Query("cookie",closure)` -/
  query : Store → Bytes → Bytes

/-- `ResMgr::Set` -/
def set (closure value : Bytes) (store : Store) : Store :=
  store.eraseP (fun e => e.1 = some closure) ++ [(some closure, value)]

/-- `SetCookie` -/
def setCookie (env : Env) (hostname value : Bytes) (store : Store) : Option Store := do
  let closure := (attributes hostname value).closure
  let c ← cookieMerge (env.query store closure) value
  some (set closure c store)

structure Request where
  hostname : Bytes
  efile : Bytes
  https : Bool

structure Scan where
  closure : Bytes
  path : Option Bytes

/-- A turn of the loop over the attributes; no result where the function returns. `strchr` starts at
the beginning each time. -/
def scanTurn (https : Bool) (s : Scan) : Scan ⊕ Option Scan :=
  match s.closure.idxOf? (ch ';') with
  | none => .inr (some s)
  | some i =>
    let slash := (s.closure.drop (i + 1)).dropWhile (· = ch ' ')
    if (bytes "path=").isPrefixOf slash then .inl ⟨s.closure.take i, some (slash.drop 5)⟩
    else if (bytes "secure").isPrefixOf slash ∧ (slash.length = 6 ∨ slash[6]? = some (ch ';'))
        ∧ https = false then .inr none
    else .inl ⟨s.closure.take i, s.path⟩

/-- The file is in the path, of which a last slash does not count. -/
def inPath (path efile : Bytes) : Bool :=
  let len := if path.getLast? = some (ch '/') then path.length - 1 else path.length
  efile.take len = path.take len && (efile.length = len || efile[len]? = some (ch '/'))

section

variable (fnmatch : Bytes → Bytes → Bool) (r : Request)

/-- `CookieClosureMatch` -/
def closureMatch : Option Bytes → Option Bool
  | none => some true
  | some closure =>
    (loop (scanTurn r.https) (closure.length + 2) ⟨closure, none⟩).map fun
      | none => false
      | some s =>
        if s.closure ≠ [] ∧ fnmatch s.closure r.hostname = false then false
        else s.path.all fun p => inPath p r.efile

/-- `MakeCookie` -/
def makeCookie (store : Store) : Option Bytes :=
  store.foldlM (fun all e => do
    let isFor ← closureMatch fnmatch r e.1
    if isFor then cookieMerge all e.2 else some all) []

end

/-! ## The scan for attributes -/

/-- A file is in a path when it goes on with a slash or not at all. -/
def Within (path efile : Bytes) : Prop :=
  ∃ rest, efile = (if path.getLast? = some (ch '/') then path.dropLast else path) ++ rest
    ∧ (rest = [] ∨ rest.head? = some (ch '/'))

/-- The request is one for which the cookie is stored. -/
structure Scoped (fnmatch : Bytes → Bytes → Bool) (a : Attributes) (r : Request) : Prop where
  domain : a.domain ≠ [] → fnmatch a.domain r.hostname = true
  path : restricts a.path = true → Within (a.path.getD []) r.efile
  secure : a.secure = true → r.https = true

theorem inPath_iff (path efile : Bytes) : inPath path efile = true ↔ Within path efile := by
  have hTrim : path.take (if path.getLast? = some (ch '/') then path.length - 1 else path.length)
      = if path.getLast? = some (ch '/') then path.dropLast else path := by
    split_ifs
    · rw [List.dropLast_eq_take]
    · exact List.take_length
  have hLen : (if path.getLast? = some (ch '/') then path.length - 1 else path.length)
      ≤ path.length := by split_ifs <;> omega
  unfold inPath Within
  rw [← hTrim]
  generalize (if path.getLast? = some (ch '/') then path.length - 1 else path.length) = len at hLen
  dsimp only
  rw [Bool.and_eq_true, decide_eq_true_eq, Bool.or_eq_true, decide_eq_true_eq, decide_eq_true_eq]
  have hTake : (path.take len).length = len := List.length_take_of_le hLen
  constructor
  · rintro ⟨hSame, hEnd⟩
    refine ⟨efile.drop len, by rw [← hSame, List.take_append_drop], ?_⟩
    rcases hEnd with hEnd | hEnd
    · exact .inl (by rw [← hEnd, List.drop_length])
    · exact .inr (by rw [List.head?_drop, hEnd])
  · rintro ⟨rest, rfl, hEnd⟩
    refine ⟨by rw [List.take_left' hTake], ?_⟩
    rcases hEnd with rfl | hEnd
    · exact .inl (by rw [List.append_nil, hTake])
    · refine .inr ?_
      rw [List.getElem?_append_right hTake.le, hTake, Nat.sub_self, ← List.head?_eq_getElem?, hEnd]

/-- After one turn there is no semicolon left. -/
theorem scan_leaves (https : Bool) (s : Scan) (n : Nat) :
    ∃ result, loop (scanTurn https) (n + 2) s = some result := by
  cases hFirst : scanTurn https s with
  | inr result => exact ⟨result, loop_inr hFirst _⟩
  | inl s' =>
      rw [loop_inl hFirst]
      have hNone : s'.closure.idxOf? (ch ';') = none := by
        unfold scanTurn at hFirst
        cases hAt : s.closure.idxOf? (ch ';') with
        | none =>
            rw [hAt] at hFirst
            cases hFirst
        | some i =>
            obtain ⟨line, rest, hText, hNot, hLength⟩ := exists_line hAt
            have hTake : s.closure.take i = line := by rw [hText, ← hLength, List.take_left]
            rw [hAt] at hFirst
            dsimp only at hFirst
            rw [hTake] at hFirst
            rw [List.idxOf?_eq_none_iff]
            split_ifs at hFirst
            · cases hFirst; exact hNot
            · cases hFirst; exact hNot
      refine ⟨some s', loop_inr ?_ n⟩
      unfold scanTurn
      rw [hNone]

theorem closureMatch_isSome (fnmatch : Bytes → Bytes → Bool) (r : Request)
    (closure : Option Bytes) : ∃ b, closureMatch fnmatch r closure = some b := by
  cases closure with
  | none => exact ⟨true, rfl⟩
  | some closure =>
      obtain ⟨result, hLoop⟩ := scan_leaves r.https ⟨closure, none⟩ closure.length
      unfold closureMatch
      dsimp only
      rw [hLoop]
      exact ⟨_, rfl⟩

theorem loop_plain {https : Bool} {domain : Bytes} (h : ch ';' ∉ domain) (path : Option Bytes)
    (n : Nat) : loop (scanTurn https) (n + 1) ⟨domain, path⟩ = some (some ⟨domain, path⟩) := by
  refine loop_inr ?_ n
  unfold scanTurn
  rw [List.idxOf?_eq_none_iff.mpr h]

theorem scan_path {https : Bool} {domain : Bytes} (h : ch ';' ∉ domain) (path : Bytes) (n : Nat) :
    loop (scanTurn https) (n + 2) ⟨domain ++ bytes ";path=" ++ path, none⟩
      = some (some ⟨domain, some path⟩) := by
  have hText : domain ++ bytes ";path=" ++ path = domain ++ ch ';' :: (bytes "path=" ++ path) :=
    List.append_assoc _ _ _
  have hTurn : scanTurn https ⟨domain ++ bytes ";path=" ++ path, none⟩ = .inl ⟨domain, some path⟩ := by
    unfold scanTurn
    dsimp only
    rw [hText, idxOf?_line h]
    have hSpaces : (List.drop 1 (ch ';' :: (bytes "path=" ++ path))).dropWhile (· = ch ' ')
        = bytes "path=" ++ path := rfl
    dsimp only
    rw [List.drop_length_add_append, List.take_left]
    rw [hSpaces, if_pos (List.isPrefixOf_iff_prefix.mpr (List.prefix_append _ _))]
    rfl
  rw [loop_inl hTurn, loop_plain h]

theorem scan_secure {https : Bool} {domain : Bytes} (h : ch ';' ∉ domain) (n : Nat) :
    loop (scanTurn https) (n + 2) ⟨domain ++ bytes ";secure", none⟩
      = some (if https then some ⟨domain, none⟩ else none) := by
  have hText : domain ++ bytes ";secure" = domain ++ ch ';' :: bytes "secure" := rfl
  have hSpaces : (List.drop 1 (ch ';' :: bytes "secure")).dropWhile (· = ch ' ') = bytes "secure" :=
    rfl
  cases https with
  | false =>
      refine loop_inr ?_ _
      unfold scanTurn
      dsimp only
      rw [hText, idxOf?_line h]
      dsimp only
      rw [List.drop_length_add_append, hSpaces, if_neg (by decide), if_pos (by decide)]
      rfl
  | true =>
      have hTurn : scanTurn true ⟨domain ++ bytes ";secure", none⟩ = .inl ⟨domain, none⟩ := by
        unfold scanTurn
        dsimp only
        rw [hText, idxOf?_line h]
        dsimp only
        rw [List.drop_length_add_append, List.take_left, hSpaces, if_neg (by decide), if_neg (by decide)]
      rw [loop_inl hTurn, loop_plain h]
      rfl

/-! ## What is stored -/

theorem notMem_newDomain {s : Bytes} (h : ch ';' ∉ s) : ch ';' ∉ newDomain s := by
  unfold newDomain
  split_ifs
  · exact fun hMem => (List.mem_cons.mp hMem).elim (by decide) h
  · exact h

theorem notMem_domain {entries : List Bytes} (h : ∀ e ∈ entries, ch ';' ∉ e) {a : Attributes}
    (ha : ch ';' ∉ a.domain) : ch ';' ∉ (readAttributes entries a).domain := by
  induction entries generalizing a with
  | nil => exact ha
  | cons entry rest ih =>
      have hRest : ∀ e ∈ rest, ch ';' ∉ e := fun e he => h e (List.mem_cons_of_mem _ he)
      have hEntry : ch ';' ∉ entry.dropWhile (· = ch ' ') := fun hMem =>
        h entry List.mem_cons_self ((List.dropWhile_sublist _).subset hMem)
      unfold readAttributes
      dsimp only
      split_ifs
      · exact ha
      · exact ih hRest ha
      · exact ih hRest ha
      · exact ih hRest ha
      · exact ih hRest (notMem_newDomain fun hMem => hEntry (List.mem_of_mem_drop hMem))
      · exact ih hRest ha

theorem notMem_attributes {hostname : Bytes} (h : ch ';' ∉ hostname) (value : Bytes) :
    ch ';' ∉ (attributes hostname value).domain :=
  notMem_domain (fun e he => notMem_of_mem_splitOn e (List.mem_of_mem_filter he)) h

theorem closureMatch_of_loop {fnmatch : Bytes → Bytes → Bool} {r : Request} {closure : Bytes}
    {result : Option Scan}
    (h : loop (scanTurn r.https) (closure.length + 2) ⟨closure, none⟩ = some result) :
    closureMatch fnmatch r (some closure) = some true ↔ ∃ s, result = some s
      ∧ (s.closure ≠ [] → fnmatch s.closure r.hostname = true)
      ∧ ∀ path, s.path = some path → Within path r.efile := by
  unfold closureMatch
  dsimp only
  rw [h, Option.map_some, Option.some.injEq]
  cases result with
  | none => exact ⟨nofun, fun ⟨s, hs, _⟩ => nomatch hs⟩
  | some s =>
      have hPath : (s.path.all fun path => inPath path r.efile) = true
          ↔ ∀ path, s.path = some path → Within path r.efile := by
        cases s.path with
        | none => exact ⟨fun _ _ => nofun, fun _ => rfl⟩
        | some path =>
            rw [Option.all_some, inPath_iff]
            exact ⟨fun hIn _ hEq => Option.some.inj hEq ▸ hIn, fun hAll => hAll path rfl⟩
      dsimp only
      split_ifs with hNo
      · refine ⟨nofun, ?_⟩
        rintro ⟨s', hs', hDomain, -⟩
        cases hs'
        rw [hDomain hNo.1] at hNo
        cases hNo.2
      · rw [hPath]
        refine ⟨fun hAll => ⟨s, rfl, fun hne => ?_, hAll⟩, ?_⟩
        · by_contra hFalse
          exact hNo ⟨hne, Bool.not_eq_true _ ▸ hFalse⟩
        · rintro ⟨s', hs', -, hAll⟩
          cases hs'
          exact hAll

/-- A cookie with a path or only for https, or neither, is sent where its attributes say. -/
theorem closureMatch_iff (fnmatch : Bytes → Bytes → Bool) (r : Request) {a : Attributes}
    (hDomain : ch ';' ∉ a.domain) (hOne : ¬(restricts a.path = true ∧ a.secure = true)) :
    closureMatch fnmatch r (some a.closure) = some true ↔ Scoped fnmatch a r := by
  cases hPath : restricts a.path with
  | true =>
      have hSecure : a.secure = false := by
        rw [hPath] at hOne
        simpa using hOne
      have hClosure : a.closure = a.domain ++ bytes ";path=" ++ a.path.getD [] := by
        unfold Attributes.closure
        rw [hPath, hSecure]
        simp
      rw [hClosure, closureMatch_of_loop (scan_path hDomain _ _)]
      constructor
      · rintro ⟨s, hs, hMatch, hIn⟩
        cases hs
        refine ⟨hMatch, fun _ => hIn _ rfl, fun hTrue => ?_⟩
        rw [hSecure] at hTrue
        cases hTrue
      · intro h
        refine ⟨_, rfl, h.domain, ?_⟩
        rintro path ⟨⟩
        exact h.path hPath
  | false =>
      have hFree : ∀ {Q : Prop}, restricts a.path = true → Q := fun hTrue => by
        rw [hPath] at hTrue
        cases hTrue
      cases hSecure : a.secure with
      | true =>
          have hClosure : a.closure = a.domain ++ bytes ";secure" := by
            unfold Attributes.closure
            rw [hPath, hSecure]
            simp
          rw [hClosure, closureMatch_of_loop (scan_secure hDomain _)]
          constructor
          · rintro ⟨s, hs, hMatch, -⟩
            split_ifs at hs with hHttps
            cases hs
            exact ⟨hMatch, hFree, fun _ => hHttps⟩
          · intro h
            rw [if_pos (h.secure hSecure)]
            exact ⟨_, rfl, h.domain, nofun⟩
      | false =>
          have hClosure : a.closure = a.domain := by
            unfold Attributes.closure
            rw [hPath, hSecure]
            simp
          rw [hClosure, closureMatch_of_loop (loop_plain hDomain none _)]
          constructor
          · rintro ⟨s, hs, hMatch, -⟩
            cases hs
            exact ⟨hMatch, hFree, fun hTrue => by rw [hSecure] at hTrue; cases hTrue⟩
          · exact fun h => ⟨_, rfl, h.domain, nofun⟩

/-- `MakeCookie` puts together the cookies that are for the request. -/
theorem makeCookie_eq (fnmatch : Bytes → Bytes → Bool) (r : Request) (store : Store) :
    makeCookie fnmatch r store = (store.filter fun e => closureMatch fnmatch r e.1 = some true).foldlM
      (fun all e => cookieMerge all e.2) [] := by
  unfold makeCookie
  generalize ([] : Bytes) = all
  induction store generalizing all with
  | nil => rfl
  | cons e store ih =>
      obtain ⟨b, hMatch⟩ := closureMatch_isSome fnmatch r e.1
      rw [List.foldlM_cons, hMatch]
      cases b with
      | false =>
          rw [List.filter_cons_of_neg (by rw [hMatch]; decide), ← ih]
          rfl
      | true =>
          rw [List.filter_cons_of_pos (by rw [hMatch]; decide), List.foldlM_cons]
          exact congrArg (cookieMerge all e.2 >>= ·) (funext ih)

/-! ## The search for a name -/

theorem le_skipSpaces (s : Bytes) (i : Nat) : i ≤ skipSpaces s i := Nat.le_add_right _ _

theorem removeOld_isSome (name : Option Bytes) (all : Bytes) :
    ∃ all', removeOld name all = some all' := by
  have hTotal := @loop_total _ _ (findTurn name all) (fun _ => True) (fun _ => True)
    (fun i => all.length - i) (fun i _ => ?_) (skipSpaces all 0) trivial (all.length + 1) (by omega)
  · obtain ⟨all', hLoop, -⟩ := hTotal
    exact ⟨all', hLoop⟩
  · unfold findTurn
    by_cases hIn : i < all.length
    · rw [if_pos hIn]
      dsimp only
      split_ifs
      · exact .inl ⟨_, rfl, trivial⟩
      · cases (all.drop i).idxOf? (ch ';') with
        | none => exact .inl ⟨_, rfl, trivial⟩
        | some s =>
            have hLe := le_skipSpaces all (i + s + 1 + 1)
            exact .inr ⟨_, rfl, trivial, by omega⟩
    · rw [if_neg hIn]
      exact .inl ⟨_, rfl, trivial⟩

theorem mergeEntries_isSome (entries : List Bytes) (all : Bytes) :
    ∃ all', mergeEntries entries all = some all' := by
  induction entries generalizing all with
  | nil => exact ⟨all, rfl⟩
  | cons entry rest ih =>
      unfold mergeEntries
      dsimp only
      generalize (if entry.head? = some (ch ' ') then entry.tail else entry) = entry
      split_ifs
      · exact ⟨all, rfl⟩
      · exact ih all
      · obtain ⟨all', hRemove⟩ := removeOld_isSome (nameOf entry) all
        rw [hRemove]
        exact ih (appendCookie entry all')

/-- Every closure is read to its end, and what `SetCookie` stores is sent by `MakeCookie` where its
attributes say, except for a cookie with a path that is for https. -/
theorem sent_iff (env : Env) :
    (∀ (r : Request) (closure : Option Bytes), ∃ b, closureMatch env.fnmatch r closure = some b)
    ∧ (∀ (r : Request) (store : Store), makeCookie env.fnmatch r store
      = (store.filter fun e => closureMatch env.fnmatch r e.1 = some true).foldlM
        (fun all e => cookieMerge all e.2) [])
    ∧ ∀ (hostname value : Bytes) (store : Store), ch ';' ∉ hostname →
      ¬(restricts (attributes hostname value).path = true
        ∧ (attributes hostname value).secure = true) →
      ∃ c store', setCookie env hostname value store = some store'
        ∧ (some (attributes hostname value).closure, c) ∈ store'
        ∧ ∀ r, closureMatch env.fnmatch r (some (attributes hostname value).closure) = some true
          ↔ Scoped env.fnmatch (attributes hostname value) r := by
  refine ⟨closureMatch_isSome env.fnmatch, makeCookie_eq env.fnmatch,
    fun hostname value store hHost hOne => ?_⟩
  obtain ⟨c, hMerge⟩ := mergeEntries_isSome (tokens value)
    (env.query store (attributes hostname value).closure)
  refine ⟨c, set (attributes hostname value).closure c store, ?_,
    List.mem_append_right _ List.mem_cons_self, fun r => closureMatch_iff env.fnmatch r (notMem_attributes hHost value) hOne⟩
  unfold setCookie cookieMerge
  dsimp only
  rw [hMerge]
  rfl

/-- A cookie for `/foo` is not sent for `/foobar`, which begins with its path. -/
theorem not_sent_prefix : ¬ ∀ (fnmatch : Bytes → Bytes → Bool) (hostname value : Bytes) (r : Request),
    closureMatch fnmatch r (some (attributes hostname value).closure) = some true ↔
      fnmatch (attributes hostname value).domain r.hostname = true
      ∧ (∀ path, (attributes hostname value).path = some path → path <+: r.efile)
      ∧ ((attributes hostname value).secure = true → r.https = true) := by
  intro h
  have hSent := (h (fun pattern s => pattern = s) (bytes "h") (bytes "a=1; path=/foo")
    ⟨bytes "h", bytes "/foobar", false⟩).mpr
  have hAttributes : attributes (bytes "h") (bytes "a=1; path=/foo")
      = ⟨bytes "h", some (bytes "/foo"), false⟩ := by decide +kernel
  rw [hAttributes] at hSent
  have hNot : closureMatch (fun pattern s => pattern = s) ⟨bytes "h", bytes "/foobar", false⟩
      (some (Attributes.closure ⟨bytes "h", some (bytes "/foo"), false⟩)) = some false := by
    decide +kernel
  rw [hNot] at hSent
  refine absurd (hSent ⟨by decide, ?_, nofun⟩) (by decide)
  rintro path ⟨⟩
  exact ⟨bytes "bar", rfl⟩

/-! ## Texts of cookies -/

/-- A name and a value that a text can hold. -/
structure Cookie where
  name : Bytes
  value : Bytes
  name_ne : name ≠ []
  name_start : name.head? ≠ some (ch ' ')
  name_line : ch ';' ∉ name
  name_eq : ch '=' ∉ name
  value_line : ch ';' ∉ value
  value_stop : value.getLast? ≠ some (ch ' ')

/-- A cookie and the number of spaces before it. -/
structure Entry where
  gap : Nat
  cookie : Cookie

namespace Cookie

variable (c : Cookie)

def text : Bytes := c.name ++ ch '=' :: c.value

theorem text_line : ch ';' ∉ c.text := by
  have hName := c.name_line
  have hValue := c.value_line
  unfold text
  rw [List.mem_append, List.mem_cons]
  rintro (h | h | h)
  · exact hName h
  · cases h
  · exact hValue h

theorem text_start : c.text.head? ≠ some (ch ' ') := by
  have hStart := c.name_start
  cases hName : c.name with
  | nil => exact absurd hName c.name_ne
  | cons x name =>
      rw [hName] at hStart
      unfold text
      rw [hName]
      exact hStart

theorem text_ne : c.text ≠ [] := by
  unfold text
  simp

/-- The last byte of a cookie is not trimmed. -/
theorem text_stop : ∃ s x, c.text = s ++ [x] ∧ x ≠ ch ' ' ∧ x ≠ ch ';' := by
  have hStop := c.value_stop
  have hLine := c.value_line
  unfold text
  rcases List.eq_nil_or_concat c.value with hNil | ⟨v, x, hEq⟩
  · exact ⟨c.name, ch '=', by rw [hNil], by decide, by decide⟩
  · rw [List.concat_eq_append] at hEq
    rw [hEq] at hStop hLine
    refine ⟨c.name ++ ch '=' :: v, x, by rw [hEq]; simp, fun hx => ?_, fun hx => ?_⟩
    · rw [hx] at hStop
      simp at hStop
    · rw [hx] at hLine
      simp at hLine

theorem nameOf_text : nameOf c.text = some c.name := by
  unfold nameOf text
  rw [idxOf?_line c.name_eq, Option.map_some, List.take_left]

end Cookie

def spaces (n : Nat) : Bytes := List.replicate n (ch ' ')

/-- The cookies after the first one. -/
def renderTail : List Entry → Bytes
  | [] => []
  | e :: es => ch ';' :: (spaces e.gap ++ (e.cookie.text ++ renderTail es))

def render : List Entry → Bytes
  | [] => []
  | e :: es => spaces e.gap ++ (e.cookie.text ++ renderTail es)

/-- The old cookie is taken out, and the next one takes its place. -/
def remove (name : Bytes) : List Entry → List Entry
  | [] => []
  | e :: es =>
    if e.cookie.name = name then
      match es with
      | [] => []
      | e' :: es => ⟨e.gap, e'.cookie⟩ :: es
    else e :: remove name es

/-- A cookie takes the place of the old one at the end. -/
def put (es : List Entry) (c : Cookie) : List Entry :=
  remove c.name es ++ [⟨if remove c.name es = [] then 0 else 1, c⟩]

/-- The search for a name behind the first cookie does not pass a cookie without a space before it
that has the name, or has it behind one more byte. -/
def ClearTail (name : Bytes) : List Entry → Prop
  | [] => True
  | e :: es =>
    if e.gap = 0 then
      e.cookie.name ≠ name ∧ e.cookie.name.tail.dropWhile (· = ch ' ') ≠ name ∧ ClearTail name es
    else e.cookie.name ≠ name → ClearTail name es

def Clear (name : Bytes) : List Entry → Prop
  | [] => True
  | e :: es => e.cookie.name ≠ name → ClearTail name es

/-- No search passes such a cookie when these are merged one after another. -/
def AllClear : List Cookie → List Entry → Prop
  | [], _ => True
  | c :: cs, es => Clear c.name es ∧ AllClear cs (put es c)

/-- The cookies of a text, without the attributes. -/
def cookies (b : List Entry) : List Cookie :=
  (b.map Entry.cookie).filter fun c => !isAttribute c.text

/-- Every name is there once, with the last value that is added for it, or else with the old one. -/
structure OneEach (all add result : List Cookie) : Prop where
  once : (result.map Cookie.name).Nodup
  values : ∀ name, result.find? (fun c => c.name = name)
    = (add.reverse.find? fun c => c.name = name).or (all.find? fun c => c.name = name)

/-! ## The search in a text of cookies -/

theorem skipSpaces_at (pre : Bytes) (n : Nat) {s : Bytes} (h : s.head? ≠ some (ch ' ')) :
    skipSpaces (pre ++ (spaces n ++ s)) pre.length = (pre ++ spaces n).length := by
  have hStop : s.takeWhile (· = ch ' ') = [] := by
    cases s with
    | nil => rfl
    | cons x s =>
        rw [List.takeWhile_cons_of_neg]
        intro hx
        rw [of_decide_eq_true hx] at h
        exact h rfl
  have hAll : ∀ x ∈ spaces n, decide (x = ch ' ') = true := fun x hx =>
    decide_eq_true (List.eq_of_mem_replicate hx)
  unfold skipSpaces
  rw [List.drop_left, List.takeWhile_append_of_pos hAll, hStop, List.append_nil,
    List.length_append]

theorem renderTail_cons (e : Entry) (es : List Entry) : renderTail (e :: es)
    = ch ';' :: (spaces e.gap ++ (e.cookie.text ++ renderTail es)) := rfl

/-- What stands before the next semicolon. -/
theorem idxOf?_semicolon {line : Bytes} (h : ch ';' ∉ line) (es : List Entry) :
    (line ++ renderTail es).idxOf? (ch ';') = match es with
      | [] => none
      | _ :: _ => some line.length := by
  cases es with
  | nil =>
      rw [renderTail, List.append_nil]
      exact List.idxOf?_eq_none_iff.mpr h
  | cons e es => exact idxOf?_line h _

/-- What is left behind the place of a cookie that is removed. -/
def afterRemoved : List Entry → Bytes
  | [] => []
  | e :: es => e.cookie.text ++ renderTail es

variable {name pre v value : Bytes} {es : List Entry}

/-- A turn at a name `v`. -/
theorem findTurn_at (name pre : Bytes) (es : List Entry) (hv : ch ';' ∉ v) (hEq : ch '=' ∉ v) (hValue : ch ';' ∉ value) :
    findTurn (some name) (pre ++ (v ++ ch '=' :: value ++ renderTail es)) pre.length
      = if v = name then .inr (pre ++ afterRemoved es)
        else match es with
          | [] => .inr (pre ++ (v ++ ch '=' :: value))
          | _ :: _ => .inl (skipSpaces (pre ++ (v ++ ch '=' :: value ++ renderTail es))
            (pre.length + (v ++ ch '=' :: value).length + 1 + 1)) := by
  have hLine : ch ';' ∉ v ++ ch '=' :: value := by
    rw [List.mem_append, List.mem_cons]
    rintro (h | h | h)
    · exact hv h
    · cases h
    · exact hValue h
  have hScan : (pre ++ (v ++ ch '=' :: value ++ renderTail es)).drop pre.length
      = v ++ ch '=' :: value ++ renderTail es := List.drop_left
  have hFound : (v ++ ch '=' :: value ++ renderTail es).idxOf? (ch '=') = some v.length := by
    rw [List.append_assoc, List.cons_append]
    exact idxOf?_line hEq _
  have hTake : (v ++ ch '=' :: value ++ renderTail es).take v.length = v := by
    rw [List.append_assoc, List.take_left]
  have hIn : pre.length < (pre ++ (v ++ ch '=' :: value ++ renderTail es)).length := by
    simp only [List.length_append, List.length_cons]
    omega
  have hMiss : v ≠ name → ¬(some v.length = none ∧ some name = none
      ∨ some v.length = some ((some name).getD []).length
        ∧ (v ++ ch '=' :: value ++ renderTail es).take ((some name).getD []).length
          = (some name).getD []) := by
    rintro hNe (⟨hNone, -⟩ | ⟨hLength, hSame⟩)
    · cases hNone
    · rw [Option.getD_some] at hLength hSame
      rw [← Option.some.inj hLength, hTake] at hSame
      exact hNe hSame
  have hLength : v.length ≤ (v ++ ch '=' :: value).length := by
    rw [List.length_append]
    omega
  have hFilter : Option.filter (fun e => (match es with
      | [] => none
      | _ :: _ => some (v ++ ch '=' :: value).length : Option Nat).all fun s => e ≤ s)
      (some v.length) = some v.length := by
    rw [Option.filter_some, if_pos]
    cases es with
    | nil => rfl
    | cons e es => exact decide_eq_true hLength
  unfold findTurn
  rw [if_pos hIn]
  dsimp only
  rw [hScan, hFound, idxOf?_semicolon hLine, hFilter]
  by_cases hName : v = name
  · subst hName
    rw [if_pos (.inr ⟨rfl, hTake⟩), if_pos rfl]
    cases es with
    | nil =>
        show (Sum.inr _ : Nat ⊕ Bytes) = _
        rw [List.take_left, afterRemoved, List.append_nil]
        rfl
    | cons e es =>
        have hAt := skipSpaces_at (pre ++ (v ++ ch '=' :: value ++ [ch ';'])) e.gap
          (s := e.cookie.text ++ renderTail es) (by
            rw [List.head?_append_of_ne_nil _ e.cookie.text_ne]
            exact e.cookie.text_start)
        have hText : pre ++ (v ++ ch '=' :: value ++ renderTail (e :: es))
            = pre ++ (v ++ ch '=' :: value ++ [ch ';'])
              ++ (spaces e.gap ++ (e.cookie.text ++ renderTail es)) := by
          rw [renderTail_cons]
          simp only [List.append_assoc, List.cons_append, List.nil_append]
        have hPlace : pre.length + (v ++ ch '=' :: value).length + 1
            = (pre ++ (v ++ ch '=' :: value ++ [ch ';'])).length := by
          simp only [List.length_append, List.length_cons, List.length_nil]
          omega
        dsimp only [Option.elim]
        rw [List.take_left, hText, hPlace, hAt, ← List.append_assoc (pre ++ _) (spaces e.gap),
          List.drop_left]
        rfl
  · rw [if_neg (hMiss hName), if_neg hName]
    cases es with
    | nil => rw [renderTail, List.append_nil]; rfl
    | cons e es => rfl

/-- The text behind the first cookie once a cookie is removed. -/
def leftTail (name : Bytes) : List Entry → Bytes
  | [] => []
  | e :: es =>
    if e.cookie.name = name then ch ';' :: (spaces e.gap ++ afterRemoved es)
    else ch ';' :: (spaces e.gap ++ (e.cookie.text ++ leftTail name es))

theorem eq_spaces (s : Bytes) :
    ∃ n, s = spaces n ++ s.dropWhile (· = ch ' ') ∧ s.takeWhile (· = ch ' ') = spaces n := by
  have hSpaces : s.takeWhile (· = ch ' ') = spaces (s.takeWhile (· = ch ' ')).length :=
    List.eq_replicate_of_mem fun x hx =>
      of_decide_eq_true (List.mem_takeWhile_imp (p := fun x => decide (x = ch ' ')) hx)
  refine ⟨_, ?_, hSpaces⟩
  rw [← hSpaces, List.takeWhile_append_dropWhile]

theorem head?_dropWhile (s : Bytes) : (s.dropWhile (· = ch ' ')).head? ≠ some (ch ' ') := by
  intro h
  have hNot := List.head?_dropWhile_not (fun x => decide (x = ch ' ')) s
  rw [h] at hNot
  simp at hNot

theorem Cookie.head?_append (c : Cookie) (s : Bytes) : (c.text ++ s).head? ≠ some (ch ' ') := by
  rw [List.head?_append_of_ne_nil _ c.text_ne]
  exact c.text_start

/-- The search goes on behind a cookie that is seen as `v` and is not the one. -/
theorem search_tail (hv : ch ';' ∉ v) (hEq : ch '=' ∉ v) (hValue : ch ';' ∉ value)
    (hName : v ≠ name) (hClear : ClearTail name es) :
    Leaves (findTurn (some name) (pre ++ (v ++ ch '=' :: value ++ renderTail es))) pre.length
      (pre ++ (v ++ ch '=' :: value) ++ leftTail name es) := by
  induction es generalizing pre v value with
  | nil =>
      have hTurn := findTurn_at name pre [] hv hEq hValue
      rw [if_neg hName] at hTurn
      rw [leftTail, List.append_nil]
      exact Leaves.inr hTurn
  | cons e es ih =>
      have hTurn := findTurn_at name pre (e :: es) hv hEq hValue
      rw [if_neg hName] at hTurn
      refine Leaves.inl hTurn ?_
      have hSplit : pre ++ (v ++ ch '=' :: value ++ renderTail (e :: es))
          = pre ++ (v ++ ch '=' :: value) ++ [ch ';']
            ++ (spaces e.gap ++ (e.cookie.text ++ renderTail es)) := by
        rw [renderTail_cons]
        simp only [List.append_assoc, List.cons_append, List.nil_append]
      have hText : e.cookie.text = e.cookie.name ++ ch '=' :: e.cookie.value := rfl
      rw [hSplit]
      generalize hBefore : pre ++ (v ++ ch '=' :: value) ++ [ch ';'] = before
      have hPlace : pre.length + (v ++ ch '=' :: value).length + 1 = before.length := by
        rw [← hBefore]
        simp only [List.length_append, List.length_cons, List.length_nil]
      rw [hPlace]
      unfold ClearTail at hClear
      split_ifs at hClear with hGap
      · -- The first byte of the name is passed.
        obtain ⟨hOther, hShifted, hRest⟩ := hClear
        cases hFirst : e.cookie.name with
        | nil => exact absurd hFirst e.cookie.name_ne
        | cons c m =>
            obtain ⟨n, hm, -⟩ := eq_spaces m
            rw [hFirst] at hShifted
            have hSub : ∀ {x}, x ∈ m.dropWhile (· = ch ' ') → x ∈ e.cookie.name := fun hx => by
              rw [hFirst]
              exact List.mem_cons_of_mem c ((List.dropWhile_sublist _).subset hx)
            have hStart : (m.dropWhile (· = ch ' ') ++ ch '=' :: e.cookie.value ++ renderTail es).head?
                ≠ some (ch ' ') := by
              have hHead := head?_dropWhile m
              cases hDrop : m.dropWhile (· = ch ' ') with
              | nil => exact (by decide : some (ch '=') ≠ some (ch ' '))
              | cons x s =>
                  rw [hDrop] at hHead
                  exact hHead
            have hAt := skipSpaces_at (before ++ [c]) n hStart
            have hSpace : before ++ (spaces e.gap ++ (e.cookie.text ++ renderTail es))
                = before ++ [c] ++ (spaces n
                  ++ (m.dropWhile (· = ch ' ') ++ ch '=' :: e.cookie.value ++ renderTail es)) := by
              rw [hGap, hText, hFirst]
              nth_rewrite 1 [hm]
              simp [spaces]
            have hNext : before.length + 1 = (before ++ [c]).length := by simp
            rw [hSpace, hNext, hAt, ← List.append_assoc (before ++ [c]) (spaces n)]
            have hResult : pre ++ (v ++ ch '=' :: value) ++ leftTail name (e :: es)
                = before ++ [c] ++ spaces n ++ (m.dropWhile (· = ch ' ') ++ ch '=' :: e.cookie.value)
                  ++ leftTail name es := by
              rw [leftTail, if_neg hOther, ← hBefore, hGap, hText, hFirst]
              nth_rewrite 1 [hm]
              simp [spaces]
            rw [hResult]
            exact ih (fun hx => e.cookie.name_line (hSub hx)) (fun hx => e.cookie.name_eq (hSub hx))
              e.cookie.value_line hShifted hRest
      · obtain ⟨g, hg⟩ := Nat.exists_eq_succ_of_ne_zero hGap
        have hSpace : before ++ (spaces e.gap ++ (e.cookie.text ++ renderTail es))
            = before ++ [ch ' '] ++ (spaces g ++ (e.cookie.text ++ renderTail es)) := by
          rw [hg]
          simp [spaces, List.replicate_succ]
        have hAt := skipSpaces_at (before ++ [ch ' ']) g (e.cookie.head?_append (renderTail es))
        have hNext : before.length + 1 = (before ++ [ch ' ']).length := by simp
        rw [hSpace, hNext, hAt, ← List.append_assoc (before ++ [ch ' ']) (spaces g), hText]
        by_cases hFound : e.cookie.name = name
        · have hTurn' := findTurn_at name (before ++ [ch ' '] ++ spaces g) es
            e.cookie.name_line e.cookie.name_eq e.cookie.value_line
          rw [if_pos hFound] at hTurn'
          have hResult : pre ++ (v ++ ch '=' :: value) ++ leftTail name (e :: es)
              = before ++ [ch ' '] ++ spaces g ++ afterRemoved es := by
            rw [leftTail, if_pos hFound, ← hBefore, hg]
            simp [spaces, List.replicate_succ]
          rw [hResult]
          exact Leaves.inr hTurn'
        · have hResult : pre ++ (v ++ ch '=' :: value) ++ leftTail name (e :: es)
              = before ++ [ch ' '] ++ spaces g ++ (e.cookie.name ++ ch '=' :: e.cookie.value)
                ++ leftTail name es := by
            rw [leftTail, if_neg hFound, ← hBefore, hg, ← hText]
            simp [spaces, List.replicate_succ]
          rw [hResult]
          exact ih e.cookie.name_line e.cookie.name_eq e.cookie.value_line hFound (hClear hFound)

/-- The whole text once a cookie is removed. -/
def left (name : Bytes) : List Entry → Bytes
  | [] => []
  | e :: es =>
    if e.cookie.name = name then spaces e.gap ++ afterRemoved es
    else spaces e.gap ++ (e.cookie.text ++ leftTail name es)

theorem removeOld_render (h : Clear name es) :
    removeOld (some name) (render es) = some (left name es) := by
  obtain ⟨all, hAll⟩ := removeOld_isSome (some name) (render es)
  rw [hAll]
  have hLeaves : Leaves (findTurn (some name) (render es)) (skipSpaces (render es) 0) all := ⟨_, hAll⟩
  refine congrArg some (hLeaves.unique ?_)
  cases es with
  | nil => exact Leaves.inr rfl
  | cons e es =>
      have hAt := skipSpaces_at [] e.gap (e.cookie.head?_append (renderTail es))
      rw [List.nil_append, List.nil_append] at hAt
      have hText : render (e :: es) = spaces e.gap ++ (e.cookie.name ++ ch '=' :: e.cookie.value
          ++ renderTail es) := rfl
      rw [show skipSpaces (render (e :: es)) 0 = (spaces e.gap).length from hAt, hText]
      by_cases hFound : e.cookie.name = name
      · have hTurn := findTurn_at name (spaces e.gap) es e.cookie.name_line
          e.cookie.name_eq e.cookie.value_line
        rw [if_pos hFound] at hTurn
        rw [left, if_pos hFound]
        exact Leaves.inr hTurn
      · rw [left, if_neg hFound, ← List.append_assoc (spaces e.gap) e.cookie.text]
        exact search_tail e.cookie.name_line e.cookie.name_eq e.cookie.value_line hFound (h hFound)

/-! ## What is trimmed -/

/-- A semicolon and spaces that may be left at the end. -/
def Dangling (d : Bytes) : Prop := ∃ s k, d = s ++ spaces k ∧ (s = [] ∨ s = [ch ';'])

theorem leftTail_eq (name : Bytes) (es : List Entry) :
    ∃ d, Dangling d ∧ leftTail name es = renderTail (remove name es) ++ d := by
  have hNone : Dangling [] := ⟨[], 0, rfl, .inl rfl⟩
  induction es with
  | nil => exact ⟨[], hNone, rfl⟩
  | cons e es ih =>
      unfold leftTail remove
      split_ifs
      · cases es with
        | nil => exact ⟨ch ';' :: spaces e.gap, ⟨[ch ';'], e.gap, rfl, .inr rfl⟩, by
            simp [afterRemoved, renderTail]⟩
        | cons e' es => exact ⟨[], hNone, by simp [afterRemoved, renderTail]⟩
      · obtain ⟨d, hd, hEq⟩ := ih
        exact ⟨d, hd, by rw [hEq]; simp [renderTail]⟩

theorem left_eq (name : Bytes) (es : List Entry) :
    ∃ d, Dangling d ∧ left name es = render (remove name es) ++ d := by
  have hNone : Dangling [] := ⟨[], 0, rfl, .inl rfl⟩
  cases es with
  | nil => exact ⟨[], hNone, rfl⟩
  | cons e es =>
      dsimp only [left, remove]
      split_ifs
      · cases es with
        | nil => exact ⟨spaces e.gap, ⟨[], e.gap, rfl, .inl rfl⟩, by simp [afterRemoved, render]⟩
        | cons e' es => exact ⟨[], hNone, by simp [afterRemoved, render]⟩
      · obtain ⟨d, hd, hEq⟩ := leftTail_eq name es
        exact ⟨d, hd, by rw [hEq]; simp [render]⟩

theorem rtrim_append {c : UInt8} (s : Bytes) {t : Bytes} (h : ∀ x ∈ t, x = c) :
    rtrim c (s ++ t) = rtrim c s := by
  unfold rtrim
  rw [List.rdropWhile, List.rdropWhile, List.reverse_append, List.dropWhile_append_of_pos]
  intro x hx
  exact decide_eq_true (h x (List.mem_reverse.mp hx))

theorem rtrim_stop {c x : UInt8} (h : x ≠ c) (s : Bytes) : rtrim c (s ++ [x]) = s ++ [x] :=
  List.rdropWhile_concat_neg _ _ _ (by simpa using h)

/-- A text ends with the last byte of a cookie. -/
theorem render_stop (h : es ≠ []) : ∃ s x, render es = s ++ [x] ∧ x ≠ ch ' ' ∧ x ≠ ch ';' := by
  have hTail : ∀ (c : Cookie) (es : List Entry), ∃ s x,
      c.text ++ renderTail es = s ++ [x] ∧ x ≠ ch ' ' ∧ x ≠ ch ';' := by
    intro c es
    induction es generalizing c with
    | nil =>
        rw [renderTail, List.append_nil]
        exact c.text_stop
    | cons e es ih =>
        obtain ⟨s, x, hEq, hx⟩ := ih e.cookie
        refine ⟨c.text ++ ch ';' :: (spaces e.gap ++ s), x, ?_, hx⟩
        rw [renderTail_cons, hEq]
        simp
  cases es with
  | nil => exact absurd rfl h
  | cons e es =>
      obtain ⟨s, x, hEq, hx⟩ := hTail e.cookie es
      exact ⟨spaces e.gap ++ s, x, by rw [render, hEq, List.append_assoc], hx⟩

theorem rtrim_render (es : List Entry) {d : Bytes} (hd : Dangling d) :
    rtrim (ch ';') (rtrim (ch ' ') (render es ++ d)) = render es := by
  obtain ⟨s, k, rfl, hs⟩ := hd
  rw [← List.append_assoc, rtrim_append (t := spaces k) _ fun x hx => List.eq_of_mem_replicate hx]
  by_cases hNil : es = []
  · subst hNil
    rcases hs with rfl | rfl <;> rfl
  · obtain ⟨t, x, hEq, hSpace, hLine⟩ := render_stop hNil
    rcases hs with rfl | rfl
    · rw [List.append_nil, hEq, rtrim_stop hSpace, rtrim_stop hLine]
    · rw [rtrim_stop (by decide), rtrim_append _ fun x hx => List.mem_singleton.mp hx, hEq,
        rtrim_stop hLine]

theorem renderTail_append (es : List Entry) (e : Entry) :
    renderTail (es ++ [e]) = renderTail es ++ (ch ';' :: (spaces e.gap ++ e.cookie.text)) := by
  induction es with
  | nil => simp [renderTail]
  | cons e' es ih =>
      rw [List.cons_append, renderTail_cons, ih, renderTail_cons]
      simp

theorem appendCookie_render (es : List Entry) {d : Bytes} (hd : Dangling d) (c : Cookie) :
    appendCookie c.text (render es ++ d) = render (es ++ [⟨if es = [] then 0 else 1, c⟩]) := by
  unfold appendCookie
  dsimp only
  rw [rtrim_render es hd]
  cases es with
  | nil => simp [render, renderTail, spaces]
  | cons e es =>
      have hSome : render (e :: es) ≠ [] := by
        obtain ⟨s, x, hEq, -⟩ := render_stop (List.cons_ne_nil e es)
        rw [hEq]
        simp
      rw [if_neg hSome, if_neg (List.cons_ne_nil e es), List.cons_append, render, render,
        renderTail_append]
      simp [spaces, bytes]

/-! ## A text put into another -/

theorem tokens_render (b : List Entry) :
    tokens (render b) = b.map fun e => spaces e.gap ++ e.cookie.text := by
  have hLine : ∀ e : Entry, ch ';' ∉ spaces e.gap ++ e.cookie.text := by
    intro e hMem
    rcases List.mem_append.mp hMem with h | h
    · exact absurd (List.eq_of_mem_replicate h) (by decide)
    · exact e.cookie.text_line h
  have hSplit : ∀ (es : List Entry) (e : Entry), (spaces e.gap ++ (e.cookie.text ++ renderTail es)).splitOn
      (ch ';') = (e :: es).map fun e => spaces e.gap ++ e.cookie.text := by
    intro es
    induction es with
    | nil =>
        intro e
        rw [renderTail, List.append_nil, List.splitOn_eq_singleton (hLine e)]
        rfl
    | cons e' es ih =>
        intro e
        rw [renderTail_cons, ← List.append_assoc, List.splitOn_append_cons_self_of_not_mem (hLine e),
          ih e']
        rfl
  unfold tokens
  cases b with
  | nil => rfl
  | cons e es =>
      rw [render, hSplit, List.filter_eq_self]
      intro t ht
      obtain ⟨e', -, rfl⟩ := List.mem_map.mp ht
      have hNe := e'.cookie.text_ne
      simp [hNe]

theorem merge_render {b : List Entry} (hGaps : ∀ e ∈ b, e.gap ≤ 1) {a : List Entry}
    (hClear : AllClear (cookies b) a) :
    mergeEntries (b.map fun e => spaces e.gap ++ e.cookie.text) (render a)
      = some (render ((cookies b).foldl put a)) := by
  induction b generalizing a with
  | nil => rfl
  | cons e b ih =>
      have hEntry : (if (spaces e.gap ++ e.cookie.text).head? = some (ch ' ')
          then (spaces e.gap ++ e.cookie.text).tail else spaces e.gap ++ e.cookie.text)
          = e.cookie.text := by
        rcases Nat.le_one_iff_eq_zero_or_eq_one.mp (hGaps e List.mem_cons_self) with hGap | hGap
        · rw [hGap]
          exact if_neg e.cookie.text_start
        · rw [hGap]
          exact if_pos rfl
      have hRest : ∀ e' ∈ b, e'.gap ≤ 1 := fun e' he' => hGaps e' (List.mem_cons_of_mem _ he')
      rw [List.map_cons, mergeEntries, hEntry, if_neg e.cookie.text_ne]
      have hCookies : cookies (e :: b) = if isAttribute e.cookie.text then cookies b
          else e.cookie :: cookies b := by
        unfold cookies
        rw [List.map_cons, List.filter_cons]
        cases isAttribute e.cookie.text <;> rfl
      rw [hCookies] at hClear ⊢
      split_ifs at hClear ⊢ with hAttribute
      · exact ih hRest hClear
      · obtain ⟨hFirst, hLater⟩ := hClear
        obtain ⟨d, hd, hLeft⟩ := left_eq e.cookie.name a
        rw [e.cookie.nameOf_text, removeOld_render hFirst, hLeft]
        show mergeEntries _ (appendCookie e.cookie.text (render (remove e.cookie.name a) ++ d)) = _
        rw [appendCookie_render _ hd]
        exact ih hRest hLater

/-! ## One cookie of each name -/

theorem map_remove (name : Bytes) (es : List Entry) :
    (remove name es).map Entry.cookie = (es.map Entry.cookie).eraseP fun c => c.name = name := by
  induction es with
  | nil => rfl
  | cons e es ih =>
      unfold remove
      split_ifs with hName
      · rw [List.map_cons, List.eraseP_cons_of_pos (by simpa using hName)]
        cases es <;> rfl
      · rw [List.map_cons, List.map_cons, List.eraseP_cons_of_neg (by simpa using hName), ih]

/-- A cookie in a list of cookies. -/
def putCookie (cs : List Cookie) (c : Cookie) : List Cookie :=
  (cs.eraseP fun c' => c'.name = c.name) ++ [c]

theorem map_foldl_put (cs : List Cookie) (es : List Entry) :
    (cs.foldl put es).map Entry.cookie = cs.foldl putCookie (es.map Entry.cookie) := by
  induction cs generalizing es with
  | nil => rfl
  | cons c cs ih =>
      rw [List.foldl_cons, ih, List.foldl_cons]
      congr 1
      unfold put putCookie
      rw [List.map_append, map_remove]
      rfl

theorem find?_eraseP_of_ne {name name' : Bytes} (h : name' ≠ name) (cs : List Cookie) :
    (cs.eraseP fun c => c.name = name).find? (fun c => c.name = name')
      = cs.find? fun c => c.name = name' := by
  induction cs with
  | nil => rfl
  | cons c cs ih =>
      by_cases hName : c.name = name
      · rw [List.eraseP_cons_of_pos (by simpa using hName), List.find?_cons_of_neg]
        simpa [hName] using Ne.symm h
      · rw [List.eraseP_cons_of_neg (by simpa using hName), List.find?_cons, List.find?_cons, ih]

theorem notMem_eraseP (name : Bytes) {cs : List Cookie} (h : (cs.map Cookie.name).Nodup) :
    name ∉ (cs.eraseP fun c => c.name = name).map Cookie.name := by
  induction cs with
  | nil => exact List.not_mem_nil
  | cons c cs ih =>
      obtain ⟨hNew, hRest⟩ := List.nodup_cons.mp h
      by_cases hName : c.name = name
      · rw [List.eraseP_cons_of_pos (by simpa using hName), ← hName]
        exact hNew
      · rw [List.eraseP_cons_of_neg (by simpa using hName), List.map_cons, List.mem_cons]
        exact fun hOr => hOr.elim (fun hEq => hName hEq.symm) (ih hRest)

theorem once_putCookie {cs : List Cookie} (h : (cs.map Cookie.name).Nodup) (c : Cookie) :
    ((putCookie cs c).map Cookie.name).Nodup := by
  unfold putCookie
  rw [List.map_append]
  have hSub := (List.eraseP_sublist (p := fun c' : Cookie => decide (c'.name = c.name)) (l := cs)).map
    Cookie.name
  refine List.nodup_append.mpr ⟨h.sublist hSub, List.nodup_singleton _, fun n hn n' hn' => ?_⟩
  rintro rfl
  rw [List.map_singleton, List.mem_singleton] at hn'
  exact notMem_eraseP _ h (hn' ▸ hn)

theorem find?_putCookie {cs : List Cookie} (h : (cs.map Cookie.name).Nodup) (c : Cookie)
    (name : Bytes) : (putCookie cs c).find? (fun c' => c'.name = name)
      = ([c].find? fun c' => c'.name = name).or (cs.find? fun c' => c'.name = name) := by
  unfold putCookie
  rw [List.find?_append]
  by_cases hName : c.name = name
  · have hGone : (cs.eraseP fun c' => c'.name = c.name).find? (fun c' => c'.name = name) = none := by
      rw [List.find?_eq_none]
      intro c' hc' hEq
      have hNot := notMem_eraseP c.name h
      exact hNot (List.mem_map.mpr ⟨c', hc', (of_decide_eq_true hEq).trans hName.symm⟩)
    rw [hGone, List.find?_cons_of_pos (by simpa using hName)]
    rfl
  · rw [find?_eraseP_of_ne (Ne.symm hName), List.find?_cons_of_neg (by simpa using hName)]
    simp

theorem oneEach_foldl (cs : List Cookie) {all : List Cookie} (h : (all.map Cookie.name).Nodup) :
    OneEach all cs (cs.foldl putCookie all) := by
  induction cs generalizing all with
  | nil => exact ⟨h, fun name => by simp⟩
  | cons c cs ih =>
      obtain ⟨hOnce, hValues⟩ := ih (once_putCookie h c)
      refine ⟨hOnce, fun name => ?_⟩
      rw [List.foldl_cons, hValues, find?_putCookie h, List.reverse_cons, List.find?_append,
        Option.or_assoc]

/-- Two texts make one with each name once, if the names of the first differ, the second has at
most one space before a cookie, and no search passes a cookie that it does not see. -/
theorem cookieMerge_oneEach {a b : List Entry} (hNames : ((a.map Entry.cookie).map Cookie.name).Nodup)
    (hGaps : ∀ e ∈ b, e.gap ≤ 1) (hClear : AllClear (cookies b) a) :
    ∃ result, cookieMerge (render a) (render b) = some (render result)
      ∧ OneEach (a.map Entry.cookie) (cookies b) (result.map Entry.cookie) := by
  refine ⟨(cookies b).foldl put a, ?_, ?_⟩
  · unfold cookieMerge
    rw [tokens_render]
    exact merge_render hGaps hClear
  · rw [map_foldl_put]
    exact oneEach_foldl (cookies b) hNames

def cookieA : Cookie := ⟨bytes "a", bytes "1", by decide, by decide, by decide, by decide, by decide,
  by decide⟩

def cookieB (value : UInt8) (h : ch ';' ∉ [value] ∧ value ≠ ch ' ') : Cookie :=
  ⟨bytes "b", [value], by decide, by decide, by decide, by decide, h.1, by simpa using h.2⟩

/-- `b=3` is put into `a=1; b=2`. -/
theorem cookieMerge_oneEach_two : ∃ result,
    cookieMerge (bytes "a=1; b=2") (bytes "b=3") = some (render result)
      ∧ OneEach [cookieA, cookieB (ch '2') (by decide)] [cookieB (ch '3') (by decide)]
        (result.map Entry.cookie) :=
  cookieMerge_oneEach (a := [⟨0, cookieA⟩, ⟨1, cookieB (ch '2') (by decide)⟩])
    (b := [⟨0, cookieB (ch '3') (by decide)⟩]) (by decide) (by decide)
    ⟨fun _ hNe => absurd rfl hNe, trivial⟩

/-- A cookie that is cut by such a search may be mended by those that come after it. -/
example : cookieMerge (bytes "a=1;xb=2;c=3") (bytes "b=4; c=5; a=7; xb=6; b=8")
    = some (bytes "c=5; a=7; xb=6; b=8") := by decide +kernel

/-- The names in a text. -/
theorem names_render (es : List Entry) : (tokens (render es)).map (fun t =>
    nameOf (t.dropWhile (· = ch ' '))) = (es.map Entry.cookie).map fun c => some c.name := by
  rw [tokens_render, List.map_map, List.map_map]
  refine List.map_congr_left fun e _ => ?_
  have hDrop : (spaces e.gap ++ e.cookie.text).dropWhile (· = ch ' ') = e.cookie.text := by
    rw [List.dropWhile_append_of_pos fun x hx => decide_eq_true (List.eq_of_mem_replicate hx)]
    have hStart := e.cookie.text_start
    cases hText : e.cookie.text with
    | nil => rfl
    | cons x t =>
        rw [hText] at hStart
        exact List.dropWhile_cons_of_neg fun hx => hStart (congrArg some (of_decide_eq_true hx))
  show nameOf _ = _
  rw [hDrop]
  exact e.cookie.nameOf_text

/-- Without a space after the semicolon the old `b` is not found. -/
theorem not_oneEach_bare : ¬ ∀ a b : List Entry, ((a.map Entry.cookie).map Cookie.name).Nodup →
    (∀ e ∈ b, e.gap ≤ 1) → ∃ result, cookieMerge (render a) (render b) = some (render result)
      ∧ OneEach (a.map Entry.cookie) (cookies b) (result.map Entry.cookie) := by
  intro h
  obtain ⟨result, hMerge, hOnce, -⟩ := h [⟨0, cookieA⟩, ⟨0, cookieB (ch '2') (by decide)⟩]
    [⟨0, cookieB (ch '3') (by decide)⟩] (by decide) (by decide)
  have hText : cookieMerge (bytes "a=1;b=2") (bytes "b=3") = some (bytes "a=1;b=2; b=3") := by
    decide +kernel
  have hResult : render result = bytes "a=1;b=2; b=3" :=
    Option.some.inj (hMerge.symm.trans hText)
  have hNames := names_render result
  rw [hResult] at hNames
  have hThree : (tokens (bytes "a=1;b=2; b=3")).map (fun t => nameOf (t.dropWhile (· = ch ' ')))
      = [some (bytes "a"), some (bytes "b"), some (bytes "b")] := by decide +kernel
  rw [hThree] at hNames
  have hSome : ((result.map Entry.cookie).map fun c => some c.name).Nodup := by
    have hInj := hOnce.map (Option.some_injective Bytes)
    rwa [List.map_map] at hInj
  rw [← hNames] at hSome
  exact absurd hSome (by decide)

end Lftp.Ports.Cookies
