import Lftp.Ports.HtmlInfo
import Lftp.Ports.PathOptimize

/-!
# HTML listings

A translation of `parse_html` as `Http::ParseLongList` calls it: all of the text is there, there is a
set of files, and there is no list to print. The text that a call may read is a window of the document,
and the byte behind the window can be seen.

There is no value where a call uses memory that nobody has written, or copies less than nothing.

* `fileInfo_fits`: no text of a record is longer than its array.
* `parseHtml_used_le`: no call goes beyond its window.
* `parseWindows_total`: the loop over the windows ends, whatever their size.
-/

namespace Lftp.Ports.HtmlDir

open Lftp.Verified
open Lftp.Ports.FtpListInfo (Tm addFile blankInfo chomp emptySet guessYear parseMonth parsePerms
  scanLong setName)
open Lftp.Ports.FileSets (FileInfo FileSet noDate)
open Lftp.Ports.HtmlText (beginsNoCase decodeAmps findValue isAlnum tokenEq)
open Lftp.Ports.Url (Names ParsedURL isAlpha urlEncode urlUnsafe)
open Lftp.Ports.UrlPassword (strstr)
open Lftp.Ports.PathOptimize (optimize)
open Lftp.Ports.PwdReply (toAsciiLower)

def nl : UInt8 := 10
def cr : UInt8 := 13
def lt : UInt8 := 60
def gt : UInt8 := 62
def slash : UInt8 := 47
def tilde : UInt8 := 126

/-! ## Lines -/

/-- Whether a newline before this text ends a line: it does not where a cell of a table begins. -/
def endsLine (scan : Bytes) : Bool :=
  scan.head?.any (· ≠ lt) || scan.length < 5
    || !(beginsNoCase (bytes "<td") scan || beginsNoCase (bytes "</td") scan)

/-- `real_eol`, with a bound for the loop. -/
def realEol : Nat → Bytes → Option Nat
  | 0, _ => none
  | fuel + 1, s =>
    match s.idxOf? nl with
    | none => none
    | some i =>
      let scan := (s.drop (i + 1)).dropWhile isSpace
      if endsLine scan then some i else (realEol fuel scan).map (· + (s.length - scan.length))

/-- The tags that end a line. -/
def breaks (rest : Bytes) : Bool :=
  tokenEq rest rest.length (bytes "br") || tokenEq rest rest.length (bytes "/tr")
    || tokenEq rest rest.length (bytes "tr")

/-- `less` and `more` of `find_eol`: a tag that is finished counts only when it ends a line. -/
def breakTag (s : Bytes) : Option (Nat × Option Nat) :=
  match s.idxOf? lt with
  | none => none
  | some less =>
    let rest := s.drop (less + 1)
    match rest.idxOf? gt with
    | none => some (less, none)
    | some k => if breaks rest then some (less, some (less + 1 + k)) else none

/-- `find_eol`, at the end of the text as well: where the line ends, and `eol_size`. -/
def findEol (s : Bytes) : Nat × Nat :=
  let tag := breakTag s
  let real := (realEol (s.length + 1) s).filter fun e => tag.all fun t => e ≤ t.1
  match real with
  | none =>
    match tag with
    | some (less, some more) => (less, more - less + 1)
    | _ => (s.length, 0)
  | some e => if 0 < e ∧ s[e - 1]? = some cr then (e - 1, 2) else (e, 1)

/-- `remove_tags`, where `since` is the text from the last `<` on. -/
def removeTags (out : Bytes) (since : Option Bytes) : Bytes → Bytes
  | [] => out ++ since.getD []
  | c :: s =>
    if c :: s = bytes "&nbsp;" then out ++ since.getD [] ++ bytes " "
    else if c = lt then removeTags (out ++ since.getD []) (some [c]) s
    else
      match since with
      | none => removeTags (out ++ [c]) none s
      | some t => if c = gt then removeTags out none s else removeTags out (some (t ++ [c])) s

/-! ## Tags -/

/-- A comment or a tag, where `rest` is behind the `<`: how much is passed by from the `<` on, or the
text of a tag that may have a link. -/
def markup (rest : Bytes) : Nat ⊕ Bytes :=
  if (bytes "!--").isPrefixOf rest then
    -- a comment
    if rest.length - 3 < 3 then .inl 0
    else
      match strstr (bytes "-->") (rest.drop 3) with
      | some i => .inl (1 + 3 + i + 3)
      -- unterminated comment
      | none => .inl (1 + rest.length)
  else
    match rest.idxOf? gt with
    | none => .inl (1 + rest.length)
    | some k =>
      if k < 2 ∨ rest.head? = some slash ∨ rest.head? = some (ch '!') then .inl (k + 2)
      else .inr (rest.take k)

/-- What a call finds: how much it passes by, or a tag that may have a link and the text before it. -/
inductive Piece
  | skip (used : Nat)
  | tag (before tag : Bytes)

/-- `parse_html` as far as the tag. -/
def piece (text : Bytes) : Piece :=
  let (eol, eolLen) := findEol text
  match text.idxOf? lt with
  | none => .skip (eol + eolLen)
  | some less =>
    if 0 < eol + eolLen ∧ eol < less then .skip (eol + eolLen)
    else
      match markup (text.drop (less + 1)) with
      | .inl used => .skip (less + used)
      | .inr tag => .tag (text.take less) tag

/-- `tag_list`: the tags and their attributes that may have a link. -/
def tagList : List (Bytes × Bytes) :=
  [("a", "href"), ("img", "src"), ("img", "href"), ("body", "background"), ("frame", "src"),
    ("iframe", "src"), ("fig", "src"), ("overlay", "src"), ("applet", "code"), ("script", "src"),
    ("source", "src"), ("embed", "src"), ("bgsound", "src"), ("area", "href"), ("img", "lowsrc"),
    ("input", "src"), ("layer", "src"), ("table", "background"), ("th", "background"),
    ("td", "background"), ("link", "href"), ("base", "href"), ("meta", "content")].map
    fun t => (bytes t.1, bytes t.2)

/-- Whether the tag is `name`; a name ends before the `>` at the latest. -/
def isTag (tag name : Bytes) : Bool := tokenEq (tag ++ [gt]) (tag.length + 1) name

/-- `tag_scan` and `link_target`. -/
def findLink (tag : Bytes) : Option ((Bytes × Bytes) × Bytes) :=
  tagList.findSome? fun t =>
    if isTag tag t.1 then (findValue (tag.drop t.1.length) t.2).map fun link => (t, link) else none

/-! ## Links -/

/-- What the calls use of other code. -/
structure Env where
  names : Names
  clock : FtpListInfo.Env
  parseProps : Bytes → Option FileSet

section Links

variable (env : Env) (pref : ParsedURL)

/-- `url::path_index` -/
def pathIndex (base : Bytes) : Nat :=
  let scan := base.dropWhile isAlpha
  let proto := base.length - scan.length
  let slashFrom (s : Bytes) : Nat :=
    if slash ∈ s then base.length - s.length + s.idxOf slash else base.length
  if scan.head? ≠ some (ch ':') then 0
  else if (bytes "://").isPrefixOf scan then slashFrom (scan.drop 3)
  else if (bytes "file:").isPrefixOf base then proto + 1
  else if ((bytes "slot:").isPrefixOf base && env.names.validSlot (scan.drop 1))
      || ((bytes "bm:").isPrefixOf base && env.names.validBm (scan.drop 1)) then
    slashFrom (scan.drop 1)
  else 0

/-- `prefix_proto`: `hftp` is `ftp` here. -/
def prefixProto : Option Bytes :=
  if pref.proto = some (bytes "hftp") then some (bytes "ftp") else pref.proto

def isFtp : Bool := prefixProto pref = some (bytes "ftp")

/-- The protocol is inherited when it is omitted. -/
def inheritProto (link : Bytes) : Bytes :=
  match pref.proto with
  | none => link
  | some proto =>
    if (bytes "//").isPrefixOf link then urlEncode urlUnsafe false proto ++ ch ':' :: link else link

/-- Workaround for proxy bugs. -/
def fixProxy (link : Bytes) : Bytes :=
  let link :=
    match strstr (bytes ";type=") (cstr link) with
    | none => link
    | some t =>
      let behind := (cstr link).drop (t + 6)
      if behind.length = 2 ∧ behind[1]? = some slash then link.take t else link
  let p := pathIndex env (cstr link)
  if link[p]? = some slash ∧ link[p + 1]? = some slash then
    link.take (p + 1) ++ bytes "%2F" ++ link.drop (p + 2)
  else link

/-- The target of a `META` tag, behind `0; URL=`. That it begins with a quote cannot be. -/
def metaTarget (content : Bytes) : Option Bytes :=
  match (content.rdropWhile (· = ch ' ')).dropWhile isDigit with
  | [] => none
  | c :: scan =>
    let scan := scan.dropWhile isSpace
    if c = ch ';' ∧ beginsNoCase (bytes "URL=") scan then some (scan.drop 4) else none

/-- `xstrcmp` of two texts that may be null. -/
def sameText (a b : Option Bytes) : Bool := a.map cstr = b.map cstr

/-- `base_href` in front of a relative target, when it has a slash. -/
def applyBase (base : Option Bytes) (target : Bytes) : Option Bytes :=
  match base with
  | none => none
  | some b =>
    if target.head? ≠ some slash then
      (splitLast slash b).map fun (dir, _) => dir ++ slash :: target
    else none

/-- Whether a target without a protocol is a special one, like `mailto:`. -/
def isSpecial (target : Bytes) : Bool :=
  let scan := target.dropWhile isAlpha
  scan.length < target.length && scan.head? = some (ch ':')

/-- From `parse_url_again` on: the path of a good link. `again` when the base was not applied. -/
def linkPath (base : Option Bytes) : Bool → Bytes → Option Bytes
  | again, target =>
    let url := Url.parse env.names true true (cstr target)
    let path := url.path.getD (bytes "/")
    match url.proto with
    | some proto =>
      if sameText (some proto) (prefixProto pref) && sameText url.host pref.host
          && sameText url.user pref.user && sameText url.port pref.port then
        some path
      else none
    | none =>
      if isSpecial (cstr target) then none
      else
        match again, applyBase base target with
        | true, some target => linkPath base false target
        | _, _ => some path
termination_by again => if again then 1 else 0

/-- The target in the directory of the listing. -/
def relative (target : Bytes) : Bytes :=
  let path := cstr (pref.path.getD (bytes "~"))
  let path := if 1 < path.length then chomp slash path else path
  if path = [slash] ∧ target.head? = some slash then
    -- strip leading slash
    if 1 < target.length then target.drop 1 else target
  else if path ≠ [] ∧ path.isPrefixOf target then
    let target :=
      if target[path.length]? = some slash then target.drop (path.length + 1)
      else if target.length = path.length then bytes "."
      else target
    if (bytes "./").isPrefixOf target then target.drop 2 else target
  else
    match splitLast slash path with
    | none => target
    | some (dir, _) => if dir ≠ [] ∧ target = dir then bytes ".." else target

/-- A link that is an FTP type of a file, with no list of links: it is left out. -/
def hasType (target : Bytes) : Bool :=
  (strstr (bytes ";type=") target).any fun t => target.length = t + 7

/-- What a tag gives: nothing, a new base, or a file, which has information only in an `a href`. -/
inductive Found
  | nothing
  | base (href : Bytes)
  | file (target : Bytes) (isDirectory aHref : Bool)

/-- A link from its path on. A `%00` ends it here. -/
def foundFile (aHref : Bool) (path : Bytes) : Found :=
  let target := cstr path
  -- workaround for apache proxy
  let target := if (bytes "//").isPrefixOf target && isFtp pref then target.drop 1 else target
  let isDirectory : Bool := target.getLast? = some slash
  let target := if 1 < target.length then chomp slash target else target
  let target := optimize target (if (bytes "/~").isPrefixOf target then 1 else 0)
  let target := relative pref target
  if hasType target then .nothing
  else if target = [] then .file (bytes ".") true aHref
  else .file target isDirectory aHref

/-- From the comment "check if the target is a relative and not a cgi" on. -/
def foundLink (base : Option Bytes) (t : Bytes × Bytes) (target : Bytes) : Found :=
  if ch '?' ∈ cstr target then .nothing
  else
    let target := target.takeWhile (· ≠ ch '#')
    let icon : Bool := t.1 = bytes "img" && t.2 = bytes "src"
    if target = [] then .nothing
    else if icon && beginsNoCase (bytes "internal-gopher") target then .nothing
    else
      let target := if (bytes "/~").isPrefixOf target then target.drop 1 else target
      match linkPath env pref base true target with
      | none => .nothing
      | some path => foundFile pref (t.1 = bytes "a" && t.2 = bytes "href") path

/-- What a tag gives; an empty target is read past its end. -/
def found (base : Option Bytes) (tag : Bytes) : Option Found :=
  match findLink tag with
  | none => some .nothing
  | some (t, link) =>
    (decodeAmps link).map fun link =>
      let link := inheritProto pref link
      let link := if isFtp pref then fixProxy env link else link
      if t.1 = bytes "base" then .base (cstr link)
      else if t.1 = bytes "meta" then
        match metaTarget link with
        | none => .nothing
        | some target => foundLink env pref base t target
      else foundLink env pref base t link

end Links

/-! ## The line of a link -/

/-- The line behind an anchor. `anchor` is the text behind the tag as far as `more1`, `text` the
line, and `used` tells where the next line begins behind the tag. -/
structure Line where
  anchor : Bytes
  text : Bytes
  used : Nat
deriving DecidableEq

/-- The index of the `>` of the next `</a>`, from `more1` on. -/
def anchorEnd (s : Bytes) : Option Nat :=
  (strstr (bytes "</a>") (s.map toAsciiLower)).map (· + 3)

/-- Bullets before the line. -/
def skipDots : Bytes → Bytes
  | a :: b :: c :: s => if a = ch '.' ∧ b = ch ' ' then skipDots (c :: s) else a :: b :: c :: s
  | s => s

/-- From `find_a_end` on, where `pos` is behind `more1`. No line when there is no `</a>`; no value when
the line ends before it begins. -/
def lineAt (tag behind : Bytes) (beyond : UInt8) : Nat → Nat → Option (Option Line)
  | 0, _ => some none
  | fuel + 1, pos =>
    match anchorEnd (behind.drop pos) with
    | none => some none
    | some i =>
      let more := pos + i
      let rest := behind.drop (more + 1)
      let (eol, eolLen) := findEol rest
      -- little workaround for squid's ftp listings
      if rest.head? = some (ch ' ') ∧ tag.length + 10 < eol
          ∧ cstr ((rest.drop 1).take (tag.length + 2)) = cstr (lt :: (tag ++ [gt])) then
        lineAt tag behind beyond fuel (more + tag.length + 4)
      else if rest = [] ∧ beyond = ch ' ' then none
      else
        let line := rest.take eol
        let text := skipDots (if line.head? = some (ch ' ') then line.drop 1 else line)
        some (some ⟨behind.take (more + (line.length - text.length) - 3), text,
          more + 1 + eol + eolLen⟩)

/-! ## File information -/

/-- The formats in their order, and whether the rest of the line is skipped. -/
def formats (before : Bytes) (line : Line) : List (Format × Bool) :=
  let str := removeTags [] none (cstr line.text)
  [(tryApacheListing str, false), (tryApacheListingIso str, false),
    (tryApacheListingUnusual str, false), (tryNetscapeProxy str, false), (trySquidEplf str, true),
    (tryLighttpdListing line.text, false), (tryMiniProxy str, false),
    (tryApacheUnixlike str line.anchor, false), (tryRoxen str, false),
    (trySquidFtp str line.text, true), (tryWwwoffleFtp (cstr before) str, true),
    (tryCsmProxy str, false)]

/-- The first format that matches and is valid. What the formats before it leave in the record
stays, and so does what the last one leaves. -/
def firstMatch : List (Format × Bool) → Info → Option (Info × Option Bool)
  | [], info => some (info, none)
  | (format, skips) :: rest, info =>
    match format info with
    | none => none
    | some (false, info) => firstMatch rest info
    | some (true, info) =>
      if info.validate.1 then some (info.validate.2, some skips)
      else firstMatch rest info.validate.2

/-- From `got_info` on. -/
def Info.finish (env : Env) (info : Info) : Info :=
  let info :=
    if info.month = -1 then { info with month := (parseMonth info.monthName).getD (-1) } else info
  let info :=
    if 0 ≤ info.month ∧ info.year = -1 then
      { info with year := guessYear env.clock info.month info.day }
    else info
  let info :=
    if info.year ≠ -1 ∧ info.month ≠ -1 ∧ info.day ≠ -1 then
      let (hour, minute, second, prec) : Int × Int × Int × Int :=
        if info.hour ≠ -1 ∧ info.minute ≠ -1 then
          if info.second ≠ -1 then (info.hour, info.minute, info.second, 0)
          else (info.hour, info.minute, 30, 30)
        else (12, 0, 0, 43200)
      { info with
        date := env.clock.mktimeFromUtc
          ⟨second, minute, hour, info.day, info.month, info.year - 1900, 0⟩
        datePrec := prec }
    else info
  let info :=
    if info.size = -1 ∧ info.sizeStr.all isDigit then
      { info with size := ((scanLong info.sizeStr).map Prod.fst).getD 0 }
    else info
  if info.perms = [] then
    { info with perms :=
        if info.isDirectory then bytes "drwxr-xr-x"
        else if info.isSymLink then bytes "lrwxrwxrwx"
        else bytes "-rw-r--r--" }
  else info

/-- From `info_done` on: the file that is added. -/
def fileOf (target : Bytes) (info : Info) : Option FileInfo :=
  if target.head? = some slash ∨ target.head? = some tilde then none
  else
    let isDirectory : Bool := info.isDirectory || slash ∈ target
    let fi := setName blankInfo (target.takeWhile (· ≠ slash))
    let fi :=
      match info.symLink with
      | some symLink => fi.setSymlink (some symLink)
      | none => fi.setType (if isDirectory then .directory else .normal)
    let fi := if 0 < info.nlink then fi.setNlink info.nlink else fi
    let fi := if info.user ≠ [] then fi.setUser (some info.user) else fi
    let fi := if info.group ≠ [] then fi.setGroup (some info.group) else fi
    let fi := if info.size ≠ -1 then fi.setSize info.size else fi
    let fi :=
      match parsePerms (info.perms.drop 1) with
      | some mode => fi.setMode mode
      | none => fi
    some (if info.datePrec ≠ -1 ∧ info.date ≠ noDate then fi.setDate info.date info.datePrec
      else fi)

/-! ## The parser -/

/-- What a call gives: how much it has used, `base_href` and the file. -/
structure Step where
  used : Nat
  base : Option Bytes
  file : Option FileInfo

section Parser

variable (env : Env) (pref : ParsedURL)

/-- What a tag gives, where `size` bytes are used up to its end. -/
def parseTag (base : Option Bytes) (before tag behind : Bytes) (beyond : UInt8) : Option Step :=
  let used := before.length + tag.length + 2
  match found env pref base tag with
  | none => none
  | some .nothing => some ⟨used, base, none⟩
  | some (.base href) => some ⟨used, some href, none⟩
  | some (.file target isDirectory aHref) =>
    let info := Info.new isDirectory
    if !aHref then some ⟨used, base, fileOf target info⟩
    else
      match lineAt tag behind beyond (behind.length + 1) 0 with
      | none => none
      | some none => some ⟨used, base, fileOf target info⟩
      | some (some line) =>
        match firstMatch (formats before line) info with
        | none => none
        | some (info, none) => some ⟨used, base, fileOf target info⟩
        | some (info, some skips) =>
          some ⟨if skips then used + line.used else used, base, fileOf target (info.finish env)⟩

/-- `parse_html` on the window `text`, where `beyond` is the byte behind it. -/
def parseHtml (base : Option Bytes) (text : Bytes) (beyond : UInt8) : Option Step :=
  match piece text with
  | .skip used => some ⟨used, base, none⟩
  | .tag before tag =>
    parseTag env pref base before tag (text.drop (before.length + tag.length + 2)) beyond

/-- The variables of the loop of `ParseLongList`: what is left of the document, the set, and
`base_href`. -/
structure State where
  rest : Bytes
  set : FileSet
  base : Option Bytes

/-- What a call does to the variables; the loop ends when it uses nothing. -/
def advance (s : State) : Option Step → State ⊕ Option FileSet
  | none => .inr none
  | some step =>
    if step.used = 0 then .inr (some s.set)
    else .inl ⟨s.rest.drop step.used, step.file.elim s.set (addFile s.set), step.base⟩

/-- A turn, where `window` is how much of what is left is given to `parse_html`. The document ends with
a NUL. -/
def turn (window : Nat → Nat) (s : State) : State ⊕ Option FileSet :=
  let size := window s.rest.length
  advance s (parseHtml env pref s.base (s.rest.take size) ((s.rest[size]?).getD 0))

/-- `clen` -/
def clen (len : Nat) : Nat := if 1000 < len then 1000 else len

/-- `ParseLongList` with windows of any size. -/
def parseWindows (window : Nat → Nat) (doc : Bytes) : Option (Option FileSet) :=
  let props := if 5 < doc.length ∧ (bytes "<?xml").isPrefixOf doc then env.parseProps doc else none
  let set := props.getD emptySet
  if set.files ≠ [] then some (some set)
  else loop (turn env pref window) (doc.length + 1) ⟨doc, set, none⟩

/-- `Http::ParseLongList` -/
def parseLongList (doc : Bytes) : Option (Option FileSet) := parseWindows env pref clen doc

end Parser

/-! ## Records that fit -/

theorem formats_safe (before : Bytes) (line : Line) : ∀ p ∈ formats before line, p.1.Safe := by
  intro p hp
  simp only [formats, List.mem_cons, List.not_mem_nil, or_false] at hp
  rcases hp with rfl | rfl | rfl | rfl | rfl | rfl | rfl | rfl | rfl | rfl | rfl | rfl
  · exact tryApacheListing_safe _
  · exact tryApacheListingIso_safe _
  · exact tryApacheListingUnusual_safe _
  · exact tryNetscapeProxy_safe _
  · exact trySquidEplf_safe _
  · exact tryLighttpdListing_safe _
  · exact tryMiniProxy_safe _
  · exact tryLs_safe _ _
  · exact tryRoxen_safe _
  · exact trySquidFtp_safe _ _
  · exact tryLs_safe _ _
  · exact tryCsmProxy_safe _

theorem firstMatch_fits {l : List (Format × Bool)} (hSafe : ∀ p ∈ l, p.1.Safe) {info info' : Info}
    {taken : Option Bool} (h : firstMatch l info = some (info', taken)) (hFits : info.Fits) :
    info'.Fits ∧ (taken.isSome = true → info'.Dated) := by
  induction l generalizing info with
  | nil =>
      cases h
      exact ⟨hFits, nofun⟩
  | cons p rest ih =>
      obtain ⟨format, skips⟩ := p
      have hRest := fun q hq => hSafe q (List.mem_cons_of_mem _ hq)
      rw [firstMatch] at h
      cases hFormat : format info with
      | none =>
          rw [hFormat] at h
          cases h
      | some r =>
          obtain ⟨matched, left⟩ := r
          have hLeft := hSafe _ List.mem_cons_self info matched left hFormat
          rw [hFormat] at h
          cases matched with
          | false => exact ih hRest h hLeft
          | true =>
              dsimp only at h
              by_cases hValid : left.validate.1 = true
              · rw [if_pos hValid] at h
                cases h
                exact ⟨hLeft.validate, fun _ => Info.dated_validate hValid⟩
              · rw [if_neg hValid] at h
                exact ih hRest h hLeft.validate

theorem Info.Fits.finish {info : Info} (h : info.Fits) (env : Env) : (info.finish env).Fits := by
  unfold Info.finish
  extract_lets named dated timed sized
  have hNamed : named.Fits := by
    unfold named
    split <;> exact h
  have hDated : dated.Fits := by
    unfold dated
    split <;> exact hNamed
  have hTimed : timed.Fits := by
    unfold timed
    split <;> exact hDated
  have hSized : sized.Fits := by
    unfold sized
    split <;> exact hTimed
  split
  · refine ⟨hSized.1, hSized.2.1, ?_, hSized.2.2.2⟩
    dsimp only
    split
    · decide
    · split <;> decide
  · exact hSized

section Pieces

variable {s t u v y tag before : Bytes} {n e k : Nat}

/-- What is behind a byte. -/
theorem drop_next (t : Bytes) (c : UInt8) (u : Bytes) : (t ++ c :: u).drop (t.length + 1) = u := by
  rw [← List.drop_drop, List.drop_left]
  rfl

theorem realEol_nl (h : realEol n s = some e) : s[e]? = some nl := by
  induction n generalizing s e with
  | zero => cases h
  | succ n ih =>
      rw [realEol] at h
      cases hFind : s.idxOf? nl with
      | none =>
          rw [hFind] at h
          cases h
      | some i =>
          obtain ⟨line, rest, rfl, -, rfl⟩ := exists_line hFind
          rw [hFind] at h
          dsimp only at h
          rw [drop_next] at h
          by_cases hEnds : endsLine (rest.dropWhile isSpace) = true
          · rw [if_pos hEnds] at h
            cases h
            rw [List.getElem?_append_right (Nat.le_refl _), Nat.sub_self]
            rfl
          · rw [if_neg hEnds] at h
            obtain ⟨e', he', rfl⟩ := Option.map_eq_some_iff.mp h
            obtain ⟨spaces, hSplit⟩ : ∃ spaces, rest = spaces ++ rest.dropWhile isSpace :=
              ⟨rest.takeWhile isSpace, (List.takeWhile_append_dropWhile).symm⟩
            have hAt := ih he'
            generalize rest.dropWhile isSpace = scan at hSplit hAt
            subst hSplit
            have hPlace : e' + ((line ++ nl :: (spaces ++ scan)).length - scan.length)
                = (line ++ nl :: spaces).length + e' := by
              simp only [List.length_append, List.length_cons]
              omega
            have hText : line ++ nl :: (spaces ++ scan) = (line ++ nl :: spaces) ++ scan := by simp
            rw [hPlace, hText, List.getElem?_append_right (Nat.le_add_right _ _),
              Nat.add_sub_cancel_left]
            exact hAt

/-- A line of a text without a tag. -/
def lineLength (t : Bytes) : Nat := (t.idxOf? nl).elim t.length (· + 1)

/-- Whether a line ends in the text before a tag. -/
def endsBefore (t u : Bytes) : Bool :=
  (t.idxOf? nl).any fun i => endsLine ((t.drop (i + 1) ++ lt :: u).dropWhile isSpace)

theorem endsLine_of_notMem (h : lt ∉ s) : endsLine s = true := by
  cases s with
  | nil => rfl
  | cons c s =>
      have hc : c ≠ lt := fun hEq => h (hEq ▸ List.mem_cons_self)
      simp [endsLine, hc]

theorem realEol_text (h : lt ∉ s) (n : Nat) : realEol (n + 1) s = s.idxOf? nl := by
  rw [realEol]
  cases s.idxOf? nl with
  | none => rfl
  | some i =>
      have hScan : lt ∉ (s.drop (i + 1)).dropWhile isSpace := fun hMem =>
        h (List.mem_of_mem_drop ((List.dropWhile_sublist _).subset hMem))
      dsimp only
      rw [if_pos (endsLine_of_notMem hScan)]

theorem isSpace_lt : isSpace lt = false := by decide

/-- In front of a tag there are only spaces, when a newline before it ends no line. -/
theorem dropWhile_spaces (h : lt ∉ t) (hEnds : endsLine ((t ++ lt :: u).dropWhile isSpace) = false) :
    (t ++ lt :: u).dropWhile isSpace = lt :: u := by
  induction t with
  | nil =>
      rw [List.nil_append, List.dropWhile_cons_of_neg (by rw [isSpace_lt]; nofun)]
  | cons c t ih =>
      have hc : c ≠ lt := fun hEq => h (hEq ▸ List.mem_cons_self)
      cases hSpace : isSpace c with
      | true =>
          rw [List.cons_append, List.dropWhile_cons_of_pos hSpace] at hEnds ⊢
          exact ih (fun hMem => h (List.mem_cons_of_mem c hMem)) hEnds
      | false =>
          rw [List.cons_append, List.dropWhile_cons_of_neg (by rw [hSpace]; nofun)] at hEnds
          simp [endsLine, hc] at hEnds

/-- A line that ends before the tag is the first one. -/
theorem realEol_before (h : endsBefore t u = true) (n : Nat) :
    ∃ i, t.idxOf? nl = some i ∧ realEol (n + 1) (t ++ lt :: u) = some i := by
  unfold endsBefore at h
  cases hFind : t.idxOf? nl with
  | none =>
      rw [hFind] at h
      cases h
  | some i =>
      obtain ⟨line, rest, rfl, hLine, rfl⟩ := exists_line hFind
      rw [hFind] at h
      refine ⟨line.length, rfl, ?_⟩
      have hText : line ++ nl :: rest ++ lt :: u = line ++ nl :: (rest ++ lt :: u) := by simp
      have hEnds : endsLine ((rest ++ lt :: u).dropWhile isSpace) = true := by
        rw [← drop_next line nl rest]
        exact h
      rw [realEol, hText, idxOf?_line hLine]
      dsimp only
      rw [drop_next]
      exact if_pos hEnds

/-- No line ends before the tag. -/
theorem realEol_behind (ht : lt ∉ t) (h : endsBefore t u = false) (n : Nat) :
    ∀ e ∈ realEol n (t ++ lt :: u), t.length < e := by
  intro e he
  have hAt := realEol_nl he
  have hLe : t.length ≤ e := by
    cases n with
    | zero => cases he
    | succ n =>
        rw [Option.mem_def, realEol] at he
        cases hFind : t.idxOf? nl with
        | none =>
            have hNot : nl ∉ t := List.idxOf?_eq_none_iff.mp hFind
            by_contra hLess
            rw [List.getElem?_append_left (by omega)] at hAt
            exact hNot (List.mem_of_getElem? hAt)
        | some i =>
            obtain ⟨line, rest, rfl, hLine, rfl⟩ := exists_line hFind
            have hText : line ++ nl :: rest ++ lt :: u = line ++ nl :: (rest ++ lt :: u) := by simp
            have hEnds : endsLine ((rest ++ lt :: u).dropWhile isSpace) = false := by
              unfold endsBefore at h
              rw [hFind, Option.any_some, drop_next] at h
              exact h
            have hRest : lt ∉ rest := fun hMem =>
              ht (List.mem_append_right _ (List.mem_cons_of_mem nl hMem))
            rw [hText, idxOf?_line hLine] at he
            dsimp only at he
            rw [drop_next, if_neg (by rw [hEnds]; nofun), dropWhile_spaces hRest hEnds] at he
            obtain ⟨e', -, rfl⟩ := Option.map_eq_some_iff.mp he
            simp only [List.length_append, List.length_cons]
            omega
  rcases Nat.eq_or_lt_of_le hLe with rfl | hLt
  · rw [List.getElem?_append_right (Nat.le_refl _), Nat.sub_self] at hAt
    exact absurd (Option.some.inj hAt) (by decide)
  · exact hLt

/-- A text without a tag goes by line by line. -/
theorem piece_text (h : lt ∉ t) : piece t = .skip (lineLength t) := by
  have hNone : t.idxOf? lt = none := List.idxOf?_eq_none_iff.mpr h
  have hTag : breakTag t = none := by
    unfold breakTag
    rw [hNone]
  have hEol : (findEol t).1 + (findEol t).2 = lineLength t := by
    unfold findEol lineLength
    rw [hTag, realEol_text h]
    cases t.idxOf? nl with
    | none => rfl
    | some i =>
        show (if 0 < i ∧ t[i - 1]? = some cr then (i - 1, 2) else (i, 1)).1
          + (if 0 < i ∧ t[i - 1]? = some cr then (i - 1, 2) else (i, 1)).2 = i + 1
        by_cases hCr : 0 < i ∧ t[i - 1]? = some cr
        · rw [if_pos hCr]
          show i - 1 + 2 = i + 1
          omega
        · rw [if_neg hCr]
  unfold piece
  dsimp only
  rw [hNone, hEol]

theorem breakTag_append (ht : lt ∉ t) (u : Bytes) :
    breakTag (t ++ lt :: u) = none
      ∨ ∃ more, breakTag (t ++ lt :: u) = some (t.length, more) := by
  unfold breakTag
  rw [idxOf?_line ht]
  dsimp only
  cases ((t ++ lt :: u).drop (t.length + 1)).idxOf? gt with
  | none => exact .inr ⟨none, rfl⟩
  | some k =>
      dsimp only
      split
      · exact .inr ⟨_, rfl⟩
      · exact .inl rfl

/-- A line that ends before the tag goes by. -/
theorem piece_line (ht : lt ∉ t) (h : endsBefore t u = true) :
    piece (t ++ lt :: u) = .skip (lineLength t) := by
  obtain ⟨i, hFind, hReal⟩ := realEol_before h ((t ++ lt :: u).length)
  obtain ⟨line, rest, hSplit, -, hLine⟩ := exists_line hFind
  have hLess : i < t.length := by
    rw [hSplit, ← hLine, List.length_append, List.length_cons]
    omega
  have hKept : (realEol ((t ++ lt :: u).length + 1) (t ++ lt :: u)).filter
      (fun e => (breakTag (t ++ lt :: u)).all fun p => e ≤ p.1) = some i := by
    rw [hReal]
    rcases breakTag_append ht u with hTag | ⟨more, hTag⟩
    · rw [hTag]
      rfl
    · rw [hTag]
      simp [Option.filter, Nat.le_of_lt hLess]
  have hEol : (findEol (t ++ lt :: u)).1 + (findEol (t ++ lt :: u)).2 = i + 1
      ∧ (findEol (t ++ lt :: u)).1 ≤ i := by
    unfold findEol
    dsimp only
    rw [hKept]
    dsimp only
    split
    · next hCr => exact ⟨by show i - 1 + 2 = i + 1; omega, Nat.sub_le _ _⟩
    · exact ⟨rfl, Nat.le_refl _⟩
  have hLength : lineLength t = i + 1 := by
    rw [lineLength, hFind]
    rfl
  unfold piece
  dsimp only
  rw [idxOf?_line ht]
  dsimp only
  rw [if_pos ⟨by omega, by omega⟩, hEol.1, hLength]

/-- A comment or a tag. -/
theorem piece_markup (ht : lt ∉ t) (h : endsBefore t u = false) :
    piece (t ++ lt :: u) = match markup u with
      | .inl used => .skip (t.length + used)
      | .inr tag => .tag t tag := by
  have hReal := realEol_behind ht h ((t ++ lt :: u).length + 1)
  have hEol : t.length ≤ (findEol (t ++ lt :: u)).1 := by
    unfold findEol
    dsimp only
    cases hKept : (realEol ((t ++ lt :: u).length + 1) (t ++ lt :: u)).filter
      (fun e => (breakTag (t ++ lt :: u)).all fun p => e ≤ p.1) with
    | none =>
        dsimp only
        rcases breakTag_append ht u with hTag | ⟨more, hTag⟩
        · rw [hTag]
          simp
        · rw [hTag]
          cases more with
          | none => simp
          | some more => exact Nat.le_refl _
    | some e =>
        have he : t.length < e := hReal e (Option.mem_def.mpr (Option.filter_eq_some_iff.mp hKept).1)
        dsimp only
        split
        · show t.length ≤ e - 1
          omega
        · exact Nat.le_of_lt he
  unfold piece
  dsimp only
  rw [idxOf?_line ht]
  dsimp only
  rw [if_neg (by omega), drop_next, List.take_left]

/-! ## Bounds -/

theorem realEol_lt (h : realEol n s = some e) : e < s.length :=
  (List.getElem?_eq_some_iff.mp (realEol_nl h)).1

/-- A line and its end are in the text. -/
theorem findEol_le (s : Bytes) : (findEol s).1 + (findEol s).2 ≤ s.length := by
  unfold findEol
  dsimp only
  cases hKept : (realEol (s.length + 1) s).filter
      (fun e => (breakTag s).all fun p => e ≤ p.1) with
  | none =>
      dsimp only
      cases hTag : breakTag s with
      | none => simp
      | some p =>
          obtain ⟨less, more⟩ := p
          cases more with
          | none => simp
          | some more =>
              unfold breakTag at hTag
              cases hLess : s.idxOf? lt with
              | none =>
                  rw [hLess] at hTag
                  cases hTag
              | some i =>
                  obtain ⟨before, u, rfl, -, rfl⟩ := exists_line hLess
                  rw [hLess] at hTag
                  dsimp only at hTag
                  rw [drop_next] at hTag
                  cases hMore : u.idxOf? gt with
                  | none =>
                      rw [hMore] at hTag
                      cases hTag
                  | some k =>
                      obtain ⟨tag, behind, rfl, -, rfl⟩ := exists_line hMore
                      rw [hMore] at hTag
                      dsimp only at hTag
                      split at hTag
                      · obtain ⟨rfl, hEq⟩ := Prod.mk.inj (Option.some.inj hTag)
                        obtain rfl := Option.some.inj hEq
                        simp only [List.length_append, List.length_cons]
                        omega
                      · cases hTag
  | some e =>
      have he := realEol_lt (Option.filter_eq_some_iff.mp hKept).1
      dsimp only
      split
      · show e - 1 + 2 ≤ s.length
        omega
      · exact he

theorem lineLength_le (t : Bytes) : lineLength t ≤ t.length := by
  unfold lineLength
  cases hFind : t.idxOf? nl with
  | none => exact Nat.le_refl _
  | some i =>
      obtain ⟨line, rest, rfl, -, rfl⟩ := exists_line hFind
      simp only [Option.elim_some, List.length_append, List.length_cons]
      omega

theorem strstr_le {needle : Bytes} {i : Nat} (h : strstr needle s = some i) :
    i + needle.length ≤ s.length := by
  obtain ⟨a, z, rfl, rfl, -⟩ := UrlPassword.strstr_eq_some h
  simp only [List.length_append]
  omega

theorem markup_inl (h : markup u = .inl n) : n ≤ u.length + 1 := by
  unfold markup at h
  split at h
  · split at h
    · cases h
      exact Nat.zero_le _
    · cases hFind : strstr (bytes "-->") (u.drop 3) with
      | none =>
          rw [hFind] at h
          cases h
          omega
      | some i =>
          have hLe := strstr_le hFind
          rw [hFind] at h
          cases h
          rw [List.length_drop, show (bytes "-->").length = 3 from rfl] at hLe
          omega
  · cases hFind : u.idxOf? gt with
    | none =>
        rw [hFind] at h
        cases h
        omega
    | some k =>
        obtain ⟨tag, behind, rfl, -, rfl⟩ := exists_line hFind
        rw [hFind] at h
        dsimp only at h
        split at h
        · cases h
          rw [List.length_append, List.length_cons]
          omega
        · cases h

theorem markup_inr (h : markup u = .inr tag) : ∃ behind, u = tag ++ gt :: behind ∧ gt ∉ tag := by
  unfold markup at h
  split at h
  · split at h
    · cases h
    · split at h <;> cases h
  · cases hFind : u.idxOf? gt with
    | none =>
        rw [hFind] at h
        cases h
    | some k =>
        obtain ⟨line, behind, rfl, hLine, rfl⟩ := exists_line hFind
        rw [hFind] at h
        dsimp only at h
        split at h
        · cases h
        · rw [List.take_left] at h
          cases h
          exact ⟨behind, rfl, hLine⟩

/-- A text has a tag, or it has none. -/
theorem text_or_markup (s : Bytes) : lt ∉ s ∨ ∃ t u, s = t ++ lt :: u ∧ lt ∉ t := by
  cases hFind : s.idxOf? lt with
  | none => exact .inl (List.idxOf?_eq_none_iff.mp hFind)
  | some i =>
      obtain ⟨t, u, rfl, ht, -⟩ := exists_line hFind
      exact .inr ⟨t, u, rfl, ht⟩

theorem piece_skip_le (h : piece s = .skip n) : n ≤ s.length := by
  rcases text_or_markup s with hText | ⟨t, u, rfl, ht⟩
  · rw [piece_text hText] at h
    cases h
    exact lineLength_le s
  · have hLine := lineLength_le t
    rw [List.length_append, List.length_cons]
    cases hEnds : endsBefore t u with
    | true =>
        rw [piece_line ht hEnds] at h
        cases h
        omega
    | false =>
        rw [piece_markup ht hEnds] at h
        cases hMarkup : markup u with
        | inl used =>
            have hUsed := markup_inl hMarkup
            rw [hMarkup] at h
            cases h
            omega
        | inr tag =>
            rw [hMarkup] at h
            cases h

/-- A tag that may have a link. -/
theorem piece_tag (h : piece s = .tag before tag) :
    ∃ behind, s = before ++ lt :: (tag ++ gt :: behind) := by
  rcases text_or_markup s with hText | ⟨t, u, rfl, ht⟩
  · rw [piece_text hText] at h
    cases h
  · cases hEnds : endsBefore t u with
    | true =>
        rw [piece_line ht hEnds] at h
        cases h
    | false =>
        rw [piece_markup ht hEnds] at h
        cases hMarkup : markup u with
        | inl used =>
            rw [hMarkup] at h
            cases h
        | inr text =>
            obtain ⟨behind, rfl, -⟩ := markup_inr hMarkup
            rw [hMarkup] at h
            cases h
            exact ⟨behind, rfl⟩

theorem anchorEnd_lt {i : Nat} (h : anchorEnd s = some i) : i < s.length := by
  obtain ⟨j, hFind, rfl⟩ := Option.map_eq_some_iff.mp h
  have hLe := strstr_le hFind
  rw [List.length_map, show (bytes "</a>").length = 4 from rfl] at hLe
  omega

/-- The next line begins in the text. -/
theorem lineAt_used_le {beyond : UInt8} {fuel pos : Nat} {line : Line}
    (h : lineAt tag y beyond fuel pos = some (some line)) : line.used ≤ y.length := by
  induction fuel generalizing pos with
  | zero => cases h
  | succ fuel ih =>
      rw [lineAt] at h
      cases hAnchor : anchorEnd (y.drop pos) with
      | none =>
          rw [hAnchor] at h
          cases h
      | some i =>
          have hLess := anchorEnd_lt hAnchor
          have hEol := findEol_le (y.drop (pos + i + 1))
          rw [List.length_drop] at hLess hEol
          rw [hAnchor] at h
          dsimp only at h
          split at h
          · exact ih h
          · split at h
            · cases h
            · cases h
              show pos + i + 1 + (findEol (y.drop (pos + i + 1))).1
                + (findEol (y.drop (pos + i + 1))).2 ≤ y.length
              omega

end Pieces

section Calls

variable {env : Env} {pref : ParsedURL} {base : Option Bytes} {text before tag behind : Bytes}
  {beyond : UInt8} {step : Step}

theorem parseTag_used_le (h : parseTag env pref base before tag behind beyond = some step) :
    step.used ≤ before.length + tag.length + 2 + behind.length := by
  unfold parseTag at h
  dsimp only at h
  split at h
  · cases h
  · cases h
    exact Nat.le_add_right _ _
  · cases h
    exact Nat.le_add_right _ _
  · split at h
    · cases h
      exact Nat.le_add_right _ _
    · split at h
      · cases h
      · cases h
        exact Nat.le_add_right _ _
      · next line hLine =>
        have hUsed := lineAt_used_le hLine
        split at h
        · cases h
        · cases h
          exact Nat.le_add_right _ _
        · next skips _ =>
          cases h
          show (if skips = true then _ else _) ≤ _
          split
          · omega
          · exact Nat.le_add_right _ _

/-- No call goes beyond its window. -/
theorem parseHtml_used_le (h : parseHtml env pref base text beyond = some step) :
    step.used ≤ text.length := by
  unfold parseHtml at h
  cases hPiece : piece text with
  | skip used =>
      rw [hPiece] at h
      cases h
      exact piece_skip_le hPiece
  | tag before tag =>
      obtain ⟨behind, rfl⟩ := piece_tag hPiece
      rw [hPiece] at h
      dsimp only at h
      have hDrop : (before ++ lt :: (tag ++ gt :: behind)).drop (before.length + tag.length + 2)
          = behind := by
        rw [show before.length + tag.length + 2 = before.length + (tag.length + 1 + 1) by omega,
          ← List.drop_drop, List.drop_left, List.drop_succ_cons, drop_next]
      have hUsed := parseTag_used_le h
      rw [hDrop] at hUsed
      simp only [List.length_append, List.length_cons]
      omega

/-- A turn ends the loop, or there is less to read. -/
theorem turn_shorter (window : Nat → Nat) (s : State) : (∃ r, turn env pref window s = .inr r)
    ∨ ∃ s', turn env pref window s = .inl s' ∧ s'.rest.length < s.rest.length := by
  unfold turn
  dsimp only
  cases hStep : parseHtml env pref s.base (s.rest.take (window s.rest.length))
      ((s.rest[window s.rest.length]?).getD 0) with
  | none => exact .inl ⟨none, rfl⟩
  | some step =>
      have hUsed := parseHtml_used_le hStep
      rw [List.length_take] at hUsed
      by_cases hZero : step.used = 0
      · exact .inl ⟨_, if_pos hZero⟩
      · refine .inr ⟨_, if_neg hZero, ?_⟩
        show (s.rest.drop step.used).length < s.rest.length
        rw [List.length_drop]
        omega

theorem loop_turn_total (env : Env) (pref : ParsedURL) (window : Nat → Nat) (s : State) :
    ∃ r, loop (turn env pref window) (s.rest.length + 1) s = some r := by
  have hTurn (s : State) : True → (∃ r, turn env pref window s = .inr r ∧ True)
      ∨ ∃ s', turn env pref window s = .inl s' ∧ True ∧ s'.rest.length < s.rest.length := by
    intro _
    rcases turn_shorter window s with ⟨r, hr⟩ | ⟨s', hs', hLess⟩
    · exact .inl ⟨r, hr, trivial⟩
    · exact .inr ⟨s', hs', trivial, hLess⟩
  obtain ⟨r, hLoop, -⟩ := loop_total (fun s : State => s.rest.length) hTurn trivial
    (Nat.lt_succ_self s.rest.length)
  exact ⟨r, hLoop⟩

/-- The loop ends, whatever the windows are. -/
theorem parseWindows_total (env : Env) (pref : ParsedURL) (window : Nat → Nat) (doc : Bytes) :
    ∃ r, parseWindows env pref window doc = some r := by
  unfold parseWindows
  dsimp only
  generalize Option.getD _ emptySet = set
  by_cases hSet : set.files ≠ []
  · exact ⟨_, if_pos hSet⟩
  · obtain ⟨r, hLoop⟩ := loop_turn_total env pref window ⟨doc, set, none⟩
    exact ⟨r, (if_neg hSet).trans hLoop⟩

end Calls

end Lftp.Ports.HtmlDir
