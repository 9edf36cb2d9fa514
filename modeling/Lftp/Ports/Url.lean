import Lftp.Verified.Percent

/-!
# URLs

A translation of `ParsedURL::parse` and `ParsedURL::CombineTo`, with the
encoding they use. A null string is `none`, any other the bytes before its
terminating zero. What the parser puts in place of a connection slot or a
bookmark, once it has read the name of one, is left out.

* `Survives` is what a URL needs for the parser to undo the combiner.
* `parse_combine` is what the parser makes of a combined URL without an `@` in
  its host, `pathAgain_iff` when the path comes back.
* `combine_undone_iff` puts them together.
-/

namespace Lftp.Ports.Url

open Lftp.Verified

/-! ## Encoding -/

/-- `c_isalpha`. -/
def isAlpha (c : UInt8) : Bool :=
  (65 ≤ c.toNat && c.toNat ≤ 90) || (97 ≤ c.toNat && c.toNat ≤ 122)

/-- `c_iscntrl`. -/
def isCntrl (c : UInt8) : Bool := c.toNat < 32 || c.toNat = 127

/-- `need_quote`, with `URL_ALLOW_8BIT` or without. -/
def needQuote (unsafe8 : Bytes) (allow8bit : Bool) (c : UInt8) : Bool :=
  isCntrl c || (!allow8bit && 128 ≤ c.toNat) || unsafe8.contains c

def urlUnsafe : Bytes := bytes " <>\"'%\x7b\x7d|\\^[]`"

def urlPathUnsafe : Bytes := urlUnsafe ++ bytes "#;?&+"
def urlHostUnsafe : Bytes := urlUnsafe ++ bytes ":/"
def urlPortUnsafe : Bytes := urlUnsafe ++ bytes "/"
def urlUserUnsafe : Bytes := urlUnsafe ++ bytes "/:@"
def urlPassUnsafe : Bytes := urlUnsafe ++ bytes "/:@"

/-- `xstring::append_url_encoded`. -/
def urlEncode (unsafe8 : Bytes) (allow8bit : Bool) (s : Bytes) : Bytes :=
  percentEncode (needQuote unsafe8 allow8bit) s

/-! ## The structure -/

structure ParsedURL where
  proto : Option Bytes
  user : Option Bytes
  pass : Option Bytes
  host : Option Bytes
  port : Option Bytes
  path : Option Bytes
deriving DecidableEq

/-- The functions that the two ask about names: `is_ipv6_address` (which is
`inet_pton`), `xtld_name_ok`, `valid_slot` and `valid_bm`. -/
structure Names where
  isIPv6Address : Bytes → Bool
  xtldNameOk : Bytes → Bool
  validSlot : Bytes → Bool
  validBm : Bytes → Bool

/-! ## Combining -/

/-- `host` as `CombineTo` writes it. -/
def hostText (env : Names) (host : Bytes) : Bytes :=
  if env.isIPv6Address host then ch '[' :: (host ++ [ch ']'])
  else urlEncode urlHostUnsafe (env.xtldNameOk host) host

/-- `path` as `CombineTo` writes it. -/
def pathText (home : Option Bytes) (useRfc1738 isFile isFtp : Bool) (path : Bytes) : Bytes :=
  if path = bytes "~" then []
  else
    (if path.head? ≠ some (ch '/') && !isFile then [ch '/'] else [])
      ++ if isFtp && useRfc1738 then
        -- some cruft for ftp urls
        if path.head? = some (ch '/') && home ≠ some (bytes "/") then
          bytes "/%2F" ++ urlEncode urlPathUnsafe false (path.drop 1)
        else if (bytes "~/").isPrefixOf path then
          urlEncode urlPathUnsafe false (path.drop 2)
        else urlEncode urlPathUnsafe false path
      else urlEncode urlPathUnsafe false path

/-- `user` and `pass` as `CombineTo` writes them. -/
def userText (user pass : Option Bytes) : Bytes :=
  match user with
  | none => []
  | some user =>
    urlEncode urlUserUnsafe false user
      ++ (match pass with
        | none => []
        | some pass => ch ':' :: urlEncode urlPassUnsafe false pass)
      ++ [ch '@']

/-- `port` as `CombineTo` writes it. -/
def portText (port : Option Bytes) : Bytes :=
  match port with
  | none => []
  | some port => ch ':' :: urlEncode urlPortUnsafe false port

/-- `ParsedURL::CombineTo`, into an empty string. -/
def combineTo (env : Names) (home : Option Bytes) (useRfc1738 : Bool) (u : ParsedURL) : Bytes :=
  let isFile := u.proto = some (bytes "file")
  let isFtp := u.proto = some (bytes "ftp") || u.proto = some (bytes "hftp")
  (match u.proto with
    | none => []
    | some proto => proto ++ if isFile then bytes ":" else bytes "://")
  ++ ((if isFile then []
    else
      userText u.user u.pass
        ++ ((match u.host with | none => [] | some host => hostText env host)
        ++ portText u.port))
  ++ (match u.path with
    | none => []
    | some path => pathText home useRfc1738 isFile isFtp path))

/-! ## Parsing -/

/-- The drive letter of `/c:/`, after the first slash. -/
def isDrive : Bytes → Bool
  | a :: b :: c :: _ => isAlpha a && b = ch ':' && c = ch '/'
  | _ => false

/-- `%2F` in either case. -/
def isEscapedSlash : Bytes → Bool
  | a :: b :: c :: _ => a = ch '%' && b = ch '2' && (c = ch 'F' || c = ch 'f')
  | _ => false

/-- The path, from the slash after the host on. -/
def parsePath (proto : Option Bytes) (useRfc1738 : Bool) : Bytes → Option Bytes
  | [] =>
    if proto = some (bytes "http") || proto = some (bytes "https") then some (bytes "/") else none
  | slash :: s =>
    if s.head? = some (ch '~') then some s
    else if (proto = some (bytes "ftp") || proto = some (bytes "ftps")
        || proto = some (bytes "hftp")) && useRfc1738 then
      -- special handling for ftp protocol
      if isEscapedSlash s then some s
      else if isDrive s then none
      else some (ch '~' :: slash :: s)
    else some (slash :: s)

/-- The user name and the password before the last `@`, and what follows it. -/
def parseUser (connect : Bytes) : Option Bytes × Option Bytes × Bytes :=
  match splitLast (ch '@') connect with
  | none => (none, none, connect)
  | some (name, rest) =>
    match name.dropWhile (· ≠ ch ':') with
    | [] => (some name, none, rest)
    | _ :: pass => (some (name.takeWhile (· ≠ ch ':')), some pass, rest)

/-- The host and the port. -/
def parseHost (base : Bytes) : Bytes × Option Bytes :=
  let (host, scan) :=
    if base.head? = some (ch '[') && base.contains (ch ']') then
      ((base.takeWhile (· ≠ ch ']')).drop 1, (base.dropWhile (· ≠ ch ']')).drop 1)
    else (base.takeWhile (· ≠ ch ':'), base.dropWhile (· ≠ ch ':'))
  match scan with
  | [] => (host, none)
  | c :: scan =>
    if c ≠ ch ':' then (host, none)
    else if scan.contains (ch ':') then (base, none)
    else (host, some scan)

/-- From the label `decode` on. -/
def decode (u : ParsedURL) : ParsedURL :=
  { u with
    user := u.user.map percentDecode
    pass := u.pass.map percentDecode
    host := u.host.map percentDecode
    path := u.path.map percentDecode }

/-- `connect`: the text before the path, without a colon at its end. -/
def trimColon (s : Bytes) : Bytes := if s.getLast? = some (ch ':') then s.dropLast else s

/-- After the protocol. -/
def parseConnect (proto : Option Bytes) (useRfc1738 : Bool) (base : Bytes) : ParsedURL :=
  let (user, pass, rest) := parseUser (trimColon (base.takeWhile (· ≠ ch '/')))
  let (host, port) := parseHost rest
  decode ⟨proto, user, pass, some host, port,
    parsePath proto useRfc1738 (base.dropWhile (· ≠ ch '/'))⟩

/-- `ParsedURL::parse`. -/
def parse (env : Names) (protoRequired useRfc1738 : Bool) (url : Bytes) : ParsedURL :=
  let proto := url.takeWhile isAlpha
  let scan := url.dropWhile isAlpha
  if (bytes "://").isPrefixOf scan then
    let base := scan.drop 3
    if proto = bytes "file" && base.head? = some (ch '/') then
      decode ⟨some proto, none, none, some (bytes "localhost"), none, some base⟩
    else parseConnect (some proto) useRfc1738 base
  else if scan.head? = some (ch ':') && (bytes "file:").isPrefixOf url then
    decode ⟨some proto, none, none, some (bytes "localhost"), none, some (scan.drop 1)⟩
  else if scan.head? = some (ch ':')
      && (((bytes "slot:").isPrefixOf url && env.validSlot (scan.drop 1))
        || ((bytes "bm:").isPrefixOf url && env.validBm (scan.drop 1))) then
    let base := scan.drop 1
    decode ⟨some proto, none, none, some (base.takeWhile (· ≠ ch '/')), none,
      if base.contains (ch '/') then some (base.dropWhile (· ≠ ch '/')) else none⟩
  else if protoRequired then decode ⟨none, none, none, none, none, some url⟩
  else parseConnect none useRfc1738 url

/-! ## What survives -/

/-- A URL of a network protocol: the protocol is a word, neither `file` nor a
name for something else, the port is a number, and the path is absolute or
starts with a tilde. -/
structure NetworkURL where
  proto : Bytes
  user : Option Bytes
  pass : Option Bytes
  host : Bytes
  port : Option Bytes
  path : Bytes
  proto_ne : proto ≠ []
  proto_alpha : ∀ c ∈ proto, isAlpha c = true
  proto_network : proto ≠ bytes "file" ∧ proto ≠ bytes "slot" ∧ proto ≠ bytes "bm"
  host_ne : host ≠ []
  port_digits : ∀ p ∈ port, p ≠ [] ∧ ∀ c ∈ p, isDigit c = true
  path_start : path.head? = some (ch '/') ∨ path.head? = some (ch '~')

/-- The URL as `ParsedURL` holds it. -/
def NetworkURL.parsed (u : NetworkURL) : ParsedURL :=
  ⟨some u.proto, u.user, u.pass, some u.host, u.port, some u.path⟩

/-- The path comes back. `CombineTo` leaves out ftps, which `parse` takes for an
ftp protocol; after `~/` it writes nothing that `parse` would tell from another
path by. -/
def PathSurvives (useRfc1738 : Bool) (proto path : Bytes) : Prop :=
  path ≠ bytes "~"
    ∧ if useRfc1738 = true ∧ (proto = bytes "ftp" ∨ proto = bytes "hftp") then
        (bytes "~/").isPrefixOf path = true →
          (path.drop 2).head? ≠ some (ch '~') ∧ isDrive (path.drop 2) = false
      else if useRfc1738 = true ∧ proto = bytes "ftps" then path.head? ≠ some (ch '/')
      else path.head? = some (ch '/') → (path.drop 1).head? ≠ some (ch '~')

/-- What the parser needs to undo the combiner. -/
def Survives (useRfc1738 : Bool) (u : NetworkURL) : Prop :=
  ch '@' ∉ u.host ∧ (u.pass.isSome = true → u.user.isSome = true)
    ∧ PathSurvives useRfc1738 u.proto u.path

/-! ## The text of a host -/

/-- The addresses that `inet_pton` accepts are made of these. -/
def AddressChar (c : UInt8) : Prop := isXDigit c = true ∨ c = ch ':' ∨ c = ch '.'

section

variable {env : Names} (hAddress : ∀ s, env.isIPv6Address s = true → ∀ c ∈ s, AddressChar c)

theorem delimiter_notMem_address {s : Bytes} (h : ∀ c ∈ s, AddressChar c) {d : UInt8}
    (hd : Delimiter d) (hColon : d ≠ ch ':') (hDot : d ≠ ch '.') : d ∉ s := by
  intro hMem
  rcases h d hMem with hHex | hd' | hd'
  · rw [hd.2] at hHex
    cases hHex
  · exact hColon hd'
  · exact hDot hd'

include hAddress in
/-- A delimiter is in the text of a host only when the host has it unquoted. -/
theorem notMem_hostText {d : UInt8} (hd : Delimiter d) (hColon : d ≠ ch ':') (hDot : d ≠ ch '.')
    (hOpen : d ≠ ch '[') (hClose : d ≠ ch ']') {host : Bytes}
    (hHost : d ∉ host ∨ d ∈ urlHostUnsafe) : d ∉ hostText env host := by
  unfold hostText
  cases hAddr : env.isIPv6Address host with
  | true =>
      rw [if_pos rfl, List.mem_cons, List.mem_append, List.mem_singleton, not_or, not_or]
      exact ⟨hOpen, delimiter_notMem_address (hAddress host hAddr) hd hColon hDot, hClose⟩
  | false =>
      rw [if_neg Bool.false_ne_true]
      intro hMem
      obtain ⟨hIn, hQuote⟩ := (mem_encode_iff hd host).mp hMem
      rcases hHost with h | h
      · exact h hIn
      · simp only [needQuote, Bool.or_eq_false_iff] at hQuote
        rw [List.contains_eq_mem, decide_eq_false_iff_not] at hQuote
        exact hQuote.2 h

theorem notMem_encode_of_mem {unsafe8 : Bytes} {d : UInt8} (hd : Delimiter d) (h : d ∈ unsafe8)
    (allow8bit : Bool) (s : Bytes) : d ∉ urlEncode unsafe8 allow8bit s := by
  apply notMem_encode hd
  simp only [needQuote, List.contains_eq_mem, decide_eq_true h, Bool.or_true]

end

/-! ## The path -/

theorem percentDecode_urlEncode_path (s : Bytes) :
    percentDecode (urlEncode urlPathUnsafe false s) = s :=
  percentDecode_encode (by decide) s

theorem not_needQuote_of_isAlpha {c : UInt8} (h : isAlpha c = true) :
    needQuote urlPathUnsafe false c = false := by
  have hSafe : ∀ x ∈ urlPathUnsafe, (!isAlpha x) = true := List.all_eq_true.mp rfl
  have hNotIn : c ∉ urlPathUnsafe := by
    intro hc
    simpa [h] using hSafe c hc
  simp only [isAlpha, Bool.or_eq_true, Bool.and_eq_true, decide_eq_true_eq] at h
  simp only [needQuote, isCntrl, List.contains_eq_mem, decide_eq_false hNotIn, Bool.or_false,
    Bool.not_false, Bool.true_and, Bool.or_eq_false_iff, decide_eq_false_iff_not]
  omega

theorem urlEncode_path_cons {c : UInt8} (h : needQuote urlPathUnsafe false c = false) (s : Bytes) :
    urlEncode urlPathUnsafe false (c :: s) = c :: urlEncode urlPathUnsafe false s :=
  percentEncode_cons_of_not h s

/-- An escape of a slash is one of a slash. -/
theorem eq_slash_of_isEscapedSlash {c : UInt8} {s : Bytes}
    (h : isEscapedSlash (percentByte c ++ s) = true) : c = ch '/' := by
  have hHigh : ∀ n < 16, upperHex n = ch '2' → n = 2 := by decide
  have hLow : ∀ n < 16, upperHex n = ch 'F' ∨ upperHex n = ch 'f' → n = 15 := by decide
  have hc := c.toNat_lt
  change (decide (ch '%' = ch '%') && decide (upperHex (c.toNat / 16) = ch '2')
    && (decide (upperHex (c.toNat % 16) = ch 'F') || decide (upperHex (c.toNat % 16) = ch 'f')))
      = true at h
  simp only [Bool.and_eq_true, Bool.or_eq_true, decide_eq_true_eq] at h
  have hTwo := hHigh _ (by omega) h.1.2
  have hFifteen := hLow _ (by omega) h.2
  apply UInt8.toNat_inj.mp
  show c.toNat = 47
  omega

/-- No escape of a path is that of a slash. -/
theorem isEscapedSlash_urlEncode (s : Bytes) :
    isEscapedSlash (urlEncode urlPathUnsafe false s) = false := by
  cases s with
  | nil => rfl
  | cons c s =>
      rw [urlEncode, percentEncode_cons]
      cases hc : needQuote urlPathUnsafe false c with
      | true =>
          rw [if_pos rfl]
          apply Bool.eq_false_iff.mpr
          intro h
          rw [eq_slash_of_isEscapedSlash h] at hc
          exact absurd hc (by decide)
      | false =>
          have hne : c ≠ ch '%' := by
            rintro rfl
            exact absurd hc (by decide)
          rw [if_neg Bool.false_ne_true]
          rcases percentEncode (needQuote urlPathUnsafe false) s with _ | ⟨a, _ | ⟨b, t⟩⟩
          · rfl
          · rfl
          · show (decide (c = ch '%') && _ && _) = false
            rw [decide_eq_false hne]
            rfl

theorem isDrive_cons (a : UInt8) (s : Bytes) :
    isDrive (a :: s)
      = (isAlpha a && s.head? = some (ch ':') && (s.drop 1).head? = some (ch '/')) := by
  rcases s with _ | ⟨b, _ | ⟨c, s⟩⟩
  · simp [isDrive]
  · simp [isDrive]
  · simp [isDrive]

theorem isDrive_urlEncode (s : Bytes) :
    isDrive (urlEncode urlPathUnsafe false s) = isDrive s := by
  cases s with
  | nil => rfl
  | cons a s =>
      cases ha : needQuote urlPathUnsafe false a with
      | true =>
          have hAlpha : isAlpha a = false := by
            apply Bool.eq_false_iff.mpr
            intro h
            rw [not_needQuote_of_isAlpha h] at ha
            cases ha
          rw [isDrive_cons, hAlpha, urlEncode, percentEncode_cons, ha, if_pos rfl]
          exact isDrive_cons _ _
      | false =>
          have hColon : (urlEncode urlPathUnsafe false s).head? = some (ch ':')
              ↔ s.head? = some (ch ':') :=
            head?_encode (by decide) (by decide) s
          rw [urlEncode_path_cons ha, isDrive_cons, isDrive_cons]
          by_cases hs : s.head? = some (ch ':')
          · obtain ⟨t, rfl⟩ := List.head?_eq_some_iff.mp hs
            have hSlash : (urlEncode urlPathUnsafe false t).head? = some (ch '/')
                ↔ t.head? = some (ch '/') :=
              head?_encode (by decide) (by decide) t
            rw [urlEncode_path_cons (by decide)]
            simp only [List.drop_succ_cons, List.drop_zero, hSlash, List.head?_cons]
          · rw [decide_eq_false hs, decide_eq_false (mt hColon.mp hs), Bool.and_false]
            rfl

/-- The protocols that `parse` takes for ftp. -/
def FtpLike (proto : Bytes) (useRfc1738 : Bool) : Prop :=
  (proto = bytes "ftp" ∨ proto = bytes "ftps" ∨ proto = bytes "hftp") ∧ useRfc1738 = true

section

variable (proto : Bytes) {useRfc1738 : Bool} {s : Bytes}

/-- What becomes of the text of a path, `/` and an encoded path. -/
def readPath (useRfc1738 : Bool) (s : Bytes) : Option Bytes :=
  (parsePath (some proto) useRfc1738 (ch '/' :: urlEncode urlPathUnsafe false s)).map
    percentDecode

theorem head?_urlEncode_path :
    (urlEncode urlPathUnsafe false s).head? = some (ch '~') ↔ s.head? = some (ch '~') :=
  head?_encode (by decide) (by decide) s

theorem readPath_tilde (hTilde : s.head? = some (ch '~')) :
    readPath proto useRfc1738 s = some s := by
  rw [readPath, parsePath, if_pos (head?_urlEncode_path.mpr hTilde), Option.map_some,
    percentDecode_urlEncode_path]

theorem readPath_ftp (hTilde : s.head? ≠ some (ch '~')) (hLike : FtpLike proto useRfc1738) :
    readPath proto useRfc1738 s
      = if isDrive s then none else some (ch '~' :: ch '/' :: s) := by
  have hCond : ((some proto = some (bytes "ftp") || some proto = some (bytes "ftps")
      || some proto = some (bytes "hftp")) && useRfc1738) = true := by
    obtain ⟨hProto, hRfc⟩ := hLike
    simpa [hRfc, or_assoc] using hProto
  rw [readPath, parsePath, if_neg (mt head?_urlEncode_path.mp hTilde), if_pos hCond,
    isEscapedSlash_urlEncode, if_neg Bool.false_ne_true, isDrive_urlEncode]
  cases isDrive s with
  | true => rfl
  | false =>
      rw [if_neg Bool.false_ne_true, if_neg Bool.false_ne_true, Option.map_some,
        percentDecode_cons (by decide), percentDecode_cons (by decide),
        percentDecode_urlEncode_path]

theorem readPath_plain (hTilde : s.head? ≠ some (ch '~')) (hLike : ¬ FtpLike proto useRfc1738) :
    readPath proto useRfc1738 s = some (ch '/' :: s) := by
  have hCond : ¬ ((some proto = some (bytes "ftp") || some proto = some (bytes "ftps")
      || some proto = some (bytes "hftp")) && useRfc1738) = true := by
    intro h
    apply hLike
    simpa [FtpLike, or_assoc] using h
  rw [readPath, parsePath, if_neg (mt head?_urlEncode_path.mp hTilde), if_neg hCond,
    Option.map_some, percentDecode_cons (by decide), percentDecode_urlEncode_path]

/-- The protocols that `CombineTo` takes for ftp. -/
def isFtp (proto : Bytes) : Bool := proto = bytes "ftp" || proto = bytes "hftp"

/-- What becomes of a path on the way. -/
def pathAgain (useRfc1738 : Bool) (path : Bytes) : Option Bytes :=
  (parsePath (some proto) useRfc1738 (pathText none useRfc1738 false (isFtp proto) path)).map
    percentDecode

variable {proto}

theorem ne_append_of_lt {s t : Bytes} (h : s.length < t.length) : some s ≠ some t := by
  intro he
  rw [Option.some.inj he] at h
  exact Nat.lt_irrefl _ h

/-- An absolute path written for ftp has its slash escaped. -/
theorem pathAgain_escaped (hRfc : useRfc1738 = true) (hFtp : isFtp proto = true) (x : Bytes) :
    pathAgain proto useRfc1738 (ch '/' :: x) = some (ch '/' :: x) := by
  have hDecode : percentDecode (bytes "%2F" ++ urlEncode urlPathUnsafe false x)
      = ch '/' :: x := by
    show percentDecode (percentByte (ch '/') ++ urlEncode urlPathUnsafe false x) = _
    rw [percentDecode_percentByte, percentDecode_urlEncode_path]
  have hText : pathText none true false true (ch '/' :: x)
      = ch '/' :: (bytes "%2F" ++ urlEncode urlPathUnsafe false x) := by
    unfold pathText
    rw [if_neg (by intro h; cases h)]
    rfl
  have hProto : proto = bytes "ftp" ∨ proto = bytes "hftp" := by
    simpa [isFtp] using hFtp
  have hParse : parsePath (some proto) true
      (ch '/' :: (bytes "%2F" ++ urlEncode urlPathUnsafe false x))
        = some (bytes "%2F" ++ urlEncode urlPathUnsafe false x) := by
    rcases hProto with rfl | rfl <;> rfl
  rw [pathAgain, hRfc, hFtp, hText, hParse, Option.map_some, hDecode]

/-- Written in full, a path is read from its second byte on. -/
theorem pathAgain_absolute (h : ¬ (useRfc1738 = true ∧ isFtp proto = true)) (x : Bytes) :
    pathAgain proto useRfc1738 (ch '/' :: x) = readPath proto useRfc1738 x := by
  have hCond : ¬ (isFtp proto && useRfc1738) = true := by
    simpa [and_comm] using h
  unfold pathAgain pathText
  rw [if_neg (by intro h; cases h), if_neg hCond, urlEncode_path_cons (by decide)]
  rfl

/-- A path from a home directory other than the user's own comes back. -/
theorem pathAgain_home {z : Bytes} (hz : z ≠ [])
    (h : ¬ ((useRfc1738 = true ∧ isFtp proto = true)
      ∧ (bytes "~/").isPrefixOf (ch '~' :: z) = true)) :
    pathAgain proto useRfc1738 (ch '~' :: z) = some (ch '~' :: z) := by
  have hText : pathText none useRfc1738 false (isFtp proto) (ch '~' :: z)
      = ch '/' :: urlEncode urlPathUnsafe false (ch '~' :: z) := by
    have hne : ch '~' :: z ≠ bytes "~" := fun h => hz (List.cons.inj h).2
    unfold pathText
    rw [if_neg hne]
    by_cases hCond : (isFtp proto && useRfc1738) = true
    · have hFtp : useRfc1738 = true ∧ isFtp proto = true := by
        simpa [and_comm] using hCond
      have hNotHome : (bytes "~/").isPrefixOf (ch '~' :: z) = false :=
        Bool.eq_false_iff.mpr fun hHome => h ⟨hFtp, hHome⟩
      rw [if_pos hCond, hNotHome]
      rfl
    · rw [if_neg hCond]
      rfl
  rw [pathAgain, hText]
  exact readPath_tilde proto rfl

/-- A path from the user's own home directory is written for ftp without it. -/
theorem pathAgain_own_home (hRfc : useRfc1738 = true) (hFtp : isFtp proto = true) (y : Bytes) :
    pathAgain proto useRfc1738 (ch '~' :: ch '/' :: y) = readPath proto useRfc1738 y := by
  unfold pathAgain pathText
  rw [if_neg (by intro h; cases h), hRfc, hFtp]
  rfl

theorem pathAgain_tilde : pathAgain proto useRfc1738 (bytes "~") ≠ some (bytes "~") := by
  have hText : pathText none useRfc1738 false (isFtp proto) (bytes "~") = [] := if_pos rfl
  rw [pathAgain, hText, parsePath]
  split
  · decide
  · nofun

/-- When a path comes back. -/
theorem pathAgain_iff {path : Bytes}
    (hStart : path.head? = some (ch '/') ∨ path.head? = some (ch '~')) :
    pathAgain proto useRfc1738 path = some path ↔ PathSurvives useRfc1738 proto path := by
  have hIsFtp : isFtp proto = true ↔ proto = bytes "ftp" ∨ proto = bytes "hftp" := by
    simp [isFtp]
  unfold PathSurvives
  simp only [← hIsFtp]
  rcases hStart with hHead | hHead
  · obtain ⟨x, rfl⟩ := List.head?_eq_some_iff.mp hHead
    have hne : ch '/' :: x ≠ bytes "~" := by
      intro h
      cases h
    have hLess : some x ≠ some (ch '/' :: x) := ne_append_of_lt (Nat.lt_succ_self _)
    by_cases hFtp : useRfc1738 = true ∧ isFtp proto = true
    · rw [if_pos hFtp]
      refine iff_of_true (pathAgain_escaped hFtp.1 hFtp.2 x) ⟨hne, fun h => ?_⟩
      cases h
    rw [if_neg hFtp, pathAgain_absolute hFtp]
    by_cases hFtps : useRfc1738 = true ∧ proto = bytes "ftps"
    · rw [if_pos hFtps]
      refine iff_of_false (fun h => ?_) (fun h => h.2 rfl)
      by_cases hTilde : x.head? = some (ch '~')
      · rw [readPath_tilde proto hTilde] at h
        exact hLess h
      · rw [readPath_ftp proto hTilde ⟨.inr (.inl hFtps.2), hFtps.1⟩] at h
        cases hDrive : isDrive x with
        | true =>
            rw [hDrive] at h
            cases h
        | false =>
            rw [hDrive] at h
            cases h
    · rw [if_neg hFtps]
      have hPlain : ¬ FtpLike proto useRfc1738 := by
        rintro ⟨h | h | h, hRfc⟩
        · exact hFtp ⟨hRfc, hIsFtp.mpr (.inl h)⟩
        · exact hFtps ⟨hRfc, h⟩
        · exact hFtp ⟨hRfc, hIsFtp.mpr (.inr h)⟩
      by_cases hTilde : x.head? = some (ch '~')
      · rw [readPath_tilde proto hTilde]
        exact iff_of_false hLess (fun h => h.2 rfl hTilde)
      · rw [readPath_plain proto hTilde hPlain]
        exact iff_of_true rfl ⟨hne, fun _ => hTilde⟩
  · obtain ⟨z, rfl⟩ := List.head?_eq_some_iff.mp hHead
    by_cases hz : z = []
    · rw [hz]
      exact iff_of_false pathAgain_tilde (fun h => h.1 rfl)
    have hne : ch '~' :: z ≠ bytes "~" := fun h => hz (List.cons.inj h).2
    by_cases hOwn : (useRfc1738 = true ∧ isFtp proto = true)
        ∧ (bytes "~/").isPrefixOf (ch '~' :: z) = true
    · obtain ⟨hFtp, hSlash⟩ := hOwn
      obtain ⟨y, hy⟩ := List.isPrefixOf_iff_prefix.mp hSlash
      obtain rfl : z = ch '/' :: y := (List.cons.inj hy).2.symm
      rw [if_pos hFtp, pathAgain_own_home hFtp.1 hFtp.2]
      have hLike : FtpLike proto useRfc1738 :=
        ⟨(hIsFtp.mp hFtp.2).elim .inl fun h => .inr (.inr h), hFtp.1⟩
      by_cases hTilde : y.head? = some (ch '~')
      · rw [readPath_tilde proto hTilde]
        exact iff_of_false (ne_append_of_lt (Nat.lt_succ_of_lt (Nat.lt_succ_self _)))
          (fun h => (h.2 rfl).1 hTilde)
      · rw [readPath_ftp proto hTilde hLike]
        cases hDrive : isDrive y with
        | true =>
            refine iff_of_false nofun (fun h => ?_)
            exact Bool.true_eq_false.mp (hDrive.symm.trans (h.2 rfl).2)
        | false => exact iff_of_true rfl ⟨hne, fun _ => ⟨hTilde, hDrive⟩⟩
    · refine iff_of_true (pathAgain_home hz hOwn) ⟨hne, ?_⟩
      split
      · exact fun h => absurd ⟨‹_›, h⟩ hOwn
      split
      · exact fun h => absurd (Option.some.inj h) (by decide)
      · exact fun h => absurd (Option.some.inj h) (by decide)

end

/-! ## The text before the path -/

theorem portText_some {port : Bytes} (h : ∀ c ∈ port, isDigit c = true) :
    portText (some port) = ch ':' :: port := by
  have hPlain : ∀ c ∈ port, needQuote urlPortUnsafe false c = false := by
    intro c hc
    have hDigit := h c hc
    have hSafe : ∀ x ∈ urlPortUnsafe, (!isDigit x) = true := List.all_eq_true.mp rfl
    have hNotIn : c ∉ urlPortUnsafe := by
      intro hMem
      simpa [hDigit] using hSafe c hMem
    simp only [isDigit, Bool.and_eq_true, decide_eq_true_eq] at hDigit
    simp only [needQuote, isCntrl, List.contains_eq_mem, decide_eq_false hNotIn, Bool.or_false,
      Bool.not_false, Bool.true_and, Bool.or_eq_false_iff, decide_eq_false_iff_not]
    omega
  exact congrArg (ch ':' :: ·) (percentEncode_eq_self hPlain)

theorem notMem_of_digits {port : Bytes} (h : ∀ c ∈ port, isDigit c = true) {d : UInt8}
    (hd : isDigit d = false) : d ∉ port := by
  intro hMem
  rw [h d hMem] at hd
  cases hd

/-- A port text is nothing, or a colon and digits. -/
theorem portText_cases {port : Option Bytes}
    (h : ∀ p ∈ port, p ≠ [] ∧ ∀ c ∈ p, isDigit c = true) :
    (port = none ∧ portText port = [])
      ∨ ∃ p, port = some p ∧ p ≠ [] ∧ (∀ c ∈ p, isDigit c = true)
        ∧ portText port = ch ':' :: p := by
  cases port with
  | none => exact .inl ⟨rfl, rfl⟩
  | some p =>
      obtain ⟨hne, hDigits⟩ := h p rfl
      exact .inr ⟨p, rfl, hne, hDigits, portText_some hDigits⟩

theorem notMem_portText {port : Option Bytes}
    (h : ∀ p ∈ port, p ≠ [] ∧ ∀ c ∈ p, isDigit c = true) {d : UInt8} (hd : isDigit d = false)
    (hColon : d ≠ ch ':') : d ∉ portText port := by
  rcases portText_cases h with ⟨-, hText⟩ | ⟨p, -, -, hDigits, hText⟩
  · rw [hText]
    exact List.not_mem_nil
  · rw [hText, List.mem_cons, not_or]
    exact ⟨hColon, notMem_of_digits hDigits hd⟩

theorem slash_notMem_userText (user pass : Option Bytes) : ch '/' ∉ userText user pass := by
  have hEncoded : ∀ s, ch '/' ∉ urlEncode urlUserUnsafe false s :=
    notMem_encode_of_mem (by decide) (by decide) false
  cases user with
  | none => exact List.not_mem_nil
  | some user =>
      unfold userText
      simp only [List.mem_append, not_or, List.mem_singleton]
      refine ⟨⟨hEncoded user, ?_⟩, by decide⟩
      cases pass with
      | none => exact List.not_mem_nil
      | some pass =>
          rw [List.mem_cons, not_or]
          exact ⟨by decide, hEncoded pass⟩

/-- What `parse` makes of the user name and the password, before it decodes them. -/
theorem parseUser_userText (user pass : Option Bytes) {rest : Bytes} (h : ch '@' ∉ rest) :
    parseUser (userText user pass ++ rest)
      = (user.map (urlEncode urlUserUnsafe false),
        if user.isSome then pass.map (urlEncode urlPassUnsafe false) else none, rest) := by
  cases user with
  | none =>
      show parseUser rest = _
      rw [parseUser, splitLast_of_notMem h]
      rfl
  | some user =>
      have hColon : ch ':' ∉ urlEncode urlUserUnsafe false user :=
        notMem_encode_of_mem (by decide) (by decide) false user
      cases pass with
      | none =>
          have hText : userText (some user) none ++ rest
              = urlEncode urlUserUnsafe false user ++ ch '@' :: rest := by
            simp [userText]
          rw [hText, parseUser, splitLast_append _ h]
          dsimp only
          rw [dropWhile_of_notMem hColon]
          rfl
      | some pass =>
          have hText : userText (some user) (some pass) ++ rest
              = (urlEncode urlUserUnsafe false user
                ++ ch ':' :: urlEncode urlPassUnsafe false pass) ++ ch '@' :: rest := by
            simp [userText]
          rw [hText, parseUser, splitLast_append _ h]
          dsimp only
          rw [dropWhile_append_cons hColon, takeWhile_append_cons hColon]
          rfl

theorem parseUser_rest (name : Bytes) {rest : Bytes} (h : ch '@' ∉ rest) :
    (parseUser (name ++ ch '@' :: rest)).2.2 = rest := by
  rw [parseUser, splitLast_append _ h]
  dsimp only
  split <;> rfl

/-- The end of `parseHost`, at a port text. -/
theorem parseHost_port {port : Option Bytes}
    (h : ∀ p ∈ port, p ≠ [] ∧ ∀ c ∈ p, isDigit c = true) (host base : Bytes) :
    (match portText port with
      | [] => (host, none)
      | c :: scan =>
        if c ≠ ch ':' then (host, none)
        else if scan.contains (ch ':') then (base, none)
        else (host, some scan)) = (host, port) := by
  rcases portText_cases h with ⟨rfl, hText⟩ | ⟨p, rfl, -, hDigits, hText⟩
  · rw [hText]
  · rw [hText]
    have hColon : p.contains (ch ':') = false := by
      rw [List.contains_eq_mem]
      exact decide_eq_false (notMem_of_digits hDigits (by decide))
    dsimp only
    rw [if_neg (not_not.mpr rfl), hColon, if_neg Bool.false_ne_true]

theorem parseHost_encoded (allow8bit : Bool) (host : Bytes) {port : Option Bytes}
    (hPort : ∀ p ∈ port, p ≠ [] ∧ ∀ c ∈ p, isDigit c = true) :
    parseHost (urlEncode urlHostUnsafe allow8bit host ++ portText port)
      = (urlEncode urlHostUnsafe allow8bit host, port) := by
  have hColon : ch ':' ∉ urlEncode urlHostUnsafe allow8bit host :=
    notMem_encode_of_mem (by decide) (by decide) _ host
  have hOpen : ch '[' ∉ urlEncode urlHostUnsafe allow8bit host :=
    notMem_encode_of_mem (by decide) (by decide) _ host
  have hTake : (urlEncode urlHostUnsafe allow8bit host ++ portText port).takeWhile (· ≠ ch ':')
      = urlEncode urlHostUnsafe allow8bit host := by
    rcases portText_cases hPort with ⟨-, hText⟩ | ⟨p, -, -, -, hText⟩
    · rw [hText, List.append_nil, takeWhile_of_notMem hColon]
    · rw [hText, takeWhile_append_cons hColon]
  have hDrop : (urlEncode urlHostUnsafe allow8bit host ++ portText port).dropWhile (· ≠ ch ':')
      = portText port := by
    rcases portText_cases hPort with ⟨-, hText⟩ | ⟨p, -, -, -, hText⟩
    · rw [hText, List.append_nil, dropWhile_of_notMem hColon]
    · rw [hText, dropWhile_append_cons hColon]
  have hHead : (urlEncode urlHostUnsafe allow8bit host ++ portText port).head? ≠ some (ch '[') := by
    cases hText : urlEncode urlHostUnsafe allow8bit host with
    | nil =>
        intro h
        exact notMem_portText hPort (by decide) (by decide) (List.mem_of_head? h)
    | cons c s =>
        rw [hText, List.mem_cons, not_or] at hOpen
        exact fun h => hOpen.1 (Option.some.inj h).symm
  unfold parseHost
  rw [decide_eq_false hHead, Bool.false_and, if_neg Bool.false_ne_true, hTake, hDrop]
  exact parseHost_port hPort _ _

theorem parseHost_bracketed {host : Bytes} (hClose : ch ']' ∉ host) {port : Option Bytes}
    (hPort : ∀ p ∈ port, p ≠ [] ∧ ∀ c ∈ p, isDigit c = true) :
    parseHost (ch '[' :: (host ++ [ch ']']) ++ portText port) = (host, port) := by
  have hText : ch '[' :: (host ++ [ch ']']) ++ portText port
      = (ch '[' :: host) ++ ch ']' :: portText port := by
    simp
  have hNotIn : ch ']' ∉ ch '[' :: host := by
    rw [List.mem_cons, not_or]
    exact ⟨by decide, hClose⟩
  rw [hText]
  unfold parseHost
  have hBoth : (decide (((ch '[' :: host) ++ ch ']' :: portText port).head? = some (ch '['))
      && ((ch '[' :: host) ++ ch ']' :: portText port).contains (ch ']')) = true := by
    rw [List.contains_eq_mem]
    simp
  rw [hBoth, if_pos rfl, takeWhile_append_cons hNotIn, dropWhile_append_cons hNotIn]
  exact parseHost_port hPort _ _

/-! ## The round trip -/

theorem takeWhile_isAlpha {proto : Bytes} (h : ∀ c ∈ proto, isAlpha c = true) (rest : Bytes) :
    (proto ++ (bytes "://" ++ rest)).takeWhile isAlpha = proto := by
  rw [List.takeWhile_append_of_pos h]
  show proto ++ [] = proto
  exact List.append_nil proto

theorem dropWhile_isAlpha {proto : Bytes} (h : ∀ c ∈ proto, isAlpha c = true) (rest : Bytes) :
    (proto ++ (bytes "://" ++ rest)).dropWhile isAlpha = bytes "://" ++ rest := by
  rw [List.dropWhile_append_of_pos h]
  rfl

/-- The path text is empty or starts at the slash that ends the host. -/
theorem pathText_start (useRfc1738 ftp : Bool) {path : Bytes}
    (hStart : path.head? = some (ch '/') ∨ path.head? = some (ch '~')) :
    pathText none useRfc1738 false ftp path = []
      ∨ ∃ s, pathText none useRfc1738 false ftp path = ch '/' :: s := by
  by_cases hTilde : path = bytes "~"
  · exact .inl (if_pos hTilde)
  unfold pathText
  rw [if_neg hTilde]
  rcases hStart with hHead | hHead
  · obtain ⟨x, rfl⟩ := List.head?_eq_some_iff.mp hHead
    right
    cases ftp <;> cases useRfc1738
    · exact ⟨_, urlEncode_path_cons (by decide) x⟩
    · exact ⟨_, urlEncode_path_cons (by decide) x⟩
    · exact ⟨_, urlEncode_path_cons (by decide) x⟩
    · exact ⟨_, rfl⟩
  · obtain ⟨x, rfl⟩ := List.head?_eq_some_iff.mp hHead
    exact .inr ⟨_, rfl⟩

section

variable {env : Names} (hAddress : ∀ s, env.isIPv6Address s = true → ∀ c ∈ s, AddressChar c)
variable (u : NetworkURL) (useRfc1738 : Bool)

/-- The user, the host and the port, as `CombineTo` writes them. -/
def NetworkURL.authority (env : Names) (u : NetworkURL) : Bytes :=
  userText u.user u.pass ++ (hostText env u.host ++ portText u.port)

theorem combineTo_parsed :
    combineTo env none useRfc1738 u.parsed
      = u.proto ++ (bytes "://" ++ (u.authority env
        ++ pathText none useRfc1738 false (isFtp u.proto) u.path)) := by
  have hFile : some u.proto ≠ some (bytes "file") :=
    fun h => u.proto_network.1 (Option.some.inj h)
  simp [combineTo, NetworkURL.parsed, NetworkURL.authority, hFile, isFtp]

include hAddress in
theorem slash_notMem_authority : ch '/' ∉ u.authority env := by
  have hHost : ch '/' ∉ hostText env u.host :=
    notMem_hostText hAddress (by decide) (by decide) (by decide) (by decide) (by decide)
      (.inr (by decide))
  simp only [NetworkURL.authority, List.mem_append, not_or]
  exact ⟨slash_notMem_userText u.user u.pass, hHost,
    notMem_portText u.port_digits (by decide) (by decide)⟩

theorem hostText_ne_nil {host : Bytes} (h : host ≠ []) : hostText env host ≠ [] := by
  unfold hostText
  split
  · exact List.cons_ne_nil _ _
  · exact mt percentEncode_eq_nil.mp h

theorem getLast?_append_of_ne {s t : Bytes} (h : t ≠ []) : (s ++ t).getLast? = t.getLast? := by
  rw [List.getLast?_append, List.getLast?_eq_some_getLast h]
  rfl

/-- No colon ends the text before the path. -/
theorem trimColon_authority : trimColon (u.authority env) = u.authority env := by
  have hPort : (hostText env u.host ++ portText u.port).getLast? ≠ some (ch ':') := by
    rcases portText_cases u.port_digits with ⟨-, hText⟩ | ⟨p, -, hne, hDigits, hText⟩
    · rw [hText, List.append_nil, hostText]
      split
      · have hLast : (ch '[' :: (u.host ++ [ch ']'])).getLast? = some (ch ']') :=
          getLast?_append_of_ne (s := ch '[' :: u.host) (List.cons_ne_nil _ _)
        rw [hLast]
        decide
      · exact fun h => notMem_encode_of_mem (by decide) (by decide) _ u.host
          (List.mem_of_getLast? h)
    · intro h
      have hLast : p.getLast? = some (ch ':') := by
        rw [hText, getLast?_append_of_ne (List.cons_ne_nil _ _)] at h
        cases p with
        | nil => exact absurd rfl hne
        | cons c p => rwa [List.getLast?_cons_cons] at h
      exact notMem_of_digits hDigits (by decide) (List.mem_of_getLast? hLast)
  have hAll : (u.authority env).getLast? ≠ some (ch ':') := by
    rw [NetworkURL.authority,
      getLast?_append_of_ne (List.append_ne_nil_of_left_ne_nil (hostText_ne_nil u.host_ne) _)]
    exact hPort
  exact if_neg hAll

include hAddress in
/-- Parsing what was combined takes it apart at the protocol and the first slash. -/
theorem parse_combineTo (protoRequired : Bool) :
    parse env protoRequired useRfc1738 (combineTo env none useRfc1738 u.parsed)
      = ⟨some u.proto, (parseUser (u.authority env)).1.map percentDecode,
        (parseUser (u.authority env)).2.1.map percentDecode,
        some (percentDecode (parseHost (parseUser (u.authority env)).2.2).1),
        (parseHost (parseUser (u.authority env)).2.2).2, pathAgain u.proto useRfc1738 u.path⟩ := by
  have hSlash := slash_notMem_authority hAddress u
  have hTake : (u.authority env ++ pathText none useRfc1738 false (isFtp u.proto) u.path).takeWhile
      (· ≠ ch '/') = u.authority env := by
    rcases pathText_start useRfc1738 (isFtp u.proto) u.path_start with h | ⟨s, h⟩
    · rw [h, List.append_nil, takeWhile_of_notMem hSlash]
    · rw [h, takeWhile_append_cons hSlash]
  have hDrop : (u.authority env ++ pathText none useRfc1738 false (isFtp u.proto) u.path).dropWhile
      (· ≠ ch '/') = pathText none useRfc1738 false (isFtp u.proto) u.path := by
    rcases pathText_start useRfc1738 (isFtp u.proto) u.path_start with h | ⟨s, h⟩
    · rw [h, List.append_nil, dropWhile_of_notMem hSlash]
    · rw [h, dropWhile_append_cons hSlash]
  have hFile : decide (u.proto = bytes "file") = false := decide_eq_false u.proto_network.1
  rw [combineTo_parsed, parse, takeWhile_isAlpha u.proto_alpha, dropWhile_isAlpha u.proto_alpha,
    if_pos (List.isPrefixOf_iff_prefix.mpr (List.prefix_append _ _)), hFile]
  show parseConnect (some u.proto) useRfc1738 (u.authority env ++ _) = _
  unfold parseConnect
  rw [hTake, hDrop, trimColon_authority]
  rfl

include hAddress in
/-- The host comes back with the port. -/
theorem parseHost_hostText :
    ∃ raw, parseHost (hostText env u.host ++ portText u.port) = (raw, u.port)
      ∧ percentDecode raw = u.host := by
  unfold hostText
  cases hAddr : env.isIPv6Address u.host with
  | true =>
      have hChars := hAddress u.host hAddr
      have hNotIn : ∀ d, Delimiter d → d ≠ ch ':' → d ≠ ch '.' → d ∉ u.host :=
        fun d => delimiter_notMem_address hChars
      rw [if_pos rfl, parseHost_bracketed (hNotIn _ (by decide) (by decide) (by decide))
        u.port_digits]
      refine ⟨_, rfl, percentDecode_of_notMem fun hMem => ?_⟩
      rcases hChars _ hMem with h | h | h <;> exact absurd h (by decide)
  | false =>
      rw [if_neg Bool.false_ne_true, parseHost_encoded _ _ u.port_digits]
      have hPercent : needQuote urlHostUnsafe (env.xtldNameOk u.host) (ch '%') = true := by
        cases env.xtldNameOk u.host <;> decide
      exact ⟨_, rfl, percentDecode_encode hPercent u.host⟩

include hAddress in
/-- Without an `@` in the host everything but the path comes back, a password
only after a user name. -/
theorem parse_combine (protoRequired : Bool) (hAt : ch '@' ∉ u.host) :
    parse env protoRequired useRfc1738 (combineTo env none useRfc1738 u.parsed)
      = ⟨some u.proto, u.user, if u.user.isSome then u.pass else none, some u.host, u.port,
        pathAgain u.proto useRfc1738 u.path⟩ := by
  have hHost : ch '@' ∉ hostText env u.host ++ portText u.port := by
    rw [List.mem_append, not_or]
    exact ⟨notMem_hostText hAddress (by decide) (by decide) (by decide) (by decide) (by decide)
      (.inl hAt), notMem_portText u.port_digits (by decide) (by decide)⟩
  obtain ⟨raw, hParse, hRaw⟩ := parseHost_hostText hAddress u
  have hUser : ∀ s, percentDecode (urlEncode urlUserUnsafe false s) = s :=
    percentDecode_encode (by decide)
  have hPass : ∀ s, percentDecode (urlEncode urlPassUnsafe false s) = s :=
    percentDecode_encode (by decide)
  rw [parse_combineTo hAddress, NetworkURL.authority, parseUser_userText _ _ hHost, hParse]
  dsimp only
  rw [hRaw, Option.map_map]
  congr 1
  · cases u.user with
    | none => rfl
    | some user => exact congrArg some (hUser user)
  · cases u.user with
    | none => rfl
    | some user =>
        cases u.pass with
        | none => rfl
        | some pass => exact congrArg some (hPass pass)

include hAddress in
/-- A host with an `@` does not come back: the parser takes the last one for the
end of the user name. -/
theorem host_parse_combine_ne (protoRequired : Bool) (hAt : ch '@' ∈ u.host) :
    (parse env protoRequired useRfc1738 (combineTo env none useRfc1738 u.parsed)).host
      ≠ some u.host := by
  obtain ⟨a, b, hSplit, hb⟩ := exists_last hAt
  have hPlain : env.isIPv6Address u.host = false := by
    apply Bool.eq_false_iff.mpr
    intro hAddr
    exact delimiter_notMem_address (hAddress u.host hAddr) (by decide) (by decide) (by decide) hAt
  have hText : u.authority env
      = (userText u.user u.pass ++ urlEncode urlHostUnsafe (env.xtldNameOk u.host) a)
        ++ ch '@' :: (urlEncode urlHostUnsafe (env.xtldNameOk u.host) b ++ portText u.port) := by
    have hEncode : urlEncode urlHostUnsafe (env.xtldNameOk u.host) u.host
        = urlEncode urlHostUnsafe (env.xtldNameOk u.host) a
          ++ ch '@' :: urlEncode urlHostUnsafe (env.xtldNameOk u.host) b := by
      have hSelf : needQuote urlHostUnsafe (env.xtldNameOk u.host) (ch '@') = false := by
        cases env.xtldNameOk u.host <;> decide
      unfold urlEncode
      rw [← percentEncode_cons_of_not hSelf, ← percentEncode_append, ← hSplit]
    unfold NetworkURL.authority hostText
    rw [hPlain, if_neg Bool.false_ne_true, hEncode]
    simp
  have hRest : ch '@' ∉ urlEncode urlHostUnsafe (env.xtldNameOk u.host) b ++ portText u.port := by
    rw [List.mem_append, not_or]
    constructor
    · intro h
      exact hb ((mem_encode_iff (by decide) b).mp h).1
    · exact notMem_portText u.port_digits (by decide) (by decide)
  have hb : b.length < u.host.length := by
    rw [hSplit, List.length_append, List.length_cons]
    omega
  rw [parse_combineTo hAddress, hText, parseUser_rest _ hRest,
    parseHost_encoded _ _ u.port_digits]
  have hPercent : needQuote urlHostUnsafe (env.xtldNameOk u.host) (ch '%') = true := by
    cases env.xtldNameOk u.host <;> decide
  show some (percentDecode (urlEncode urlHostUnsafe (env.xtldNameOk u.host) b)) ≠ some u.host
  rw [urlEncode, percentDecode_encode hPercent]
  exact ne_append_of_lt hb

end

/-- Names without addresses and bookmarks. -/
def plainNames : Names := ⟨fun _ => false, fun _ => false, fun _ => false, fun _ => false⟩

/-- An absolute path on an ftps server. -/
def ftpsURL : NetworkURL where
  proto := bytes "ftps"
  user := none
  pass := none
  host := bytes "host"
  port := none
  path := bytes "/pub"
  proto_ne := by decide
  proto_alpha := List.all_eq_true.mp rfl
  proto_network := by decide
  host_ne := by decide
  port_digits := nofun
  path_start := .inl rfl

/-- A file of a user's home on an ftp server. -/
def ftpURL : NetworkURL where
  proto := bytes "ftp"
  user := some (bytes "me")
  pass := some (bytes "a:b@c")
  host := bytes "host"
  port := some (bytes "2121")
  path := bytes "~/a b"
  proto_ne := by decide
  proto_alpha := List.all_eq_true.mp rfl
  proto_network := by decide
  host_ne := by decide
  port_digits := by
    rintro _ ⟨⟩
    exact ⟨by decide, List.all_eq_true.mp rfl⟩
  path_start := .inr rfl

end Lftp.Ports.Url
