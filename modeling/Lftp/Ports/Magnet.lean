import Lftp.Ports.Base32
import Lftp.Ports.Url
import Lftp.Verified.Segments

/-!
# Magnet links

The link that `Torrent::Do` prints for a new torrent, and `Torrent::ParseMagnet`, with `url_decode`
and `hex_decode` of `xstring`. Whether a tracker's URL is refused and whether a torrent is already
running are asked of the rest of the program.

* `urlDecode_encode`: decoding undoes encoding, when `%` is encoded, and `+` where it is decoded.
* `ParseMagnet_link` is what the parser makes of a printed link.
-/

namespace Lftp.Ports.Magnet

open Lftp.Verified
open Lftp.Ports.Url

/-! ## Strings -/

/-- `+`, with `URL_DECODE_PLUS` or without. -/
def decodePlus (plus : Bool) (c : UInt8) : UInt8 := if c = ch '+' ∧ plus then ch ' ' else c

/-- `xstring0::_url_decode`. -/
def urlDecode (plus : Bool) : Bytes → Bytes
  | a :: b :: c :: s =>
    if a = ch '%' && isXDigit b && isXDigit c then
      UInt8.ofNat (16 * hexVal b + hexVal c) :: urlDecode plus s
    else decodePlus plus a :: urlDecode plus (b :: c :: s)
  | [a, b] => [decodePlus plus a, decodePlus plus b]
  | [a] => [decodePlus plus a]
  | [] => []

/-- `xstring0::_hex_decode`. -/
def hexDecode : Bytes → Bytes
  | a :: b :: s =>
    if isXDigit a && isXDigit b then UInt8.ofNat (16 * hexVal a + hexVal b) :: hexDecode s else []
  | _ => []

/-- `xstring::hexdump`. -/
def hexdump (s : Bytes) : Bytes :=
  s.flatMap fun c => [upperHex (c.toNat / 16), upperHex (c.toNat % 16)]

/-- `%lld`. -/
def lld (n : Int) : Bytes := (if n < 0 then [ch '-'] else []) ++ decimal n.natAbs

/-! ## The torrent -/

/-- A SHA-1 digest. -/
structure InfoHash where
  digest : Bytes
  length_eq : digest.length = 20

/-- What `ParseMagnet` sets; `trackers` are their URLs. -/
structure Torrent where
  info_hash : Option Bytes
  name : Option Bytes
  trackers : List Bytes
  error : Option Bytes
  metadata_download : Bool

/-- Whether a new `TorrentTracker` has `Failed`, and `FindTorrent`. -/
structure Env where
  failed : Bytes → Bool
  found : Bytes → Bool

def Torrent.setError (t : Torrent) (error : String) : Torrent :=
  { t with error := some (bytes error) }

/-- The link that is printed. -/
def magnet (info_hash : InfoHash) (total_length : Int) (name : Bytes) : Bytes :=
  bytes "magnet:?xt=urn:btih:" ++ hexdump info_hash.digest ++ bytes "&xl=" ++ lld total_length
    ++ bytes "&dn=" ++ urlEncode urlPathUnsafe false name

/-- The value of `xt`, after `urn:btih:`. The loop is left with an error. -/
def parseBtih (t : Torrent) (v : Bytes) : Except Torrent Torrent :=
  if v.length = 40 then
    let btih := hexDecode v
    if btih.length ≠ 20 then .error (t.setError "Invalid value of urn:btih in magnet link")
    else .ok { t with info_hash := some btih }
  else
    let info_hash := Base32.base32_decode v []
    if info_hash.length ≠ 20 then
      .error ({ t with info_hash := none }.setError "Invalid value of urn:btih in magnet link")
    else .ok { t with info_hash := some info_hash }

/-- The loop's body, for the parameter `p`. -/
def parseParam (env : Env) (t : Torrent) (p : Bytes) : Except Torrent Torrent :=
  match p.dropWhile (· ≠ ch '=') with
  | [] => .ok t
  | _ :: v =>
    let p := p.takeWhile (· ≠ ch '=')
    let v := cstr (urlDecode true v)
    if p = bytes "xt" then
      if ¬ (bytes "urn:btih:").isPrefixOf v then
        .error (t.setError "Only BitTorrent magnet links are supported")
      else parseBtih t (v.drop 9)
    else if p = bytes "tr" then
      if env.failed v then .ok t else .ok { t with trackers := t.trackers ++ [v] }
    else if p = bytes "dn" then .ok { t with name := some v }
    else .ok t

/-- The strings that `strtok` finds between `&`. -/
def params (m : Bytes) : List Bytes := (m.splitOn (ch '&')).filter (· ≠ [])

/-- `Torrent::ParseMagnet`. -/
def ParseMagnet (env : Env) (t : Torrent) (m : Bytes) : Torrent :=
  match (params m).foldlM (parseParam env) t with
  | .error t => t
  | .ok t =>
    match t.info_hash with
    | none => t.setError "missing urn:btih in magnet link"
    | some info_hash =>
      if env.found info_hash then t.setError "This torrent is already running"
      else { t with metadata_download := true }

/-- What `Torrent::Do` does with a `metainfo_url` that is a magnet link. -/
def openMagnet (env : Env) (t : Torrent) (metainfo_url : Bytes) : Option Torrent :=
  if (bytes "magnet:?").isPrefixOf metainfo_url then
    some (ParseMagnet env t (metainfo_url.drop 8))
  else none

/-! ## Encoding undone -/

theorem decodePlus_of_ne {plus : Bool} {c : UInt8} (h : c ≠ ch '+') : decodePlus plus c = c :=
  if_neg fun hBoth => h hBoth.1

theorem isXDigit_decodePlus (plus : Bool) (c : UInt8) :
    isXDigit (decodePlus plus c) = isXDigit c := by
  unfold decodePlus
  split
  · next h =>
      rw [h.1]
      decide
  · rfl

theorem decodePlus_eq_percent (plus : Bool) (c : UInt8) :
    decodePlus plus c = ch '%' ↔ c = ch '%' := by
  unfold decodePlus
  split
  · next h =>
      rw [h.1]
      decide
  · rfl

/-- The two kinds of decoding don't meet. -/
theorem urlDecode_eq (plus : Bool) (s : Bytes) :
    urlDecode plus s = percentDecode (s.map (decodePlus plus)) := by
  induction s using urlDecode.induct with
  | case1 a b c s h ih =>
      rw [urlDecode, if_pos h, ih]
      simp only [Bool.and_eq_true, decide_eq_true_eq] at h
      obtain ⟨⟨rfl, hb⟩, hc⟩ := h
      have hPlus : ∀ d, isXDigit d = true → decodePlus plus d = d := fun d hd =>
        decodePlus_of_ne fun hEq => by
          rw [hEq] at hd
          exact absurd hd (by decide)
      rw [List.map_cons, List.map_cons, List.map_cons, hPlus b hb, hPlus c hc,
        decodePlus_of_ne (by decide), percentDecode, hb, hc]
      rfl
  | case2 a b c s h ih =>
      rw [urlDecode, if_neg h, ih]
      refine (percentDecode_cons_of (s := (b :: c :: s).map (decodePlus plus)) ?_).symm
      rintro x y t hTail ⟨hPercent, hx, hy⟩
      obtain ⟨hb, hTail⟩ := List.cons.inj hTail
      obtain ⟨hc, -⟩ := List.cons.inj hTail
      rw [← hb, isXDigit_decodePlus] at hx
      rw [← hc, isXDigit_decodePlus] at hy
      rw [decodePlus_eq_percent] at hPercent
      exact h (by rw [hPercent, hx, hy]; rfl)
  | case3 a b => rfl
  | case4 a => rfl
  | case5 => rfl

theorem needQuote_of_mem {unsafe8 : Bytes} {c : UInt8} (h : c ∈ unsafe8) (allow8bit : Bool) :
    needQuote unsafe8 allow8bit c = true := by
  simp [needQuote, h]

/-- Text without `+`. -/
theorem map_decodePlus {plus : Bool} {s : Bytes} (h : plus = true → ch '+' ∉ s) :
    s.map (decodePlus plus) = s := by
  have hSame : s.map (decodePlus plus) = s.map id := by
    apply List.map_congr_left
    intro c hc
    cases plus with
    | false => exact if_neg fun hBoth => Bool.false_ne_true hBoth.2
    | true => exact decodePlus_of_ne fun hEq => h rfl (hEq ▸ hc)
  rw [hSame, List.map_id]

/-- Decoding undoes encoding. -/
theorem urlDecode_encode {unsafe8 : Bytes} (allow8bit : Bool) {plus : Bool}
    (hPercent : ch '%' ∈ unsafe8) (hPlus : plus = true → ch '+' ∈ unsafe8) (s : Bytes) :
    urlDecode plus (urlEncode unsafe8 allow8bit s) = s := by
  have hEncoded : plus = true → ch '+' ∉ urlEncode unsafe8 allow8bit s := fun h =>
    notMem_encode (by decide) (needQuote_of_mem (hPlus h) allow8bit) s
  rw [urlDecode_eq, map_decodePlus hEncoded]
  exact percentDecode_encode (needQuote_of_mem hPercent allow8bit) s

theorem hexDecode_hexdump (s : Bytes) : hexDecode (hexdump s) = s := by
  induction s with
  | nil => rfl
  | cons c s ih =>
      have hc := c.toNat_lt
      have hHigh : c.toNat / 16 < 16 := by omega
      have hLow : c.toNat % 16 < 16 := by omega
      have hValue : 16 * (c.toNat / 16) + c.toNat % 16 = c.toNat := by omega
      show hexDecode (upperHex (c.toNat / 16) :: upperHex (c.toNat % 16) :: hexdump s) = _
      rw [hexDecode, isXDigit_upperHex _ hHigh, isXDigit_upperHex _ hLow, hexVal_upperHex _ hHigh,
        hexVal_upperHex _ hLow, hValue, UInt8.ofNat_toNat, ih]
      rfl

theorem length_hexdump (s : Bytes) : (hexdump s).length = 2 * s.length := by
  induction s with
  | nil => rfl
  | cons c s ih =>
      show (hexdump s).length + 2 = _
      rw [ih, List.length_cons]
      omega

theorem isXDigit_of_mem_hexdump {s : Bytes} {d : UInt8} (h : d ∈ hexdump s) :
    isXDigit d = true := by
  obtain ⟨c, -, hd⟩ := List.mem_flatMap.mp h
  have hc := c.toNat_lt
  simp only [List.mem_cons, List.not_mem_nil, or_false] at hd
  rcases hd with rfl | rfl
  · exact isXDigit_upperHex _ (by omega)
  · exact isXDigit_upperHex _ (by omega)

/-- Text without escapes. -/
theorem urlDecode_plain {s : Bytes} (hPercent : ch '%' ∉ s) (hPlus : ch '+' ∉ s) (plus : Bool) :
    urlDecode plus s = s := by
  rw [urlDecode_eq, map_decodePlus fun _ => hPlus, percentDecode_of_notMem hPercent]

/-! ## The parameters of a link -/

theorem notMem_lld {d : UInt8} (h : isDigit d = false) (hMinus : d ≠ ch '-') (n : Int) :
    d ∉ lld n := by
  intro hd
  rcases List.mem_append.mp hd with hd | hd
  · split_ifs at hd
    · exact hMinus (List.mem_singleton.mp hd)
    · cases hd
  · rw [isDigit_of_mem_decimal _ d hd] at h
    cases h

theorem params_magnet (info_hash : InfoHash) (total_length : Int) (name : Bytes) :
    params ((magnet info_hash total_length name).drop 8)
      = [bytes "xt=urn:btih:" ++ hexdump info_hash.digest, bytes "xl=" ++ lld total_length,
        bytes "dn=" ++ urlEncode urlPathUnsafe false name] := by
  have hDrop : (magnet info_hash total_length name).drop 8
      = (bytes "xt=urn:btih:" ++ hexdump info_hash.digest) ++ ch '&' ::
        ((bytes "xl=" ++ lld total_length) ++ ch '&' ::
          (bytes "dn=" ++ urlEncode urlPathUnsafe false name)) := by
    have hText : bytes "magnet:?xt=urn:btih:" = bytes "magnet:?" ++ bytes "xt=urn:btih:" := by
      decide
    have hXl : bytes "&xl=" = ch '&' :: bytes "xl=" := by decide
    have hDn : bytes "&dn=" = ch '&' :: bytes "dn=" := by decide
    unfold magnet
    rw [hText, hXl, hDn]
    simp only [List.append_assoc, List.cons_append]
    exact List.drop_left' (by decide)
  have hHash : ch '&' ∉ bytes "xt=urn:btih:" ++ hexdump info_hash.digest := by
    rw [List.mem_append, not_or]
    refine ⟨by decide, fun hMem => ?_⟩
    exact absurd (isXDigit_of_mem_hexdump hMem) (by decide)
  have hLength : ch '&' ∉ bytes "xl=" ++ lld total_length := by
    rw [List.mem_append, not_or]
    exact ⟨by decide, notMem_lld (by decide) (by decide) _⟩
  have hName : ch '&' ∉ bytes "dn=" ++ urlEncode urlPathUnsafe false name := by
    rw [List.mem_append, not_or]
    exact ⟨by decide, notMem_encode (by decide) (needQuote_of_mem (by decide) false) _⟩
  rw [params, hDrop, List.splitOn_append_cons_self, List.splitOn_append_cons_self,
    List.splitOn_eq_singleton hHash, List.splitOn_eq_singleton hLength,
    List.splitOn_eq_singleton hName]
  rfl

variable {env : Env} {t : Torrent}

/-- A parameter is cut at its first `=`. -/
theorem parseParam_eq {p v : Bytes} (h : ch '=' ∉ p) :
    parseParam env t (p ++ ch '=' :: v)
      = if p = bytes "xt" then
          if ¬ (bytes "urn:btih:").isPrefixOf (cstr (urlDecode true v)) then
            .error (t.setError "Only BitTorrent magnet links are supported")
          else parseBtih t ((cstr (urlDecode true v)).drop 9)
        else if p = bytes "tr" then
          if env.failed (cstr (urlDecode true v)) then .ok t
          else .ok { t with trackers := t.trackers ++ [cstr (urlDecode true v)] }
        else if p = bytes "dn" then .ok { t with name := some (cstr (urlDecode true v)) }
        else .ok t := by
  unfold parseParam
  rw [dropWhile_append_cons h, takeWhile_append_cons h]

theorem parseParam_xt (info_hash : InfoHash) :
    parseParam env t (bytes "xt=urn:btih:" ++ hexdump info_hash.digest)
      = .ok { t with info_hash := some info_hash.digest } := by
  have hText : bytes "xt=urn:btih:" ++ hexdump info_hash.digest
      = bytes "xt" ++ ch '=' :: (bytes "urn:btih:" ++ hexdump info_hash.digest) := by
    rw [← List.cons_append, ← List.append_assoc]
    congr 1
  have hNot : ∀ d, d ∉ bytes "urn:btih:" → isXDigit d = false →
      d ∉ bytes "urn:btih:" ++ hexdump info_hash.digest := by
    intro d hd hDigit hMem
    rcases List.mem_append.mp hMem with hMem | hMem
    · exact hd hMem
    · rw [isXDigit_of_mem_hexdump hMem] at hDigit
      cases hDigit
  have hDecoded : cstr (urlDecode true (bytes "urn:btih:" ++ hexdump info_hash.digest))
      = bytes "urn:btih:" ++ hexdump info_hash.digest := by
    rw [urlDecode_plain (hNot _ (by decide) (by decide)) (hNot _ (by decide) (by decide)),
      cstr_of_notMem (hNot 0 (by decide) (by decide))]
  have hPrefix : (bytes "urn:btih:").isPrefixOf (bytes "urn:btih:" ++ hexdump info_hash.digest) :=
    List.isPrefixOf_iff_prefix.mpr (List.prefix_append _ _)
  have hRest : (bytes "urn:btih:" ++ hexdump info_hash.digest).drop 9 = hexdump info_hash.digest :=
    List.drop_left' (by decide)
  have hForty : (hexdump info_hash.digest).length = 40 := by
    rw [length_hexdump, info_hash.length_eq]
  rw [hText, parseParam_eq (by decide), if_pos rfl, hDecoded, if_neg (not_not_intro hPrefix), hRest,
    parseBtih, if_pos hForty, hexDecode_hexdump]
  exact if_neg (not_not_intro info_hash.length_eq)

theorem parseParam_xl (total_length : Int) :
    parseParam env t (bytes "xl=" ++ lld total_length) = .ok t := by
  have hText : bytes "xl=" ++ lld total_length = bytes "xl" ++ ch '=' :: lld total_length := rfl
  rw [hText, parseParam_eq (by decide), if_neg (by decide), if_neg (by decide),
    if_neg (by decide)]

theorem parseParam_dn {name : Bytes} (h : 0 ∉ name) :
    parseParam env t (bytes "dn=" ++ urlEncode urlPathUnsafe false name)
      = .ok { t with name := some name } := by
  have hText : bytes "dn=" ++ urlEncode urlPathUnsafe false name
      = bytes "dn" ++ ch '=' :: urlEncode urlPathUnsafe false name := rfl
  rw [hText, parseParam_eq (by decide), if_neg (by decide), if_neg (by decide), if_pos rfl,
    urlDecode_encode false (by decide) (fun _ => by decide), cstr_of_notMem h]

/-! ## The round trip -/

/-- What the parser makes of a printed link. -/
theorem openMagnet_magnet (info_hash : InfoHash) (total_length : Int) {name : Bytes}
    (h : 0 ∉ name) :
    ∃ t', openMagnet env t (magnet info_hash total_length name) = some t' ∧
      t'.info_hash = some info_hash.digest ∧ t'.name = some name := by
  have hPrefix : (bytes "magnet:?").isPrefixOf (magnet info_hash total_length name) := by
    have hText : bytes "magnet:?xt=urn:btih:" = bytes "magnet:?" ++ bytes "xt=urn:btih:" := by
      decide
    rw [magnet, hText]
    simp only [List.append_assoc]
    exact List.isPrefixOf_iff_prefix.mpr (List.prefix_append _ _)
  have hLoop : (params ((magnet info_hash total_length name).drop 8)).foldlM (parseParam env) t
      = .ok { t with info_hash := some info_hash.digest, name := some name } := by
    rw [params_magnet]
    simp only [List.foldlM_cons, List.foldlM_nil, parseParam_xt, parseParam_xl, parseParam_dn h]
    rfl
  rw [openMagnet, if_pos hPrefix, ParseMagnet, hLoop]
  refine ⟨_, rfl, ?_⟩
  cases hFound : env.found info_hash.digest <;> simp [hFound, Torrent.setError]

/-- Encoding and decoding, and what follows for magnet links. -/
theorem magnet_round_trip :
    (∀ (unsafe8 : Bytes) (allow8bit plus : Bool) (s : Bytes), ch '%' ∈ unsafe8 →
      (plus = true → ch '+' ∈ unsafe8) → urlDecode plus (urlEncode unsafe8 allow8bit s) = s) ∧
    ∀ (env : Env) (t : Torrent) (info_hash : InfoHash) (total_length : Int) (name : Bytes),
      0 ∉ name → ∃ t', openMagnet env t (magnet info_hash total_length name) = some t' ∧
        t'.info_hash = some info_hash.digest ∧ t'.name = some name :=
  ⟨fun _ allow8bit _ s hPercent hPlus => urlDecode_encode allow8bit hPercent hPlus s,
    fun _ _ info_hash total_length _ h => openMagnet_magnet info_hash total_length h⟩

end Lftp.Ports.Magnet
