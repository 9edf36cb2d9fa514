import Lftp.Ports.LongList
import Lftp.Ports.Url
import Lftp.Verified.Nesting
import Lftp.Verified.Runs

/-!
# The answer to PROPFIND

`xml_context` makes files of the events of an XML document: `push` for a start tag, `pop` for an end
tag, and `chardata_handle` for text, which may come in pieces. There is one file that is being made,
one text, and the stack of open elements.

A `Doc` is what the events say: the open elements with their text, and for each response that is
closed its entry. `entries_exact`: the files are those of the document as long as the steps are
`Clean`. They are not where

* a response begins in another, or after one that got no name: the file is deleted twice;
* `DAV:collection`, or the end of a property with text, is met when there is no file;
* an element begins in a `DAV:href` behind a part of its text, which is then lost;
* a `DAV:href` has no path, or one that ends in two slashes or has a zero byte in it;
* a `DAV:href` without a slash comes after `DAV:collection`: it makes a plain file of it;
* the base directory itself has no slash in its `DAV:href`, or is `/`: its name is not `.`.
-/

namespace Lftp.Ports.HttpDirXML

open Lftp.Verified
open Lftp.Ports.FileSets (FileInfo FileType basenamePtr slash)
open Lftp.Ports.FtpListInfo (blankInfo chomp scanLong setName)

/-! ## The handlers -/

def response : Bytes := bytes "DAV:response"
def collection : Bytes := bytes "DAV:collection"
def href : Bytes := bytes "DAV:href"
def getcontentlength : Bytes := bytes "DAV:getcontentlength"
def getlastmodified : Bytes := bytes "DAV:getlastmodified"
def creatorDisplayname : Bytes := bytes "DAV:creator-displayname"
def executable : Bytes := bytes "http://apache.org/dav/props/executable"

/-- What the handlers use of other code: `atotm` gives no value for `ATOTM_ERROR`. -/
structure Env where
  names : Url.Names
  atotm : Bytes → Option Int

/-- `stack` starts with its top. `added` is what was given to `fs->Add`, which merges files of one
name. -/
structure XmlContext where
  stack : List Bytes
  added : List FileInfo
  fi : Option FileInfo
  baseDir : Bytes
  chardata : Bytes

def setBaseDir (d : Bytes) : Bytes := if d.length > 1 then chomp slash d else d

namespace XmlContext

/-- `in(tag)` -/
def within (c : XmlContext) (tag : Bytes) : Bool := c.stack.head? = some tag

/-- `in(tag0,tag1)` -/
def within₂ (c : XmlContext) (tag₀ tag₁ : Bytes) : Bool := c.within tag₀ && c.stack[1]? = some tag₁

/-- The methods of `fi`; none can be called without a file. -/
def onFile (f : FileInfo → Option FileInfo) (c : XmlContext) : Option XmlContext :=
  match c.fi with
  | none => none
  | some fi => (f fi).map fun fi => { c with fi := some fi }

/-- `delete fi; fi=new FileInfo`: a file that is there is deleted twice. -/
def renew (c : XmlContext) : Option XmlContext :=
  match c.fi with
  | some _ => none
  | none => some { c with fi := some blankInfo }

def push (s : Bytes) (c : XmlContext) : Option XmlContext :=
  let c := { c with stack := s :: c.stack }
  let c? :=
    if c.within response then c.renew
    else if c.within collection then
      c.onFile fun fi => some ((fi.setType .directory).setMode 0o755)
    else some c
  c?.map fun c => { c with chardata := [] }

/-- The name for a path. -/
def fileName (baseDir s : Bytes) (isDirectory : Bool) : Bytes :=
  let s := if (bytes "/~").isPrefixOf s then s.drop 1 else s
  if baseDir = s && isDirectory then bytes "." else basenamePtr (cstr s)

/-- What a `DAV:href` of a response does; `basename_ptr` is not to be called without a path. -/
def setHref (env : Env) (baseDir chardata : Bytes) (fi : FileInfo) : Option FileInfo :=
  match (Url.parse env.names true true chardata).path with
  | none => none
  | some s =>
    let isDirectory : Bool := s.getLast? = some slash
    let fi :=
      if isDirectory then (fi.setType .directory).setMode 0o755
      else (fi.setType .normal).setMode 0o644
    some (setName fi (fileName baseDir (chomp slash s) isDirectory))

def processChardata (env : Env) (c : XmlContext) : Option XmlContext :=
  if c.within₂ href response then c.onFile (setHref env c.baseDir c.chardata)
  else if c.within getcontentlength then
    match scanLong c.chardata with
    | some (size, _) => c.onFile fun fi => some (fi.setSize size)
    | none => some c
  else if c.within getlastmodified then
    match env.atotm c.chardata with
    | some tm => c.onFile fun fi => some (fi.setDate tm 0)
    | none => some c
  else if c.within creatorDisplayname then c.onFile fun fi => some (fi.setUser (some c.chardata))
  else if c.within executable then
    if c.chardata.head? = some (ch 'T') then c.onFile fun fi => some (fi.setMode 0o755)
    else if c.chardata.head? = some (ch 'F') then c.onFile fun fi => some (fi.setMode 0o644)
    else some c
  else some c

/-- A file with a name is borrowed by the set. -/
def add (c : XmlContext) : XmlContext :=
  match c.fi with
  | none => c
  | some fi =>
    if fi.has FileSets.Defined.name then { c with added := c.added ++ [fi], fi := none } else c

def pop (env : Env) (c : XmlContext) : Option XmlContext :=
  let c? := if c.chardata ≠ [] then c.processChardata env else some c
  match c? with
  | none => none
  | some c =>
    let c := if c.within response then c.add else c
    match c.stack with
    | [] => none
    | _ :: below => some { c with stack := below }

def chardataHandle (chardata : Bytes) (c : XmlContext) : XmlContext :=
  if c.fi.isNone then c else { c with chardata := c.chardata ++ chardata }

/-- The events of the parser: `start_handle`, `end_handle` and `chardata_handle`. -/
abbrev Event := Mark Bytes Bytes

def handle (env : Env) (c : XmlContext) : Event → Option XmlContext
  | .enter el => c.push el
  | .exit => c.pop env
  | .item text => some (c.chardataHandle text)

end XmlContext

/-! ## What the document says -/

/-- A response as far as it was read: the text of its last `DAV:href` that is not empty, and whether
there is a `DAV:collection` in it. -/
structure Response where
  href : Option Bytes
  collection : Bool

/-- The open elements, innermost first, with the text in them. `nameless` when the last response
that was closed had no `DAV:href` with a text. An entry is a name, and whether it is a directory. -/
structure Doc where
  elements : List (Bytes × Bytes)
  responses : List Response
  nameless : Bool
  entries : List (Bytes × Bool)

/-- A path that begins with `/~` is one that begins with `~`. -/
def untilde (p : Bytes) : Bytes := if (bytes "/~").isPrefixOf p then p.drop 1 else p

/-- The path of the base directory, but for slashes at the end. -/
def isBase (base p : Bytes) : Bool := untilde (chomp slash p) = chomp slash base

def lastComponent (p : Bytes) : Bytes := p.rtakeWhile (· ≠ slash)

def endsInSlash (p : Bytes) : Bool := p.getLast? = some slash

def entryName (base p : Bytes) (isDirectory : Bool) : Bytes :=
  if isDirectory && isBase base p then bytes "." else lastComponent (chomp slash p)

section

variable (env : Env) (base : Bytes)

/-- The path of a `DAV:href`. -/
def pathOf (text : Bytes) : Option Bytes := (Url.parse env.names true true text).path

/-- The entry of a response with a path. -/
def Response.entry (r : Response) : Option (Bytes × Bool) :=
  (r.href.bind (pathOf env)).map fun p =>
    (entryName base p (endsInSlash p || r.collection), endsInSlash p || r.collection)

/-- The text of a `DAV:href` of a response that is the innermost element. -/
def closingHref : List (Bytes × Bytes) → Option Bytes
  | (el, text) :: (el', _) :: _ => if el = href ∧ el' = response then some text else none
  | _ => none

/-- The text of the `DAV:href` of a response that is open. -/
def hrefText : List (Bytes × Bytes) → Option Bytes
  | [] => none
  | e :: rest => (closingHref (e :: rest)).or (hrefText rest)

namespace Doc

def start : Doc := ⟨[], [], false, []⟩

def enter (el : Bytes) (d : Doc) : Doc :=
  { d with
    elements := (el, []) :: d.elements
    responses :=
      if el = response then ⟨none, false⟩ :: d.responses
      else if el = collection then d.responses.map ({ · with collection := true })
      else d.responses }

def text (s : Bytes) (d : Doc) : Doc :=
  { d with elements := d.elements.map fun e => (e.1, e.2 ++ s) }

def exit (d : Doc) : Doc :=
  match d.elements with
  | [] => d
  | (el, _) :: rest =>
    let d' := { d with elements := rest }
    match d.responses with
    | [] => d'
    | r :: rs =>
      if el = response then
        { d' with
          responses := rs, nameless := r.href.isNone
          entries := d.entries ++ (r.entry env base).toList }
      else
        match closingHref d.elements with
        | some (c :: s) => { d' with responses := { r with href := some (c :: s) } :: rs }
        | _ => d'

def next (d : Doc) : XmlContext.Event → Doc
  | .enter el => d.enter el
  | .exit => d.exit env base
  | .item s => d.text s

end Doc

/-! ## Runs -/

/-- The handlers, with no value when memory is misused, and what was read of the document. -/
structure Run where
  context : Option XmlContext
  doc : Doc

def Run.start : Run := ⟨some ⟨[], [], none, setBaseDir base, []⟩, .start⟩

def Run.step (w : Run) (e : XmlContext.Event) : Run :=
  ⟨w.context.bind (XmlContext.handle env · e), w.doc.next env base e⟩

/-- The files that were added are the entries. -/
def Run.Exact (w : Run) : Prop :=
  ∃ c, w.context = some c
    ∧ c.added.map (fun f => (f.name, f.typeIs .directory)) = w.doc.entries

/-- A path whose last component is its name. -/
structure Plain (p : Bytes) : Prop where
  zero : 0 ∉ p
  single : (chomp slash p).getLast? ≠ some slash
  root : base = [slash] → p ≠ [slash]

/-- There is a file: that of an open response, or what is left of one without a name. -/
def Doc.HasFile (d : Doc) : Prop := d.responses ≠ [] ∨ d.nameless = true

/-- Properties whose text is used. -/
def takes (el text : Bytes) : Bool :=
  el = getcontentlength && (scanLong text).isSome || el = getlastmodified && (env.atotm text).isSome
    || el = creatorDisplayname
    || el = executable && (text.head? = some (ch 'T') || text.head? = some (ch 'F'))

/-- A start tag that the handlers are made for. -/
structure CleanEnter (d : Doc) (el : Bytes) : Prop where
  response : el = response → ¬d.HasFile
  collection : el = collection → d.HasFile
  text : ∀ s ∈ hrefText d.elements, s = []

/-- An end tag that the handlers are made for. -/
structure CleanExit (d : Doc) (chardata : Bytes) : Prop where
  href : ∀ s ∈ closingHref d.elements, s ≠ [] → ∃ p ∈ pathOf env s, Plain base p
    ∧ ∀ r ∈ d.responses.head?, r.collection = true → endsInSlash p = true
  dot : ∀ e ∈ d.elements.head?, e.1 = response → ∀ r ∈ d.responses.head?,
    ∀ p ∈ r.href.bind (pathOf env), r.collection = true → endsInSlash p = false →
      isBase base p = false
  property : ∀ e ∈ d.elements.head?, chardata ≠ [] → takes env e.1 chardata = true → d.HasFile

def Clean (w : Run) : XmlContext.Event → Prop
  | .enter el => CleanEnter w.doc el
  | .exit => ∀ c ∈ w.context, CleanExit env base w.doc c.chardata
  | .item _ => True

instance (p : Bytes) : Decidable (Plain base p) :=
  decidable_of_iff (0 ∉ p ∧ (chomp slash p).getLast? ≠ some slash ∧ (base = [slash] → p ≠ [slash]))
    ⟨fun ⟨hZero, hSingle, hRoot⟩ => ⟨hZero, hSingle, hRoot⟩, fun h => ⟨h.zero, h.single, h.root⟩⟩

instance (d : Doc) : Decidable d.HasFile := inferInstanceAs (Decidable (_ ∨ _))

instance (d : Doc) (el : Bytes) : Decidable (CleanEnter d el) :=
  decidable_of_iff ((el = response → ¬d.HasFile) ∧ (el = collection → d.HasFile)
      ∧ ∀ s ∈ hrefText d.elements, s = [])
    ⟨fun ⟨hResponse, hCollection, hText⟩ => ⟨hResponse, hCollection, hText⟩,
      fun h => ⟨h.response, h.collection, h.text⟩⟩

instance (d : Doc) (chardata : Bytes) : Decidable (CleanExit env base d chardata) :=
  decidable_of_iff ((∀ s ∈ closingHref d.elements, s ≠ [] → ∃ p ∈ pathOf env s, Plain base p
        ∧ ∀ r ∈ d.responses.head?, r.collection = true → endsInSlash p = true)
      ∧ (∀ e ∈ d.elements.head?, e.1 = response → ∀ r ∈ d.responses.head?,
        ∀ p ∈ r.href.bind (pathOf env), r.collection = true → endsInSlash p = false →
          isBase base p = false)
      ∧ ∀ e ∈ d.elements.head?, chardata ≠ [] → takes env e.1 chardata = true → d.HasFile)
    ⟨fun ⟨hHref, hDot, hProperty⟩ => ⟨hHref, hDot, hProperty⟩,
      fun h => ⟨h.href, h.dot, h.property⟩⟩

instance (w : Run) : ∀ e, Decidable (Clean env base w e)
  | .enter el => inferInstanceAs (Decidable (CleanEnter w.doc el))
  | .exit => inferInstanceAs (Decidable (∀ c ∈ w.context, CleanExit env base w.doc c.chardata))
  | .item _ => inferInstanceAs (Decidable True)

end

/-! ## Names -/

theorem rtakeWhile_cons_slash (v : Bytes) :
    (slash :: v).rtakeWhile (· ≠ slash) = v.rtakeWhile (· ≠ slash) := by
  unfold List.rtakeWhile
  rw [List.reverse_cons, List.takeWhile_append]
  split
  · next h =>
    have hAll : v.reverse.takeWhile (· ≠ slash) = v.reverse :=
      (List.takeWhile_prefix _).eq_of_length h
    have hSlash : [slash].takeWhile (· ≠ slash) = [] := rfl
    rw [hAll, hSlash, List.append_nil]
  · rfl

theorem lastComponent_untilde (s : Bytes) : lastComponent (untilde s) = lastComponent s := by
  unfold untilde
  split
  · next h =>
    obtain ⟨t, rfl⟩ := List.isPrefixOf_iff_prefix.mp h
    exact (rtakeWhile_cons_slash (ch '~' :: t)).symm
  · rfl

theorem getLast?_untilde {s : Bytes} (h : s.getLast? ≠ some slash) :
    (untilde s).getLast? ≠ some slash := by
  unfold untilde
  split
  · next hPrefix =>
    obtain ⟨t, rfl⟩ := List.isPrefixOf_iff_prefix.mp hPrefix
    exact fun hLast => h (by rw [← hLast]; rfl)
  · exact h

theorem basenamePtr_eq {s : Bytes} (h : s.getLast? ≠ some slash) :
    basenamePtr s = lastComponent s := by
  have hSame : s.rdropWhile (· = slash) = s := by
    rcases List.eq_nil_or_concat s with rfl | ⟨t, c, rfl⟩
    · rfl
    · rw [List.concat_eq_append] at h ⊢
      rw [List.rdropWhile_concat_neg]
      intro hc
      exact h (by rw [List.getLast?_concat, of_decide_eq_true hc])
  unfold basenamePtr lastComponent
  dsimp only
  rw [hSame]
  exact (List.suffix_iff_eq_drop.mp (List.rtakeWhile_suffix _ s)).symm

theorem chomp_eq_nil {p : Bytes} (h : chomp slash p = []) (hp : p ≠ []) : p = [slash] := by
  unfold chomp at h
  split at h
  · next hLast =>
    rcases List.eq_nil_or_concat p with rfl | ⟨t, c, rfl⟩
    · exact absurd rfl hp
    · rw [List.concat_eq_append] at h hLast ⊢
      rw [List.dropLast_concat] at h
      rw [List.getLast?_concat] at hLast
      rw [h, Option.some.inj hLast]
      rfl
  · exact absurd h hp

theorem setBaseDir_eq {d : Bytes} (h : d ≠ [slash]) : setBaseDir d = chomp slash d := by
  unfold setBaseDir
  split
  · rfl
  · next hShort =>
    match d with
    | [] => rfl
    | [c] =>
        have hc : c ≠ slash := fun hEq => h (by rw [hEq])
        unfold chomp
        rw [if_neg]
        exact fun hLast => hc (Option.some.inj hLast)
    | c :: e :: t => exact absurd (by simp) hShort

theorem untilde_ne_nil {s : Bytes} (h : s ≠ []) : untilde s ≠ [] := by
  unfold untilde
  split
  · next hPrefix =>
    obtain ⟨t, rfl⟩ := List.isPrefixOf_iff_prefix.mp hPrefix
    exact List.cons_ne_nil _ _
  · exact h

/-- The base directory is told from others, when the path has a slash at its end. -/
theorem setBaseDir_iff {base p : Bytes} (hPlain : Plain base p) (hSlash : endsInSlash p = true) :
    setBaseDir base = untilde (chomp slash p) ↔ isBase base p = true := by
  unfold isBase
  rw [decide_eq_true_iff]
  by_cases hBase : base = [slash]
  · have hNe : p ≠ [] := by
      rintro rfl
      cases hSlash
    have hStem : chomp slash p ≠ [] := fun hNil => hPlain.root hBase (chomp_eq_nil hNil hNe)
    have hLast := getLast?_untilde hPlain.single
    subst hBase
    constructor
    · intro hEq
      exact absurd (by rw [← hEq]; rfl) hLast
    · intro hEq
      exact absurd hEq (untilde_ne_nil hStem)
  · rw [setBaseDir_eq hBase]
    exact eq_comm

/-- The name that a file gets. -/
theorem fileName_eq {base p : Bytes} {collected : Bool} (hPlain : Plain base p)
    (hDot : collected = true → endsInSlash p = false → isBase base p = false) :
    XmlContext.fileName (setBaseDir base) (chomp slash p) (endsInSlash p)
      = entryName base p (endsInSlash p || collected) := by
  have hZero : (0 : UInt8) ∉ untilde (chomp slash p) := by
    have hStem : (0 : UInt8) ∉ chomp slash p := by
      unfold chomp
      split
      · exact fun hMem => hPlain.zero (List.mem_of_mem_dropLast hMem)
      · exact hPlain.zero
    unfold untilde
    split
    · exact fun hMem => hStem (List.mem_of_mem_drop hMem)
    · exact hStem
  have hName : basenamePtr (cstr (untilde (chomp slash p))) = lastComponent (chomp slash p) := by
    rw [cstr_of_notMem hZero, basenamePtr_eq (getLast?_untilde hPlain.single),
      lastComponent_untilde]
  unfold XmlContext.fileName entryName
  show (if (setBaseDir base = untilde (chomp slash p) && endsInSlash p) = true then bytes "."
    else basenamePtr (cstr (untilde (chomp slash p)))) = _
  rw [hName]
  cases hSlash : endsInSlash p with
  | true =>
      have hIff := setBaseDir_iff hPlain hSlash
      by_cases hEq : setBaseDir base = untilde (chomp slash p)
      · simp [hEq, hIff.mp hEq]
      · have hNot : isBase base p = false := eq_false_of_ne_true fun h => hEq (hIff.mpr h)
        simp [hEq, hNot]
  | false =>
      cases collected with
      | true => simp [hDot rfl hSlash]
      | false => simp

/-! ## Files -/

/-- Files with the same name and type. -/
structure Alike (f g : FileInfo) : Prop where
  name : g.name = f.name
  named : g.has FileSets.Defined.name = f.has FileSets.Defined.name
  dir : g.typeIs .directory = f.typeIs .directory

section

variable {f g : FileInfo}

theorem has_define (f : FileInfo) (m x : Nat) :
    (f.define m).has x = (f.has x || FileSets.bit m x) := FileInfo.bit_or f.defined m x

theorem Alike.refl (f : FileInfo) : Alike f f := ⟨rfl, rfl, rfl⟩

/-- A change that defines neither the name nor the type. -/
theorem alike_define {m : Nat} (hName : g.name = f.name) (hType : g.filetype = f.filetype)
    (hDefined : g.defined = f.defined) (hNot : FileSets.bit m FileSets.Defined.name = false)
    (hNot' : FileSets.bit m FileSets.Defined.type = false) : Alike f (g.define m) := by
  have hHas : ∀ x, g.has x = f.has x := fun x => congrArg (FileSets.bit · x) hDefined
  refine ⟨hName, ?_, ?_⟩
  · rw [has_define, hNot, Bool.or_false, hHas]
  · have hSame : (g.define m).filetype = f.filetype := hType
    unfold FileInfo.typeIs
    rw [has_define, hNot', Bool.or_false, hHas, hSame]

theorem alike_setMode (f : FileInfo) (m : Nat) : Alike f (f.setMode m) :=
  alike_define rfl rfl rfl rfl rfl

theorem alike_setDate (f : FileInfo) (t prec : Int) : Alike f (f.setDate t prec) :=
  alike_define rfl rfl rfl rfl rfl

theorem alike_setSize (f : FileInfo) (n : Int) : Alike f (f.setSize n) :=
  alike_define rfl rfl rfl rfl rfl

theorem alike_setUser (f : FileInfo) (u : Option Bytes) : Alike f (f.setUser u) := by
  unfold FileInfo.setUser
  split
  · exact .refl f
  · exact alike_define rfl rfl rfl rfl rfl

theorem named_setType (f : FileInfo) (t : FileType) :
    (f.setType t).has FileSets.Defined.name = f.has FileSets.Defined.name := by
  unfold FileInfo.setType
  rw [has_define]
  exact Bool.or_false _

theorem dir_setType (f : FileInfo) (t : FileType) :
    (f.setType t).typeIs .directory = decide (t = .directory) := by
  unfold FileInfo.setType FileInfo.typeIs
  rw [has_define]
  have hBit : FileSets.bit FileSets.Defined.type FileSets.Defined.type = true := rfl
  rw [hBit, Bool.or_true, Bool.true_and]
  rfl

theorem dir_setName (f : FileInfo) (n : Bytes) :
    (setName f n).typeIs .directory = f.typeIs .directory := by
  unfold setName FileInfo.typeIs
  rw [has_define]
  have hBit : FileSets.bit FileSets.Defined.name FileSets.Defined.type = false := rfl
  rw [hBit, Bool.or_false]
  rfl

theorem named_setName (f : FileInfo) (n : Bytes) :
    (setName f n).has FileSets.Defined.name = true := by
  unfold setName
  rw [has_define]
  exact Bool.or_true _

end

/-! ## The elements that are open -/

section

variable {els : List (Bytes × Bytes)} {e : Bytes × Bytes} {s : Bytes}

/-- How many responses are open. -/
def openResponses (els : List (Bytes × Bytes)) : Nat := els.countP (·.1 = response)

theorem openResponses_cons (e : Bytes × Bytes) (els : List (Bytes × Bytes)) :
    openResponses (e :: els) = openResponses els + if e.1 = response then 1 else 0 := by
  unfold openResponses
  rw [List.countP_cons]
  simp only [decide_eq_true_eq]

theorem closingHref_eq_some {text : Bytes} (h : closingHref els = some text) :
    ∃ outer rest, els = (href, text) :: (response, outer) :: rest := by
  match els with
  | [] => cases h
  | [e] => cases h
  | (el, t) :: (el', t') :: rest =>
      rw [closingHref] at h
      by_cases hTags : el = href ∧ el' = response
      · rw [if_pos hTags] at h
        obtain ⟨rfl, rfl⟩ := hTags
        obtain rfl := Option.some.inj h
        exact ⟨t', rest, rfl⟩
      · rw [if_neg hTags] at h
        cases h

theorem openResponses_of_hrefText (h : hrefText els = some s) : 0 < openResponses els := by
  induction els with
  | nil => cases h
  | cons e rest ih =>
      unfold hrefText at h
      cases hClosing : closingHref (e :: rest) with
      | some text =>
          obtain ⟨outer, rest', hEls⟩ := closingHref_eq_some hClosing
          rw [hEls, openResponses_cons, openResponses_cons, if_pos rfl]
          omega
      | none =>
          rw [hClosing, Option.none_or] at h
          have hRest := ih h
          rw [openResponses_cons]
          omega

theorem closingHref_text (els : List (Bytes × Bytes)) (s : Bytes) :
    closingHref (els.map fun e => (e.1, e.2 ++ s)) = (closingHref els).map (· ++ s) := by
  match els with
  | [] => rfl
  | [e] => rfl
  | (el, t) :: (el', t') :: rest =>
      rw [List.map_cons, List.map_cons, closingHref, closingHref]
      split <;> rfl

theorem hrefText_text (els : List (Bytes × Bytes)) (s : Bytes) :
    hrefText (els.map fun e => (e.1, e.2 ++ s)) = (hrefText els).map (· ++ s) := by
  induction els with
  | nil => rfl
  | cons e rest ih =>
      have hClosing := closingHref_text (e :: rest) s
      rw [List.map_cons] at hClosing
      rw [List.map_cons, hrefText, hrefText, hClosing, ih]
      cases closingHref (e :: rest) <;> rfl

theorem openResponses_text (els : List (Bytes × Bytes)) (s : Bytes) :
    openResponses (els.map fun e => (e.1, e.2 ++ s)) = openResponses els := by
  unfold openResponses
  rw [List.countP_map]
  rfl

end

/-! ## The invariant -/

section

variable {env : Env} {base : Bytes} {r : Response} {d : Doc} {f g : FileInfo}
  {fi fi' : Option FileInfo}
  {c : XmlContext} {el : Bytes}

/-- The file has what was read of the response. -/
structure Matches (env : Env) (base : Bytes) (r : Response) (f : FileInfo) : Prop where
  named : f.has FileSets.Defined.name = r.href.isSome
  dir : r.href = none → r.collection = true → f.typeIs .directory = true
  entry : ∀ s ∈ r.href, ∃ p, pathOf env s = some p ∧ Plain base p
    ∧ f.name = XmlContext.fileName (setBaseDir base) (chomp slash p) (endsInSlash p)
    ∧ f.typeIs .directory = (endsInSlash p || r.collection)

theorem Matches.alike (h : Matches env base r f) (hg : Alike f g) : Matches env base r g where
  named := hg.named.trans h.named
  dir := fun hNone hCollection => hg.dir.trans (h.dir hNone hCollection)
  entry := fun s hs => by
    obtain ⟨p, hPath, hPlain, hName, hDir⟩ := h.entry s hs
    exact ⟨p, hPath, hPlain, hg.name.trans hName, hg.dir.trans hDir⟩

/-- What `fi` is. -/
def FileOf (env : Env) (base : Bytes) (d : Doc) (fi : Option FileInfo) : Prop :=
  match d.responses with
  | [] => fi.isSome = d.nameless
  | r :: _ => ∃ f, fi = some f ∧ Matches env base r f

theorem FileOf.alike (h : FileOf env base d fi) (hAlike : Option.Rel Alike fi fi') :
    FileOf env base d fi' := by
  unfold FileOf at h ⊢
  cases hResponses : d.responses with
  | nil =>
      rw [hResponses] at h
      cases hAlike with
      | none => exact h
      | some _ => exact h
  | cons r rs =>
      rw [hResponses] at h
      obtain ⟨f, rfl, hMatches⟩ := h
      cases hAlike with
      | some hAlike => exact ⟨_, rfl, hMatches.alike hAlike⟩

theorem FileOf.hasFile_iff (h : FileOf env base d fi) : d.HasFile ↔ fi.isSome = true := by
  unfold FileOf at h
  unfold Doc.HasFile
  cases hResponses : d.responses with
  | nil =>
      rw [hResponses] at h
      simp [h]
  | cons r rs =>
      rw [hResponses] at h
      obtain ⟨f, rfl, -⟩ := h
      simp

/-- The handlers have what the document says. -/
structure Inv (env : Env) (base : Bytes) (d : Doc) (c : XmlContext) : Prop where
  stack : c.stack = d.elements.map Prod.fst
  baseDir : c.baseDir = setBaseDir base
  added : c.added.map (fun f => (f.name, f.typeIs .directory)) = d.entries
  text : ∀ s ∈ hrefText d.elements, c.chardata = s
  count : openResponses d.elements = d.responses.length
  single : d.responses.length ≤ 1
  file : FileOf env base d c.fi

theorem inv_start (env : Env) (base : Bytes) :
    Inv env base .start ⟨[], [], none, setBaseDir base, []⟩ where
  stack := rfl
  baseDir := rfl
  added := rfl
  text := nofun
  count := rfl
  single := Nat.zero_le 1
  file := rfl

/-- Text goes to the elements that are open, and to a file. -/
theorem Inv.text_step (h : Inv env base d c) (s : Bytes) :
    Inv env base (d.text s) (c.chardataHandle s) := by
  have hCount : openResponses (d.text s).elements = d.responses.length :=
    (openResponses_text d.elements s).trans h.count
  have hStack : c.stack = (d.text s).elements.map Prod.fst := by
    rw [h.stack, Doc.text, List.map_map]
    rfl
  unfold XmlContext.chardataHandle
  cases hFile : c.fi with
  | none =>
      rw [Option.isNone_none, if_pos rfl]
      refine ⟨hStack, h.baseDir, h.added, fun t ht => ?_, hCount, h.single, h.file⟩
      have hNone : ¬d.HasFile := by simp [h.file.hasFile_iff, hFile]
      have hOpen := openResponses_of_hrefText ht
      rw [hCount] at hOpen
      exact absurd (.inl (List.ne_nil_of_length_pos hOpen)) hNone
  | some f =>
      rw [if_neg (by simp)]
      refine ⟨hStack, h.baseDir, h.added, fun t ht => ?_, hCount, h.single, hFile ▸ h.file⟩
      have hText := hrefText_text d.elements s
      change hrefText (d.text s).elements = _ at hText
      rw [Option.mem_def, hText] at ht
      obtain ⟨t', ht', rfl⟩ := Option.map_eq_some_iff.mp ht
      rw [h.text t' ht']

/-- What a start tag does to the text of a `DAV:href`. -/
theorem hrefText_enter {els : List (Bytes × Bytes)} (h : ∀ s ∈ hrefText els, s = []) :
    ∀ s ∈ hrefText ((el, []) :: els), ([] : Bytes) = s := by
  intro s hs
  rw [Option.mem_def, hrefText] at hs
  cases hClosing : closingHref ((el, []) :: els) with
  | some text =>
      obtain ⟨outer, rest, hEls⟩ := closingHref_eq_some hClosing
      rw [hClosing, Option.some_or] at hs
      obtain ⟨⟨rfl, rfl⟩, -⟩ :
          ((el, ([] : Bytes)) = (href, text)) ∧ els = (response, outer) :: rest := by
        simpa using hEls
      exact Option.some.inj hs
  | none =>
      rw [hClosing, Option.none_or] at hs
      exact (h s hs).symm

theorem matches_blank : Matches env base ⟨none, false⟩ blankInfo := ⟨rfl, nofun, nofun⟩

/-- `DAV:collection` makes the file a directory. -/
theorem Matches.collect (h : Matches env base r f) :
    Matches env base { r with collection := true } ((f.setType .directory).setMode 0o755) := by
  have hMode := alike_setMode (f.setType .directory) 0o755
  refine ⟨?_, fun _ _ => ?_, fun s hs => ?_⟩
  · rw [hMode.named, named_setType, h.named]
  · rw [hMode.dir, dir_setType]
    rfl
  · obtain ⟨p, hPath, hPlain, hName, -⟩ := h.entry s hs
    refine ⟨p, hPath, hPlain, hMode.name.trans hName, ?_⟩
    rw [hMode.dir, dir_setType, Bool.or_true]
    rfl

/-- A start tag. -/
theorem Inv.enter_step (h : Inv env base d c) (hClean : CleanEnter d el) :
    ∃ c', c.push el = some c' ∧ Inv env base (d.enter el) c' := by
  have hText : ∀ s ∈ hrefText ((el, []) :: d.elements), ([] : Bytes) = s :=
    hrefText_enter hClean.text
  have hStack : el :: c.stack = (d.enter el).elements.map Prod.fst := by
    rw [h.stack]
    rfl
  by_cases hResponse : el = response
  · have hNo := hClean.response hResponse
    have hFile : c.fi = none := by
      rw [← Option.not_isSome_iff_eq_none, ← h.file.hasFile_iff]
      exact hNo
    have hNil : d.responses = [] := by
      by_contra hNe
      exact hNo (.inl hNe)
    refine ⟨⟨el :: c.stack, c.added, some blankInfo, c.baseDir, []⟩, ?_, ?_⟩
    · simp [XmlContext.push, XmlContext.within, XmlContext.renew, hResponse, hFile]
    · have hNew : (d.enter el).responses = [⟨none, false⟩] := by
        rw [Doc.enter]
        simp only [if_pos hResponse, hNil]
      refine ⟨hStack, h.baseDir, h.added, hText, ?_, ?_, ?_⟩
      · show openResponses ((el, []) :: d.elements) = _
        rw [openResponses_cons, if_pos hResponse, h.count, hNil, hNew]
        rfl
      · rw [hNew]
        exact le_rfl
      · unfold FileOf
        rw [hNew]
        exact ⟨_, rfl, matches_blank⟩
  · have hCount : openResponses (d.enter el).elements = openResponses d.elements := by
      show openResponses ((el, []) :: d.elements) = _
      rw [openResponses_cons, if_neg hResponse, Nat.add_zero]
    by_cases hCollection : el = collection
    · have hSome := h.file.hasFile_iff.mp (hClean.collection hCollection)
      obtain ⟨f, hFile⟩ := Option.isSome_iff_exists.mp hSome
      have hNew : (d.enter el).responses = d.responses.map ({ · with collection := true }) := by
        rw [Doc.enter]
        simp only [if_neg hResponse, if_pos hCollection]
      have hLength : (d.enter el).responses.length = d.responses.length := by
        rw [hNew, List.length_map]
      refine ⟨⟨el :: c.stack, c.added, some ((f.setType .directory).setMode 0o755), c.baseDir, []⟩,
        ?_, hStack, h.baseDir, h.added, hText, ?_, ?_, ?_⟩
      · have hNot : collection ≠ response := hCollection ▸ hResponse
        simp [XmlContext.push, XmlContext.within, XmlContext.onFile, hCollection, hFile, hNot]
      · rw [hCount, h.count, hLength]
      · rw [hLength]
        exact h.single
      · have hOld := h.file
        unfold FileOf at hOld ⊢
        rw [hNew]
        cases hResponses : d.responses with
        | nil =>
            rw [hResponses] at hOld
            rw [hFile] at hOld
            exact hOld
        | cons r rs =>
            rw [hResponses] at hOld
            obtain ⟨f', hf', hMatches⟩ := hOld
            obtain rfl := Option.some.inj (hFile.symm.trans hf')
            exact ⟨_, rfl, hMatches.collect⟩
    · have hNew : (d.enter el).responses = d.responses := by
        rw [Doc.enter]
        simp only [if_neg hResponse, if_neg hCollection]
      refine ⟨⟨el :: c.stack, c.added, c.fi, c.baseDir, []⟩, ?_, hStack, h.baseDir, h.added, hText,
        ?_, ?_, ?_⟩
      · simp [XmlContext.push, XmlContext.within, hResponse, hCollection]
      · rw [hCount, h.count, hNew]
      · rw [hNew]
        exact h.single
      · have hOld := h.file
        unfold FileOf at hOld ⊢
        rw [hNew]
        exact hOld

/-! ### End tags -/

theorem rel_refl (fi : Option FileInfo) : Option.Rel Alike fi fi := by
  cases fi with
  | none => exact .none
  | some f => exact .some (.refl f)

theorem onFile_alike {change : FileInfo → FileInfo} (hAlike : ∀ f, Alike f (change f))
    (h : c.fi.isSome = true) :
    ∃ fi', c.onFile (fun f => some (change f)) = some { c with fi := fi' }
      ∧ Option.Rel Alike c.fi fi' := by
  obtain ⟨f, hFile⟩ := Option.isSome_iff_exists.mp h
  refine ⟨some (change f), ?_, ?_⟩
  · rw [XmlContext.onFile, hFile]
    rfl
  · rw [hFile]
    exact .some (hAlike f)

/-- Other elements than the `DAV:href` of a response leave name and type as they are. -/
theorem process_alike {below : List Bytes} (hStack : c.stack = el :: below)
    (hNot : ¬(el = href ∧ below.head? = some response))
    (hTakes : takes env el c.chardata = true → c.fi.isSome = true) :
    ∃ fi', c.processChardata env = some { c with fi := fi' } ∧ Option.Rel Alike c.fi fi' := by
  have hTop : ∀ tag, c.within tag = decide (el = tag) := by
    intro tag
    rw [XmlContext.within, hStack]
    simp
  have hHref : c.within₂ href response = false := by
    rw [XmlContext.within₂, hTop, hStack]
    cases below with
    | nil => simp
    | cons tag below => simpa using hNot
  have hSame : ∃ fi', some c = some { c with fi := fi' } ∧ Option.Rel Alike c.fi fi' :=
    ⟨c.fi, rfl, rel_refl c.fi⟩
  unfold XmlContext.processChardata
  rw [hHref, if_neg Bool.false_ne_true]
  simp only [hTop]
  by_cases hLength : el = getcontentlength
  · rw [if_pos (decide_eq_true hLength)]
    cases hScan : scanLong c.chardata with
    | none => exact hSame
    | some n =>
        exact onFile_alike (fun f => alike_setSize f n.1) (hTakes (by simp [takes, hLength, hScan]))
  rw [if_neg (by simpa using hLength)]
  by_cases hModified : el = getlastmodified
  · rw [if_pos (decide_eq_true hModified)]
    cases hTime : env.atotm c.chardata with
    | none => exact hSame
    | some tm =>
        exact onFile_alike (fun f => alike_setDate f tm 0)
          (hTakes (by simp [takes, hModified, hTime]))
  rw [if_neg (by simpa using hModified)]
  by_cases hUser : el = creatorDisplayname
  · rw [if_pos (decide_eq_true hUser)]
    exact onFile_alike (fun f => alike_setUser f _) (hTakes (by simp [takes, hUser]))
  rw [if_neg (by simpa using hUser)]
  by_cases hExecutable : el = executable
  · rw [if_pos (decide_eq_true hExecutable)]
    split
    · next hTrue =>
      exact onFile_alike (fun f => alike_setMode f _) (hTakes (by simp [takes, hExecutable, hTrue]))
    · split
      · next hFalse =>
        exact onFile_alike (fun f => alike_setMode f _)
          (hTakes (by simp [takes, hExecutable, hFalse]))
      · exact hSame
  rw [if_neg (by simpa using hExecutable)]
  exact hSame

/-- The `DAV:href` of a response gives the file its name. -/
theorem setHref_matches (f : FileInfo) {text p : Bytes} (hPath : pathOf env text = some p)
    (hPlain : Plain base p) (hSlash : r.collection = true → endsInSlash p = true) :
    ∃ g, XmlContext.setHref env (setBaseDir base) text f = some g
      ∧ Matches env base { r with href := some text } g := by
  let typed : FileInfo :=
    if endsInSlash p then (f.setType .directory).setMode 0o755
    else (f.setType .normal).setMode 0o644
  have hDir : typed.typeIs .directory = endsInSlash p := by
    dsimp only [typed]
    cases endsInSlash p with
    | true => exact ((alike_setMode (f.setType .directory) _).dir).trans (dir_setType f _)
    | false => exact ((alike_setMode (f.setType .normal) _).dir).trans (dir_setType f _)
  have hEntry : endsInSlash p = (endsInSlash p || r.collection) := by
    cases hCollection : r.collection with
    | true => rw [hSlash hCollection, Bool.or_true]
    | false => rw [Bool.or_false]
  refine ⟨setName typed
    (XmlContext.fileName (setBaseDir base) (chomp slash p) (endsInSlash p)), ?_, ?_⟩
  · unfold XmlContext.setHref
    unfold pathOf at hPath
    rw [hPath]
    rfl
  · refine ⟨named_setName _ _, nofun, fun s hs => ?_⟩
    obtain rfl := Option.some.inj hs
    exact ⟨p, hPath, hPlain, rfl, by rw [dir_setName, hDir]; exact hEntry⟩

theorem hrefText_of_closing {els : List (Bytes × Bytes)} {text : Bytes}
    (h : closingHref els = some text) : hrefText els = some text := by
  obtain ⟨outer, rest, rfl⟩ := closingHref_eq_some h
  rw [hrefText, h, Option.some_or]

/-- The end of a `DAV:href` of a response. -/
theorem Inv.exit_href (h : Inv env base d c) {text : Bytes}
    (hClosing : closingHref d.elements = some text) (hClean : CleanExit env base d c.chardata) :
    ∃ c', c.pop env = some c' ∧ Inv env base (d.exit env base) c' := by
  obtain ⟨outer, rest, hEls⟩ := closingHref_eq_some hClosing
  have hData : c.chardata = text := h.text text (hrefText_of_closing hClosing)
  have hStack : c.stack = href :: response :: rest.map Prod.fst := by
    rw [h.stack, hEls]
    rfl
  have hNe : href ≠ response := by decide
  have hCount : openResponses d.elements = openResponses rest + 1 := by
    rw [hEls, openResponses_cons, openResponses_cons, if_pos rfl, if_neg hNe]
  have hOne : ∃ r, d.responses = [r] := by
    have hLength := h.count
    have hSingle := h.single
    exact List.length_eq_one_iff.mp (by omega)
  obtain ⟨r, hResponses⟩ := hOne
  have hNoRest : openResponses rest = 0 := by
    have hLength := h.count
    rw [hResponses, hCount] at hLength
    simpa using hLength
  have hText : ∀ s ∈ hrefText ((response, outer) :: rest), c.chardata = s := by
    intro s hs
    exfalso
    rw [Option.mem_def, hrefText] at hs
    cases hInner : closingHref ((response, outer) :: rest) with
    | some t =>
        obtain ⟨_, _, hEq⟩ := closingHref_eq_some hInner
        exact hNe (congrArg Prod.fst (List.cons.inj hEq).1).symm
    | none =>
        rw [hInner, Option.none_or] at hs
        have hPos := openResponses_of_hrefText hs
        omega
  have hRest : openResponses ((response, outer) :: rest) = 1 := by
    rw [openResponses_cons, hNoRest, if_pos rfl]
  have hFile := h.file
  unfold FileOf at hFile
  rw [hResponses] at hFile
  obtain ⟨f, hf, hMatches⟩ := hFile
  by_cases hNil : text = []
  · refine ⟨{ c with stack := response :: rest.map Prod.fst }, ?_, ?_⟩
    · simp [XmlContext.pop, XmlContext.within, hData, hNil, hStack, hNe]
    · have hExit : d.exit env base = { d with elements := (response, outer) :: rest } := by
        subst hNil
        simp only [Doc.exit, hEls, hResponses, if_neg hNe]
        rw [← hEls, hClosing]
      rw [hExit]
      refine ⟨rfl, h.baseDir, h.added, hText, ?_, h.single, h.file⟩
      show openResponses ((response, outer) :: rest) = d.responses.length
      rw [hRest, hResponses]
      rfl
  · obtain ⟨p, hPath, hPlain, hSlash⟩ := hClean.href text hClosing hNil
    obtain ⟨g, hSet, hNew⟩ := setHref_matches f hPath hPlain (hSlash r (by rw [hResponses]; rfl))
    refine ⟨{ c with stack := response :: rest.map Prod.fst, fi := some g }, ?_, ?_⟩
    · have hProcess : c.processChardata env = some { c with fi := some g } := by
        have hTop : c.within₂ href response = true := by
          simp [XmlContext.within₂, XmlContext.within, hStack]
        rw [XmlContext.processChardata, if_pos hTop, XmlContext.onFile, hf, h.baseDir, hData]
        dsimp only
        rw [hSet]
        rfl
      have hSome : c.chardata ≠ [] := hData ▸ hNil
      simp [XmlContext.pop, XmlContext.within, hSome, hProcess, hStack, hNe]
    · have hExit : d.exit env base = { d with
          elements := (response, outer) :: rest, responses := [{ r with href := some text }] } := by
        obtain ⟨b, s, rfl⟩ := List.exists_cons_of_ne_nil hNil
        simp only [Doc.exit, hEls, hResponses, if_neg hNe]
        rw [← hEls, hClosing]
      rw [hExit]
      exact ⟨rfl, h.baseDir, h.added, hText, hRest, le_rfl, g, rfl, hNew⟩

theorem add_stack (c : XmlContext) : c.add.stack = c.stack := by
  unfold XmlContext.add
  split
  · rfl
  · split <;> rfl

/-- The end of another element. -/
theorem Inv.exit_other (h : Inv env base d c) {text : Bytes} {rest : List (Bytes × Bytes)}
    (hEls : d.elements = (el, text) :: rest) (hClosing : closingHref d.elements = none)
    (hClean : CleanExit env base d c.chardata) :
    ∃ c', c.pop env = some c' ∧ Inv env base (d.exit env base) c' := by
  have hStack : c.stack = el :: rest.map Prod.fst := by
    rw [h.stack, hEls]
    rfl
  have hText : ∀ s ∈ hrefText rest, c.chardata = s := by
    intro s hs
    apply h.text
    rw [hEls] at hClosing ⊢
    rw [Option.mem_def, hrefText, hClosing, Option.none_or]
    exact hs
  have hNot : ¬(el = href ∧ (rest.map Prod.fst).head? = some response) := by
    rintro ⟨rfl, hHead⟩
    rw [hEls] at hClosing
    cases rest with
    | nil => cases hHead
    | cons e rest =>
        obtain ⟨el', t'⟩ := e
        have hTag : el' = response := Option.some.inj hHead
        rw [closingHref, if_pos ⟨rfl, hTag⟩] at hClosing
        cases hClosing
  obtain ⟨fi', hProcess, hAlike⟩ : ∃ fi',
      (if c.chardata ≠ [] then c.processChardata env else some c) = some { c with fi := fi' }
        ∧ Option.Rel Alike c.fi fi' := by
    by_cases hData : c.chardata = []
    · exact ⟨c.fi, if_neg (not_not.mpr hData), rel_refl c.fi⟩
    · rw [if_pos hData]
      apply process_alike hStack hNot
      intro hTakes
      rw [← h.file.hasFile_iff]
      exact hClean.property (el, text) (by rw [hEls]; rfl) hData hTakes
  have hFile := h.file.alike hAlike
  have hPop : c.pop env = some { (if el = response then { c with fi := fi' }.add
      else { c with fi := fi' }) with stack := rest.map Prod.fst } := by
    have hTop : ({ c with fi := fi' } : XmlContext).within response = decide (el = response) := by
      rw [XmlContext.within, hStack]
      simp
    unfold XmlContext.pop
    dsimp only
    rw [hProcess]
    dsimp only
    rw [hTop]
    by_cases hResponse : el = response
    · rw [if_pos (decide_eq_true hResponse), if_pos hResponse, add_stack, hStack]
    · rw [if_neg (by simpa using hResponse), if_neg hResponse, hStack]
  refine ⟨_, hPop, ?_⟩
  by_cases hResponse : el = response
  · rw [if_pos hResponse]
    have hCount : openResponses rest + 1 = d.responses.length := by
      rw [← h.count, hEls, openResponses_cons, if_pos hResponse]
    have hSingle := h.single
    obtain ⟨r, hResponses⟩ := List.length_eq_one_iff.mp (show d.responses.length = 1 by omega)
    have hExit : d.exit env base = ⟨rest, [], r.href.isNone,
        d.entries ++ (r.entry env base).toList⟩ := by
      simp only [Doc.exit, hEls, hResponses, if_pos hResponse]
    have hNone : openResponses rest = 0 := by
      rw [hResponses] at hCount
      simpa using hCount
    unfold FileOf at hFile
    rw [hResponses] at hFile
    obtain ⟨g, rfl, hMatches⟩ := hFile
    rw [hExit]
    cases hHref : r.href with
    | none =>
        have hName : g.has FileSets.Defined.name = false := by rw [hMatches.named, hHref]; rfl
        have hAdd : ({ c with fi := some g } : XmlContext).add = { c with fi := some g } := by
          rw [XmlContext.add]
          dsimp only
          rw [if_neg (by simp [hName])]
        rw [hAdd]
        refine ⟨rfl, h.baseDir, ?_, hText, hNone, Nat.zero_le 1, rfl⟩
        simpa [Response.entry, hHref] using h.added
    | some s =>
        obtain ⟨p, hPath, hPlain, hName, hDir⟩ := hMatches.entry s hHref
        have hNamed : g.has FileSets.Defined.name = true := by rw [hMatches.named, hHref]; rfl
        have hAdd : ({ c with fi := some g } : XmlContext).add
            = { c with added := c.added ++ [g], fi := none } := by
          rw [XmlContext.add]
          dsimp only
          rw [if_pos hNamed]
        have hDot := hClean.dot (el, text) (by rw [hEls]; rfl) hResponse r (by rw [hResponses]; rfl)
          p (by rw [hHref]; exact hPath)
        have hEntry : r.entry env base = some (g.name, g.typeIs .directory) := by
          rw [Response.entry, hHref, Option.bind_some, hPath, Option.map_some, hName, hDir,
            fileName_eq hPlain hDot]
        rw [hAdd, hEntry]
        refine ⟨rfl, h.baseDir, ?_, hText, hNone, Nat.zero_le 1, rfl⟩
        rw [List.map_append, h.added]
        rfl
  · rw [if_neg hResponse]
    have hExit : d.exit env base = { d with elements := rest } := by
      rw [Doc.exit, hEls]
      dsimp only
      cases hResponses : d.responses with
      | nil => rfl
      | cons r rs =>
          dsimp only
          rw [if_neg hResponse, ← hEls, hClosing]
    rw [hExit]
    refine ⟨rfl, h.baseDir, h.added, hText, ?_, h.single, hFile⟩
    show openResponses rest = d.responses.length
    rw [← h.count, hEls, openResponses_cons, if_neg hResponse, Nat.add_zero]

/-- An event that the handlers are made for. -/
theorem Inv.step (h : Inv env base d c) (e : XmlContext.Event) (hOpen : e = .exit → d.elements ≠ [])
    (hClean : Clean env base ⟨some c, d⟩ e) :
    ∃ c', XmlContext.handle env c e = some c' ∧ Inv env base (d.next env base e) c' := by
  cases e with
  | enter el => exact h.enter_step hClean
  | item s => exact ⟨_, rfl, h.text_step s⟩
  | exit =>
      obtain ⟨⟨el, text⟩, rest, hEls⟩ := List.exists_cons_of_ne_nil (hOpen rfl)
      have hExit := hClean c rfl
      cases hClosing : closingHref d.elements with
      | some text => exact h.exit_href hClosing hExit
      | none => exact h.exit_other hEls hClosing hExit

theorem elements_text (d : Doc) (s : Bytes) :
    (d.text s).elements.map Prod.fst = d.elements.map Prod.fst := by
  rw [Doc.text, List.map_map]
  rfl

theorem elements_exit (d : Doc) {e : Bytes × Bytes} {rest : List (Bytes × Bytes)}
    (h : d.elements = e :: rest) : (d.exit env base).elements = rest := by
  rw [Doc.exit, h]
  dsimp only
  split
  · rfl
  · split
    · rfl
    · split <;> rfl

/-- What holds of the handlers along a document. -/
theorem run_entries {es : List XmlContext.Event} (h : Inv env base d c)
    (hDoc : (stackRun (fun _ el => el) (d.elements.map Prod.fst) es).isSome = true)
    (hClean : AllOk (Run.step env base) (Clean env base) ⟨some c, d⟩ es)
    {ps : List XmlContext.Event} (hps : ps <+: es) :
    (ps.foldl (Run.step env base) ⟨some c, d⟩).Exact := by
  induction ps generalizing es d c with
  | nil => exact ⟨c, rfl, h.added⟩
  | cons e ps ih =>
      obtain ⟨qs, rfl⟩ := hps
      obtain ⟨hNow, hLater⟩ := hClean
      have hOpen : e = .exit → d.elements ≠ [] := by
        rintro rfl hNil
        rw [hNil] at hDoc
        cases hDoc
      obtain ⟨c', hHandle, hInv⟩ := h.step e hOpen hNow
      have hStep : Run.step env base ⟨some c, d⟩ e = ⟨some c', d.next env base e⟩ := by
        rw [Run.step, Option.bind_some, hHandle]
      rw [List.foldl_cons, hStep]
      rw [hStep] at hLater
      refine ih hInv ?_ hLater (List.prefix_append ps qs)
      cases e with
      | enter el => exact hDoc
      | item s =>
          rw [Doc.next, elements_text]
          rw [List.cons_append, stackRun] at hDoc
          exact hDoc
      | exit =>
          obtain ⟨e, rest, hEls⟩ := List.exists_cons_of_ne_nil (hOpen rfl)
          rw [Doc.next, elements_exit d hEls]
          rw [hEls] at hDoc
          exact hDoc

end

/-- In every run along a document whose steps are clean, no handler is without a file, and the files
are the entries of the responses that are closed. -/
theorem entries_exact (env : Env) (base : Bytes) (es : List XmlContext.Event) (hDoc : Nested es)
    (hClean : AllOk (Run.step env base) (Clean env base) (Run.start base) es) :
    ∀ ps, ps <+: es → (ps.foldl (Run.step env base) (Run.start base)).Exact := by
  intro ps hps
  refine run_entries (inv_start env base) ?_ hClean hps
  have hRun : stackRun (fun (_ : List Bytes) el => el) [] es = some [] := hDoc.stackRun_eq []
  show (stackRun (fun _ el => el) [] es).isSome = true
  rw [hRun]
  rfl

/-! ## Responses -/

def plainEnv : Env :=
  ⟨⟨fun _ => false, fun _ => false, fun _ => false, fun _ => false⟩, fun _ => none⟩

/-- `DAV:href` comes first, in two pieces. -/
def hrefFirst : List XmlContext.Event :=
  [.enter response, .enter href, .item (bytes "/d"), .item (bytes "/"), .exit,
    .enter collection, .exit, .exit]

theorem nested_hrefFirst : Nested hrefFirst :=
  .block response (.block href (.item _ (.item _ .nil)) (.block collection .nil .nil)) .nil

theorem clean_hrefFirst :
    AllOk (Run.step plainEnv (bytes "/")) (Clean plainEnv (bytes "/")) (Run.start (bytes "/"))
      hrefFirst := by
  decide +kernel

theorem entries_hrefFirst : Nested hrefFirst ∧
    AllOk (Run.step plainEnv (bytes "/")) (Clean plainEnv (bytes "/")) (Run.start (bytes "/"))
      hrefFirst ∧
    ∀ ps, ps <+: hrefFirst →
      (ps.foldl (Run.step plainEnv (bytes "/")) (Run.start (bytes "/"))).Exact :=
  ⟨nested_hrefFirst, clean_hrefFirst,
    entries_exact plainEnv (bytes "/") hrefFirst nested_hrefFirst clean_hrefFirst⟩

/-- `DAV:collection` comes first. -/
def collectionFirst : List XmlContext.Event :=
  [.enter response, .enter collection, .exit, .enter href, .item (bytes "/d"), .exit, .exit]

theorem nested_collectionFirst : Nested collectionFirst :=
  .block response (.block collection .nil (.block href (.item _ .nil) .nil)) .nil

/-- A directory becomes a plain file. -/
theorem not_entries : ¬ ∀ (env : Env) (base : Bytes) (es : List XmlContext.Event), Nested es →
    ∀ ps, ps <+: es → (ps.foldl (Run.step env base) (Run.start base)).Exact := by
  intro h
  obtain ⟨c, hContext, hAdded⟩ := h plainEnv (bytes "/") collectionFirst nested_collectionFirst
    collectionFirst (List.prefix_refl _)
  have hFiles : (collectionFirst.foldl (Run.step plainEnv (bytes "/"))
      (Run.start (bytes "/"))).context.map
        (fun c => c.added.map fun f => (f.name, f.typeIs .directory))
      = some [(bytes "d", false)] := by
    decide +kernel
  have hEntries : (collectionFirst.foldl (Run.step plainEnv (bytes "/"))
      (Run.start (bytes "/"))).doc.entries = [(bytes "d", true)] := by
    decide +kernel
  rw [hContext, Option.map_some, hAdded, hEntries] at hFiles
  exact absurd hFiles (by decide)

end Lftp.Ports.HttpDirXML
