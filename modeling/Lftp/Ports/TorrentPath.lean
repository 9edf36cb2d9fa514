import Lftp.Verified.Segments
import Lftp.Ports.Bencode

/-!
# The file paths of a torrent

`Torrent::MakePath`, the part of `Torrent::SetMetadata` that reads the name and
accepts the file table, and the constructor of `TorrentFiles`. Strings of the
metadata go through a character set translation on their way into a path; it is
a parameter, and nothing is assumed of it.

* `Contained` is what `OpenFile` needs of a path it joins to `output_dir`.
* `contained_iff` says which metadata yields contained paths only.
-/

namespace Lftp.Ports.TorrentPath

open Lftp.Verified
open Lftp.Ports.Bencode

/-- `recv_translate_utf8` and `recv_translate`, with the torrent's `info_hash`. -/
structure Context where
  fromUTF8 : Bytes → Bytes
  fromCharset : Bytes → Bytes
  infoHash : Bytes

/-- `BeNode::lookup(key)`; the map of a node that is not a dictionary is empty. -/
def lookup (key : String) : BeNode → Option BeNode
  | .dict _ d => d.lookup (bytes key)
  | _ => none

/-- `BeNode::lookup(key,BE_STR)`. -/
def lookupStr (key : String) (n : BeNode) : Option Bytes :=
  match lookup key n with
  | some (.str s) => some s
  | _ => none

/-- `BeNode::lookup(key,BE_LIST)`. -/
def lookupList (key : String) (n : BeNode) : Option (List BeNode) :=
  match lookup key n with
  | some (.list l) => some l
  | _ => none

/-- `BeNode::lookup(key,BE_INT)`. -/
def lookupInt (key : String) (n : BeNode) : Option Int :=
  match lookup key n with
  | some (.int num) => some num.toInt
  | _ => none

/-- One byte of `%02X`. -/
def hexDigit (n : Nat) : UInt8 := UInt8.ofNat (if n < 10 then 48 + n else 55 + n)

/-- `xstring::hexdump_to`. -/
def hexdump (s : Bytes) : Bytes :=
  s.flatMap fun c => [hexDigit (c.toNat / 16), hexDigit (c.toNat % 16)]

/-- The member `name` as `SetMetadata` leaves it. -/
def torrentName (ctx : Context) (info : BeNode) : Bytes :=
  match lookupStr "name.utf-8" info with
  | some s => ctx.fromUTF8 s
  | none =>
    match lookupStr "name" info with
    | some s => ctx.fromCharset s
    | none => hexdump ctx.infoHash

/-- The checks that `SetMetadata` makes on an entry of `info/files`. -/
def isFileEntry (f : BeNode) : Bool :=
  (match f with | .dict _ _ => true | _ => false)
    && (match lookupInt "length" f with | some n => 0 ≤ n | none => false)
    && (lookupList "path" f).isSome

/-- The file table of accepted metadata: a single file, or the list `files`. -/
inductive FileTable where
  | single
  | multi (files : List BeNode)

/-- The file table that `SetMetadata` reads, `none` where it sets an error. -/
def fileTable (info : BeNode) : Option FileTable :=
  match lookup "files" info with
  | none =>
    match lookupInt "length" info with
    | some n => if n < 0 then none else some .single
    | none => none
  | some (.list l) => if l.all isFileEntry then some (.multi l) else none
  | some _ => none

/-- The path components of a file entry, translated: `path.utf-8` or `path`, of
which the strings count. -/
def pathElements (ctx : Context) (p : BeNode) : List Bytes :=
  let (path, tr) :=
    match lookupList "path.utf-8" p with
    | some l => (l, ctx.fromUTF8)
    | none => ((lookupList "path" p).getD [], ctx.fromCharset)
  path.filterMap fun e => match e with | .str s => some (tr s) | _ => none

def slash : UInt8 := ch '/'

def dotdot : Bytes := [ch '.', ch '.']

/-- `if(buf.eq("..") || buf[0]=='/') buf.set_substr(0,0,"_",1);` -/
def guardName (name : Bytes) : Bytes :=
  if name = dotdot ∨ name.head? = some slash then ch '_' :: name else name

/-- `if(e->str_lc.eq("..")) buf.append('_'); buf.append(e->str_lc);` -/
def guardElement (e : Bytes) : Bytes := if e = dotdot then ch '_' :: e else e

/-- `Torrent::MakePath`, with the loop over the components as a fold. -/
def makePath (ctx : Context) (name : Bytes) (p : BeNode) : Bytes :=
  (pathElements ctx p).foldl (fun buf e => buf ++ slash :: guardElement e) (guardName name)

/-- The paths stored by `TorrentFiles::TorrentFiles`; `TorrentFile::set` copies
them as C strings. -/
def torrentFiles (ctx : Context) (info : BeNode) : List Bytes :=
  let name := torrentName ctx info
  match fileTable info with
  | none => []
  | some .single => [cstr name]
  | some (.multi files) => files.map fun f => cstr (makePath ctx name f)

/-- `dir_file`, which `OpenFile` applies to `output_dir` and the path. -/
def dirFile (dir file : Bytes) : Bytes :=
  if dir = [] then file
  else if file = [] then dir
  else if file.head? = some slash then file
  else
    let file := if file.take 2 = [ch '.', slash] then file.drop 2 else file
    if dir.getLast? = some slash then dir ++ file else dir ++ slash :: file

/-! ## Containment -/

/-- A relative path without a `..` component. -/
def Contained (p : Bytes) : Prop :=
  p.head? ≠ some slash ∧ dotdot ∉ p.splitOn slash

/-- A string that is safe as a part of a path: `..` itself, which is guarded, or
one without a `..` component as far as C reads it. -/
def SafePart (e : Bytes) : Prop := e = dotdot ∨ dotdot ∉ (cstr e).splitOn slash

/-- The strings of the metadata from which only contained paths are made. -/
def SafeNames (ctx : Context) (info : BeNode) : Prop :=
  let name := torrentName ctx info
  match fileTable info with
  | none => True
  | some .single => Contained (cstr name)
  | some (.multi files) => ∀ f ∈ files,
      (name = [] → pathElements ctx f = []) ∧
        ∀ e ∈ throughNul (name :: pathElements ctx f), SafePart e

theorem makePath_eq (ctx : Context) (name : Bytes) (p : BeNode) :
    makePath ctx name p =
      joinSep slash (guardName name) ((pathElements ctx p).map guardElement) := by
  unfold makePath
  generalize guardName name = buf
  induction pathElements ctx p generalizing buf with
  | nil => simp [joinSep]
  | cons e es ih =>
      rw [List.foldl_cons, ih, List.map_cons, joinSep_cons]
      simp [joinSep]

/-! ## The guards -/

theorem zero_mem_guardElement (e : Bytes) : 0 ∈ guardElement e ↔ 0 ∈ e := by
  unfold guardElement
  split <;> simp [show (0 : UInt8) ≠ ch '_' by decide]

theorem zero_mem_guardName (name : Bytes) : 0 ∈ guardName name ↔ 0 ∈ name := by
  unfold guardName
  split <;> simp [show (0 : UInt8) ≠ ch '_' by decide]

theorem dotdot_mem_guardElement (e : Bytes) :
    dotdot ∈ (cstr (guardElement e)).splitOn slash ↔ ¬ SafePart e := by
  by_cases h : e = dotdot
  · subst h
    exact iff_of_false (by decide) (by simp [SafePart])
  · simp [guardElement, SafePart, h]

/-- The underscore before a leading slash only renames the empty first component. -/
theorem dotdot_mem_guardName (name : Bytes) :
    dotdot ∈ (cstr (guardName name)).splitOn slash ↔ ¬ SafePart name := by
  by_cases h : name = dotdot
  · subst h
    exact iff_of_false (by decide) (by simp [SafePart])
  by_cases hHead : name.head? = some slash
  · obtain ⟨t, rfl⟩ : ∃ t, name = slash :: t := List.head?_eq_some_iff.mp hHead
    have hSlash : slash ≠ 0 := by decide
    have hPlain := List.splitOn_append_cons_self (a := slash) [] (cstr t)
    have hMarked := List.splitOn_append_cons_self (a := slash) [ch '_'] (cstr t)
    rw [List.nil_append] at hPlain
    rw [List.singleton_append] at hMarked
    rw [guardName, if_pos (.inr hHead), cstr_cons (by decide), cstr_cons hSlash, hMarked]
    simp only [SafePart, h, false_or, not_not, cstr_cons hSlash, hPlain, List.mem_append]
    have hNil : dotdot ≠ [] := by decide
    have hMark : dotdot ∉ [ch '_'].splitOn slash := by decide
    simp [hNil, hMark]
  · simp [guardName, SafePart, h, hHead]

theorem guardName_eq_nil {name : Bytes} : guardName name = [] ↔ name = [] := by
  unfold guardName
  split
  · next h =>
    refine iff_of_false (by simp) ?_
    rintro rfl
    rcases h with h | h <;> simp [dotdot] at h
  · exact Iff.rfl

theorem head_guardName (name : Bytes) : (guardName name).head? ≠ some slash := by
  unfold guardName
  split
  · rw [List.head?_cons]
    decide
  · next h => exact fun hHead => h (.inr hHead)

/-- The path of a file is absolute when the name is empty and a component follows. -/
theorem head_makePath (ctx : Context) (name : Bytes) (p : BeNode) :
    (cstr (makePath ctx name p)).head? ≠ some slash ↔
      (name = [] → pathElements ctx p = []) := by
  rw [makePath_eq]
  by_cases hName : name = []
  · subst hName
    rw [guardName_eq_nil.mpr rfl]
    cases pathElements ctx p with
    | nil => simp [joinSep]
    | cons e es =>
        rw [List.map_cons, joinSep_cons, List.nil_append, cstr_cons (by decide)]
        simp
  · refine iff_of_true ?_ (fun h => absurd h hName)
    have hHead := head_guardName name
    obtain ⟨c, t, hct⟩ := List.exists_cons_of_ne_nil (mt guardName_eq_nil.mp hName)
    rw [hct] at hHead ⊢
    by_cases hc : c = 0
    · simp [joinSep, cstr, hc]
    · simpa [joinSep, cstr_cons hc] using hHead

theorem contained_makePath_iff (ctx : Context) (name : Bytes) (p : BeNode) :
    Contained (cstr (makePath ctx name p)) ↔
      (name = [] → pathElements ctx p = []) ∧
        ∀ e ∈ throughNul (name :: pathElements ctx p), SafePart e := by
  unfold Contained
  rw [head_makePath, and_congr_right_iff]
  intro _
  rw [makePath_eq, mem_splitOn_cstr_join (by decide)]
  -- The guards move no NUL, so the parts that C reads are the same with them.
  have hThrough :
      (∃ e ∈ throughNul (guardName name :: (pathElements ctx p).map guardElement),
        dotdot ∈ (cstr e).splitOn slash) ↔
      ∃ e ∈ throughNul (name :: pathElements ctx p), ¬ SafePart e := by
    by_cases hNul : 0 ∈ name
    · have hGuarded := (zero_mem_guardName name).mpr hNul
      simp [throughNul, hNul, hGuarded, dotdot_mem_guardName]
    · have hGuarded := mt (zero_mem_guardName name).mp hNul
      have hMap := throughNul_map zero_mem_guardElement (pathElements ctx p)
      simp [throughNul, hNul, hGuarded, hMap, dotdot_mem_guardName, dotdot_mem_guardElement]
  rw [hThrough]
  simp

/-- Exactly the metadata with safe names yields contained paths only. -/
theorem contained_iff (ctx : Context) (info : BeNode) :
    (∀ p ∈ torrentFiles ctx info, Contained p) ↔ SafeNames ctx info := by
  unfold torrentFiles SafeNames
  dsimp only
  split
  · simp
  · simp
  · simp only [List.mem_map, forall_exists_index, and_imp, forall_apply_eq_imp_iff₂,
      contained_makePath_iff]

/-- A two-file torrent; the second path has a `..` inside one of its strings. -/
def climbing : BeNode :=
  .dict []
    [(bytes "name", .str (bytes "d")),
     (bytes "files", .list
       [.dict [] [(bytes "length", .int 1), (bytes "path", .list [.str (bytes "a")])],
        .dict [] [(bytes "length", .int 1),
          (bytes "path", .list [.str (bytes "b/../../../c")])]])]

theorem not_contained_climbing :
    ¬ ∀ (ctx : Context) (info : BeNode), ∀ p ∈ torrentFiles ctx info, Contained p := by
  intro hAll
  have hPath : bytes "d/b/../../../c" ∈ torrentFiles ⟨id, id, []⟩ climbing := by decide
  exact (hAll _ _ _ hPath).2 (by decide)

end Lftp.Ports.TorrentPath
