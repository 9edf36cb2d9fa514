import Lftp.Ports.Url
import Lftp.Verified.CString
import Lftp.Verified.Escapes
import Lftp.Verified.Lines
import Lftp.Verified.Loop

/-!
# The reply to `PWD`

`Ftp::ExtractPWD` takes the directory out of the text between the first and the last quote of the
line, where a quote of the name is written twice.

* `loop_copy`: the copy undoes the doubling and fits.
* `Waiting.eq_fresh`: while no reply gave a directory, the connection is as it was.
* `extractPWD_double`: a directory with slashes is read back.
-/

namespace Lftp.Ports.PwdReply

open Lftp.Verified Lftp.Verified.Block Lftp.Verified.Escapes
open Lftp.Ports.Url (isAlpha)

def quote : UInt8 := ch '"'

/-- What the connection knows of its paths. -/
structure Conn where
  vmsPath : Bool
  dosPath : Bool
  deriving DecidableEq

/-- `FileAccess::device_prefix_len`, where `device-prefix` may be off. -/
def devicePrefixLen (allowed : Bool) (path : Bytes) : Nat :=
  if !allowed then 0
  else
    let i := (path.takeWhile fun c => isAlpha c || isDigit c || (bytes "$_-").contains c).length
    if 0 < i ∧ path[i]? = some (ch ':') then
      i + 1 + if path[i + 1]? = some (ch '/') then 1 else 0
    else 0

/-- `to_ascii_lower` -/
def toAsciiLower (c : UInt8) : UInt8 := if 65 ≤ c.toNat ∧ c.toNat ≤ 90 then c + 32 else c

/-- The part of `normalize_path_vms` that looks for the place of the first directory. The device
is put in front of it, behind a slash. -/
def vmsDevice (mem path : Bytes) : Option (Bytes × Nat) :=
  match path.idxOf? (ch ':') with
  | some k => do
    let mem ← store mem 1 (path ++ [0])
    let mem ← store mem 0 [ch '/']
    let rest ← cstrAt mem (k + 1)
    if rest[1]? = some (ch '[') then (store mem (k + 1) (rest.drop 1 ++ [0])).map (·, k + 1)
    else some (mem, k + 1)
  | none => (path.idxOf? (ch '[')).map (mem, ·)

/-- `normalize_path_vms` -/
def normalizePathVms (mem : Bytes) : Option Bytes := do
  let path ← cstrAt mem 0
  let path := path.map toAsciiLower
  let mem ← store mem 0 path
  let (mem, k) ← vmsDevice mem path
  let mem ← store mem k [ch '/']
  let rest ← cstrAt mem (k + 1)
  let dirs := rest.takeWhile (· ≠ ch ']')
  let mem ← store mem (k + 1) (dirs.map fun c => if c = ch '.' then ch '/' else c)
  match rest.drop dirs.length with
  | [] => some mem
  | [_] => store mem (k + 1 + dirs.length) [0]
  | _ => store mem (k + 1 + dirs.length) [ch '/']

/-- The copy: `scan`, the number of bytes stored, and the buffer. -/
structure Copy where
  scan : Nat
  stored : Nat
  pwd : Bytes

/-- Copy a byte. This is the method of quote encoding. -/
def copyByte (buf : Bytes) (w : Copy) : Option Copy := do
  let c ← buf[w.scan]?
  let d ← if c = quote then buf[w.scan + 1]? else some c
  let scan := if c = quote ∧ d = quote then w.scan + 1 else w.scan
  let c ← buf[scan]?
  let pwd ← store w.pwd w.stored [c]
  some ⟨scan + 1, w.stored + 1, pwd⟩

/-- A turn of the copy, up to `rightQuote`. -/
def turn (line : Bytes) (rightQuote : Nat) (w : Copy) : Copy ⊕ Option Copy :=
  if w.scan < rightQuote then (copyByte line w).elim (.inr none) .inl else .inr (some w)

/-- `strrchr` for the quote. -/
def lastQuote (s : Bytes) : Option Nat := (s.reverse.idxOf? quote).map fun n => s.length - 1 - n

/-- The result; backslashes become slashes against dosish servers. -/
def slashes (conn : Conn) (pwd : Bytes) : Option (Option Bytes × Conn) :=
  (cstrAt pwd 0).map fun path =>
    (some (if ch '/' ∉ path ∨ conn.dosPath = true then
      path.map fun c => if c = ch '\\' then ch '/' else c
    else path), conn)

/-- What is done with the directory in the buffer. -/
def settle (allowed : Bool) (conn : Conn) (pwd : Bytes) : Option (Option Bytes × Conn) := do
  let path ← cstrAt pwd 0
  let devLen := devicePrefixLen allowed path
  if (path ++ [0])[devLen]? = some (ch '[') then do
    let pwd ← normalizePathVms pwd
    slashes { conn with vmsPath := true } pwd
  else slashes (if devLen = 2 ∨ devLen = 3 then { conn with dosPath := true } else conn) pwd

/-- `Ftp::ExtractPWD` for a line; `stack` is what was in the memory of the buffer. Without a
fault the result is the directory, if there is one, and what the connection knows. -/
def extractPWD (stack : Nat → UInt8) (allowed : Bool) (conn : Conn) (line : Bytes) :
    Option (Option Bytes × Conn) :=
  match (cstr line).idxOf? quote with
  | none => some (none, conn)
  | some left =>
    match lastQuote ((cstr line).drop (left + 1)) with
    | none => some (none, conn)
    | some right => do
      let pwd := (List.range (line.length + 1)).map stack
      let copied ← loop (turn (cstr line ++ [0]) (left + 1 + right)) (line.length + 1) ⟨left + 1, 0, pwd⟩
      let w ← copied
      if w.stored = 0 then some (none, conn)
      else do
        let pwd ← store w.pwd w.stored [0]
        settle allowed conn pwd

/-- The connection before the reply that gives the directory. The replies before it, if any,
gave none. -/
inductive Waiting (stack : Nat → UInt8) (allowed : Bool) : Conn → Prop
  | fresh : Waiting stack allowed ⟨false, false⟩
  | reply {conn conn' : Conn} {line : Bytes} (h : Waiting stack allowed conn)
      (hReply : extractPWD stack allowed conn line = some (none, conn')) :
      Waiting stack allowed conn'

/-- The line of the reply. -/
def reply (p comment : Bytes) : Bytes :=
  bytes "257 " ++ (quote :: (double quote p ++ quote :: comment))

/-! ## The copy -/

section
variable {line pre more room : Bytes} {rightQuote : Nat}

theorem line_at (i : Nat) : (pre ++ more)[pre.length + i]? = more[i]? := by
  rw [List.getElem?_append_right (Nat.le_add_right _ _), Nat.add_sub_cancel_left]

theorem store_byte (hRoom : room ≠ []) (out : Bytes) (c : UInt8) :
    store (out ++ room) out.length [c] = some (out ++ [c] ++ room.tail) := by
  obtain ⟨x, room, rfl⟩ := List.exists_cons_of_ne_nil hRoom
  have hStore := store_append (a := out) (w := [c]) (x := [x]) room rfl
  rw [List.singleton_append] at hStore
  rw [hStore, List.append_assoc]
  rfl

/-- A character of the name, written once or twice. -/
theorem copyByte_eq (c : UInt8) (hLine : line = pre ++ (double quote [c] ++ more))
    (hRoom : room ≠ []) (out : Bytes) :
    copyByte line ⟨pre.length, out.length, out ++ room⟩
      = some ⟨(pre ++ double quote [c]).length, (out ++ [c]).length, out ++ [c] ++ room.tail⟩ := by
  subst hLine
  unfold copyByte
  by_cases hc : c = quote
  · subst hc
    have hAt : (pre ++ (double quote [quote] ++ more))[pre.length]? = some quote := line_at 0
    have hNext : (pre ++ (double quote [quote] ++ more))[pre.length + 1]? = some quote := line_at 1
    simp only [hAt, Option.bind_eq_bind, Option.bind_some, if_true, hNext, and_self,
      store_byte hRoom, List.length_append]
    rfl
  · have hPlain : double quote [c] = [c] := double_plains (by simpa using Ne.symm hc)
    rw [hPlain]
    have hAt : (pre ++ ([c] ++ more))[pre.length]? = some c := line_at 0
    simp only [hAt, Option.bind_eq_bind, Option.bind_some, hc, false_and, if_false,
      store_byte hRoom, List.length_append, List.length_singleton]

/-- The copy of a name whose quotes are doubled. -/
theorem loop_copy (p : Bytes) (hLine : line = pre ++ (double quote p ++ more))
    (hRight : rightQuote = pre.length + (double quote p).length) (hRoom : p.length ≤ room.length)
    (out : Bytes) {n : Nat} (hn : p.length < n) :
    loop (turn line rightQuote) n ⟨pre.length, out.length, out ++ room⟩
      = some (some ⟨rightQuote, out.length + p.length, out ++ (p ++ room.drop p.length)⟩) := by
  induction p generalizing pre out room n with
  | nil =>
      obtain ⟨n, rfl⟩ := Nat.exists_eq_add_of_lt hn
      have hStop : rightQuote = pre.length := hRight
      subst hStop
      have hTurn : turn line pre.length ⟨pre.length, out.length, out ++ room⟩
          = .inr (some ⟨pre.length, out.length, out ++ room⟩) := if_neg (Nat.lt_irrefl _)
      exact loop_inr hTurn _
  | cons c p ih =>
      obtain ⟨n, rfl⟩ := Nat.exists_eq_add_of_le' (show 1 ≤ n by omega)
      rw [List.length_cons] at hRoom hn
      have hDouble : double quote (c :: p) = double quote [c] ++ double quote p := double_append [c] p
      have hPos : 0 < (double quote [c]).length := by
        by_cases hc : c = quote <;> simp [double, hc]
      rw [hDouble, List.append_assoc] at hLine
      rw [hDouble, List.length_append] at hRight
      have hTurn : turn line rightQuote ⟨pre.length, out.length, out ++ room⟩
          = .inl ⟨(pre ++ double quote [c]).length, (out ++ [c]).length, out ++ [c] ++ room.tail⟩ := by
        rw [turn, if_pos (by dsimp only; omega), copyByte_eq c hLine (List.ne_nil_of_length_pos (by omega)) out]
        rfl
      have hEnd : out ++ [c] ++ (p ++ room.tail.drop p.length)
          = out ++ (c :: p ++ room.drop (p.length + 1)) := by
        rw [List.append_assoc, ← List.drop_one, List.drop_drop, Nat.add_comm 1]
        rfl
      have hStored : (out ++ [c]).length + p.length = out.length + (p.length + 1) := by
        rw [List.length_append, List.length_singleton]
        omega
      rw [loop_inl hTurn, ih (by rw [hLine, List.append_assoc]) (by rw [List.length_append]; omega)
        (by rw [List.length_tail]; omega) (out ++ [c]) (Nat.lt_of_succ_lt_succ hn), hEnd, hStored]
      rfl

end

/-! ## What is read -/

theorem lastQuote_eq {name comment : Bytes} (h : quote ∉ comment) :
    lastQuote (name ++ quote :: comment) = some name.length := by
  have hReverse : (name ++ quote :: comment).reverse = comment.reverse ++ quote :: name.reverse := by
    simp
  have hAt : (comment.reverse ++ quote :: name.reverse).idxOf? quote = some comment.reverse.length :=
    idxOf?_line (by simpa using h) name.reverse
  rw [lastQuote, hReverse, hAt, Option.map_some]
  simp

/-- A directory with slashes stays as it is. -/
theorem settle_eq {allowed : Bool} {conn : Conn} {p : Bytes} (hConn : conn.dosPath = false)
    (hNul : 0 ∉ p) (hSlash : ch '/' ∈ p) (hVms : p.head? ≠ some (ch '['))
    (hDevice : devicePrefixLen allowed p = 0) (rest : Bytes) :
    settle allowed conn (p ++ 0 :: rest) = some (some p, conn) := by
  have hString : cstrAt (p ++ 0 :: rest) 0 = some p := cstrAt_append hNul [] rest
  obtain ⟨c, p, rfl⟩ := List.exists_cons_of_ne_nil (List.ne_nil_of_mem hSlash)
  have hNot : ¬ (c :: p ++ [0])[0]? = some (ch '[') := hVms
  unfold settle
  rw [hString, Option.bind_eq_bind, Option.bind_some]
  dsimp only
  rw [hDevice, if_neg hNot, if_neg (by decide), slashes, hString,
    Option.map_some, if_neg (by simp [hSlash, hConn])]

theorem settle_some {allowed : Bool} {conn conn' : Conn} {pwd : Bytes} :
    settle allowed conn pwd ≠ some (none, conn') := by
  have hSlashes {conn : Conn} {pwd : Bytes} : slashes conn pwd ≠ some (none, conn') := by
    intro h
    obtain ⟨path, -, h⟩ := Option.map_eq_some_iff.mp h
    cases h
  intro h
  unfold settle at h
  obtain ⟨path, -, h⟩ := Option.bind_eq_some_iff.mp h
  dsimp only at h
  split at h
  · obtain ⟨pwd, -, h⟩ := Option.bind_eq_some_iff.mp h
    exact hSlashes h
  · exact hSlashes h

/-- Nothing changes where no directory is given. -/
theorem extractPWD_none {stack : Nat → UInt8} {allowed : Bool} {conn conn' : Conn} {line : Bytes}
    (h : extractPWD stack allowed conn line = some (none, conn')) : conn' = conn := by
  unfold extractPWD at h
  split at h
  · cases h
    rfl
  split at h
  · cases h
    rfl
  obtain ⟨copied, -, h⟩ := Option.bind_eq_some_iff.mp h
  obtain ⟨w, -, h⟩ := Option.bind_eq_some_iff.mp h
  split at h
  · cases h
    rfl
  obtain ⟨pwd, -, h⟩ := Option.bind_eq_some_iff.mp h
  exact absurd h settle_some

theorem Waiting.eq_fresh {stack : Nat → UInt8} {allowed : Bool} {conn : Conn}
    (h : Waiting stack allowed conn) : conn = ⟨false, false⟩ := by
  induction h with
  | fresh => rfl
  | reply h hReply ih => rw [extractPWD_none hReply, ih]

/-- The directory of the reply is read back, and all is stored in the buffer. -/
theorem extractPWD_double (stack : Nat → UInt8) {allowed : Bool} {conn : Conn}
    (hConn : Waiting stack allowed conn) {p comment : Bytes} (hNul : 0 ∉ p) (hSlash : ch '/' ∈ p)
    (hVms : p.head? ≠ some (ch '[')) (hDevice : devicePrefixLen allowed p = 0)
    (hComment : quote ∉ comment) :
    extractPWD stack allowed conn (reply p comment) = some (some p, conn) := by
  have hText : cstr (reply p comment)
      = bytes "257 " ++ quote :: (double quote p ++ quote :: cstr comment) := by
    have hNot : 0 ∉ bytes "257 " ++ quote :: double quote p ++ [quote] := by
      simp only [List.mem_append, List.mem_cons, not_or]
      exact ⟨⟨by decide, by decide, fun h => hNul (mem_double h)⟩, by decide⟩
    have hSplit := cstr_append_of_notMem hNot comment
    simpa [reply] using hSplit
  have hLeft : (cstr (reply p comment)).idxOf? quote = some 4 := by
    rw [hText]
    exact idxOf?_line (by decide) _
  have hRest : (cstr (reply p comment)).drop (4 + 1) = double quote p ++ quote :: cstr comment := by
    rw [hText]
    rfl
  have hRight : lastQuote (double quote p ++ quote :: cstr comment) = some (double quote p).length :=
    lastQuote_eq fun h => hComment (List.takeWhile_subset _ h)
  have hLength : p.length < (reply p comment).length := by
    have hDouble : p.length ≤ (double quote p).length := length_le_double p
    simp only [reply, List.length_append, List.length_cons]
    omega
  generalize hRoom : (List.range ((reply p comment).length + 1)).map stack = room
  have hFits : p.length < room.length := by
    rw [← hRoom, List.length_map, List.length_range]
    omega
  have hLoop : loop (turn (cstr (reply p comment) ++ [0]) (4 + 1 + (double quote p).length))
      ((reply p comment).length + 1) ⟨4 + 1, 0, room⟩
      = some (some ⟨4 + 1 + (double quote p).length, p.length, p ++ room.drop p.length⟩) := by
    have hLine : cstr (reply p comment) ++ [0]
        = bytes "257 " ++ [quote] ++ (double quote p ++ (quote :: cstr comment ++ [0])) := by
      rw [hText]
      simp
    have hCopy := loop_copy p hLine rfl hFits.le [] (Nat.lt_succ_of_lt hLength)
    rwa [List.length_nil, Nat.zero_add, List.nil_append, List.nil_append,
      show (bytes "257 " ++ [quote]).length = 4 + 1 from rfl] at hCopy
  have hStored : p.length ≠ 0 :=
    Nat.ne_of_gt (List.length_pos_of_ne_nil (List.ne_nil_of_mem hSlash))
  obtain ⟨x, rest, hEnd⟩ := List.exists_cons_of_ne_nil
    (show room.drop p.length ≠ [] from fun h => absurd (List.drop_eq_nil_iff.mp h) (by omega))
  have hStore := store_append (a := p) (w := [0]) (x := [x]) rest rfl
  rw [List.singleton_append, List.singleton_append] at hStore
  have hFresh : conn.dosPath = false := by rw [hConn.eq_fresh]
  unfold extractPWD
  rw [hLeft]
  dsimp only
  rw [hRest, hRight]
  simp only [hRoom, hLoop, Option.bind_eq_bind, Option.bind_some, if_neg hStored, hEnd, hStore,
    settle_eq hFresh hNul hSlash hVms hDevice]

/-- A name that begins and ends with quotes. -/
theorem extractPWD_double_quotes :
    extractPWD (fun _ => 7) true ⟨false, false⟩
        (reply (bytes "\"a\"\"/b\"") (bytes " is the current directory"))
      = some (some (bytes "\"a\"\"/b\""), ⟨false, false⟩) :=
  extractPWD_double _ .fresh (by decide) (by decide) (by decide) (by decide) (by decide)

end Lftp.Ports.PwdReply
